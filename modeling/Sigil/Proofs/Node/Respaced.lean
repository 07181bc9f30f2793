import Sigil.Proofs.Node.Echoed
import Sigil.Proofs.Node.RoundTrip

/-!
# Gaps mean nothing

Which tree is read from a text depends on what the tokens say and on which of
them are adjacent. So line breaks, blanks and comments can be put for others
wherever there were some, and left out or added before the first token and
behind the last (`parseProgram_respaced`). The text must be contained: what is
read from the inside of a substitution in a string may otherwise depend on what
is written behind the string.
-/

namespace Sigil

/-- A script that is contained is read as the same script from its tokens with other gaps between
them. -/
theorem parseProgram_respaced (source respaced : List Char) (n : Node)
    (contained : (View.whole source).Contained) (h : parseProgram source = .ok n)
    (hr : Lexer.Respaced true 0 (tokenize source).tokens.dropLast respaced) :
    ∃ m, parseProgram respaced = .ok m ∧ n.same m := by
  have script := isScript_of_parseProgram h
  obtain ⟨⟨⟨span, body⟩, u⟩, hu, made⟩ := bind_eq_ok h
  cases made
  obtain ⟨ps, p, q, hs, ht, kins⟩ := View.tokens_respaced (w := .whole respaced)
    (View.bounded_whole source) (Parser.sound_of_program (w := .whole source) hu) hr
    (by rintro _ ⟨⟩)
  have kin := Stream.kin_ofLexed hs ht kins contained (View.tokens_within (.whole respaced))
  have reader := Parser.echoes_expressionUpTo (source.length + 1) (respaced.length + 1)
  obtain ⟨⟨span', body'⟩, v, hv, same⟩ :=
    Parser.program_echo reader (Nat.le_succ respaced.length) rfl kin _ u hu
  refine ⟨.program span' body', ?_, Node.same_of_isScript script ?_⟩
  · rw [parseProgram]
    exact congrArg (· >>= _) hv
  · exact congrArg (Node.program none) same.symm

/-- A script with no gaps that are not needed. -/
def denseSample : List Char :=
  "f(\"$(y)\");g 1".toList

/-- Other gaps for the script. -/
def sparseGaps : List (List Char) :=
  ["#a\n".toList, [], [], [], [], [], "\n\t".toList, "\n".toList]

theorem parseProgram_respaced_denseSample : ∃ n m, parseProgram denseSample = .ok n ∧
    parseProgram "#a\nf(\"$(y)\");g\n\t1\n".toList = .ok m ∧ n.same m := by
  have accepted : (parseProgram denseSample).toOption.isSome := by decide +kernel
  have contained : View.isContained 1 (.whole denseSample) := by decide +kernel
  have fitting : Lexer.fits true 0 (tokenize denseSample).tokens.dropLast sparseGaps := by
    decide +kernel
  have gaps : ∀ gap ∈ sparseGaps, Lexer.Gap false gap := by
    have blanks : Lexer.Gap false "\n\t".toList ∧ Lexer.Gap false "\n".toList :=
      ⟨.blank (by decide) (.blank (by decide) .nil), .blank (by decide) .nil⟩
    simp only [sparseGaps, List.forall_mem_cons]
    exact ⟨Lexer.Gap.comment (by decide : '\n' ∉ ['a']) .nil, .nil, .nil, .nil, .nil, .nil, blanks.1,
      blanks.2, List.forall_mem_nil _⟩
  have text : Lexer.respace (tokenize denseSample).tokens.dropLast sparseGaps =
      "#a\nf(\"$(y)\");g\n\t1\n".toList := by
    decide +kernel
  have respaced := Lexer.respaced_respace fitting gaps
  rw [text] at respaced
  cases h : parseProgram denseSample with
  | error e =>
    rw [h] at accepted
    cases accepted
  | ok n =>
    obtain ⟨m, hm, same⟩ :=
      parseProgram_respaced _ _ n (View.contained_of_isContained contained) h respaced
    exact ⟨n, m, rfl, hm, same⟩

end Sigil
