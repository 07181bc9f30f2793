import Sigil.Proofs.Node.Accepted
import Sigil.Proofs.Node.Reread
import Sigil.Proofs.Node.Steady

/-!
# Scripts that are read back

The text of a script is read as the same script (`Node.reread`), if its floats
are read back from their texts and the raw scan finds the end of every
substitution in a string of it.
-/

namespace Sigil

/-- Entries that are spelled are read back from their text. -/
theorem parseProgram_sourceEntries {body : List Node} (h : Node.SpelledAll body) :
    ∃ cs span ns, Node.sourceEntries body = .ok cs ∧
      parseProgram cs = .ok (.program span ns) ∧ Node.eraseAll ns = Node.eraseAll body := by
  obtain ⟨cs, hs, hw⟩ := Node.writes_entryChunks body h
  have text := Node.textOf_entryChunks hw hs
  have legible : Legible (View.whole cs).beyond.head? (Node.entryChunks body false) :=
    Node.legible_entryChunks body h none false rfl
  have said : (Stream.ofLexed (tokenize cs) false 0).Says (Node.entryChunks body false) :=
    Stream.says_ofLexed text.symm legible false
  have reads : ∀ n ∈ body, Parser.ReadsTree (Parser.expressionUpTo (cs.length + 1)) n n.chunks
      Parser.stops := by
    intro n hn
    have spelled := Node.spelledAll_iff.mp h n hn
    have inside := Node.length_le_of_in spelled (Node.in_entryChunks hn false)
    rw [text] at inside
    exact (Parser.reader_expressionUpTo _).tree n spelled (Nat.lt_succ_of_le inside)
  obtain ⟨⟨span, ns⟩, rest, hrun, erased⟩ := Parser.gives_program h reads said
  refine ⟨cs, span, ns, hs, ?_, ?_⟩
  · unfold parseProgram
    rw [hrun]
    rfl
  · simpa only [Node.eraseAll_eq_map] using erased

namespace Node

/-- A script is read back from its text. -/
theorem reread {t : Node} (h : t.isScript) (hc : t.isClosed) (hr : AllReadBack t.floats) :
    ∃ cs u, t.source = .ok cs ∧ parseProgram cs = .ok u ∧ u.erase = t.erase := by
  cases t with
  | program span body =>
    simp only [isClosed, walk, List.all_cons, Bool.and_eq_true] at hc
    have spelled := spelledAll_of_areWritten body h hc.2 hr
    obtain ⟨cs, inner, ns, hs, hp, erased⟩ := parseProgram_sourceEntries spelled
    exact ⟨cs, .program inner ns, hs, hp, by rw [erase, erase, erased]⟩
  | _ => cases h

/-- Scripts that differ in their spans alone are the same. -/
theorem same_of_isScript {t u : Node} (h : t.isScript) (hu : t.erase = u.erase) : t.same u := by
  cases t with
  | program span body =>
    have kinds : (program span body).kind = u.kind := by rw [← kind_erase, hu, kind_erase]
    cases u <;> try (simp only [kind] at kinds; contradiction)
    simp only [erase, program.injEq, true_and] at hu
    simp [same, sameAll_of_eraseAll_eq body hu h]
  | _ => cases h

end Node

/-- A tree that scripts can say has a text, which is read as the same tree, if the raw scan passes
over the defaults in the substitutions in its strings and its floats are read back from their
texts. -/
theorem parseProgram_source (t : Node) (h : t.isScript) (hp : t.passes false)
    (hr : ∀ x ∈ t.floats, Number.ReadsBack x) :
    ∃ cs u, t.source = .ok cs ∧ parseProgram cs = .ok u ∧ t.same u := by
  obtain ⟨cs, u, hs, hu, erased⟩ := Node.reread h (Node.isClosed_of_passes h hp hr) hr
  exact ⟨cs, u, hs, hu, Node.same_of_isScript h erased.symm⟩

/-- The script `let $f = fn ($a) { $a + 1.5 }; "say $(Y=2 echo ${z:-(z)})"`. -/
def Node.sample : Node :=
  .program none
    [.define none "f" none (.function none none [⟨none, "a", none⟩] none none
      [.binary none .add (.reference none "a" none) (.literal none (.float 1.5))]),
      .interpolation none [.text "say ", .node (.substitution none
        [.command none [.mk none "Y" (.literal none (.int 2))] "echo"
          [.reference none "z" (some "(z)")]])]]

theorem parseProgram_source_sample : ∃ cs u, Node.sample.source = .ok cs ∧
    parseProgram cs = .ok u ∧ Node.sample.same u := by
  refine parseProgram_source Node.sample (by decide +kernel) (by decide +kernel) fun x hx => ?_
  cases List.mem_singleton.mp (show x ∈ [1.5] from hx)
  exact fun _ _ _ => by decide +kernel

/-- What is printed of a script that was read is read as the same script, and printed in the same
way again, if its floats are read back from their texts and the raw scan finds the end of every
substitution in a string where it was printed. -/
theorem parseProgram_stable (s : List Char) (t : Node) (h : parseProgram s = .ok t)
    (hc : t.isClosed) (hr : ∀ x ∈ t.floats, Number.ReadsBack x) :
    ∃ cs u, t.source = .ok cs ∧ parseProgram cs = .ok u ∧ t.same u ∧ u.source = .ok cs := by
  have script : t.isScript := by
    have cases := parseProgram_cases s
    rw [h] at cases
    exact cases
  obtain ⟨cs, u, hs, hu, erased⟩ := Node.reread script hc hr
  refine ⟨cs, u, hs, hu, Node.same_of_isScript script erased.symm, ?_⟩
  rw [← Node.source_erase, erased, Node.source_erase, hs]

/-- A script with a substitution in a string, as it was typed. -/
def typedSample : List Char :=
  "x \"$(echo ${y:-z})\" 1.5".toList

theorem parseProgram_stable_typedSample : ∃ t cs u, parseProgram typedSample = .ok t ∧
    t.source = .ok cs ∧ parseProgram cs = .ok u ∧ t.same u ∧ u.source = .ok cs := by
  have checked : (parseProgram typedSample).toOption.any fun t =>
      t.isClosed && t.floats.all fun x =>
        (Lexer.numberText (Number.floatText x).toList).content = .ok (.float x) := by
    decide +kernel
  cases h : parseProgram typedSample with
  | error e =>
    rw [h] at checked
    cases checked
  | ok t =>
    rw [h] at checked
    simp only [Except.toOption, Option.any_some, Bool.and_eq_true, List.all_eq_true,
      decide_eq_true_eq] at checked
    obtain ⟨cs, u, stable⟩ :=
      parseProgram_stable typedSample t h checked.1 fun x hx _ _ _ => checked.2 x hx
    exact ⟨t, cs, u, rfl, stable⟩

end Sigil
