import Sigil.Proofs.Node.Legible
import Sigil.Proofs.Token.Steady

/-!
# Trees that the raw scan passes over

The raw scan for the end of a substitution knows nothing of references: it
takes the quotes and parentheses in their defaults for those of the script. If
it passes over each of the defaults in the substitutions in strings
(`Node.passes`), it passes over everything else that is written there
(`Node.still_chunks`), and finds the ends of all substitutions in strings
(`Node.isClosed_of_passes`).
-/

namespace Sigil

open Lexer

/-- Whether the raw scan passes over a default where these enclose it. -/
def Lexer.passes (es : List Enclosure) (default : String) : Bool :=
  scan (some '\x7d') es (defaultSource default) = es

namespace Node

mutual

/-- Whether the raw scan passes over the defaults in a tree: over those in the substitutions in its
strings, and over all that are not in strings if the tree is quoted itself. -/
def passes (quoted : Bool) : Node → Bool
  | reference _ _ (some default) => !quoted || Lexer.passes inCode default
  | literal .. | reference _ _ none | parameter _ | blank _ | ret _ none => true
  | substitution _ body | block _ body | function _ _ _ _ _ body | program _ body =>
    passesAll quoted body
  | interpolation _ parts => passesParts quoted parts
  | binding (.mk _ _ value) => passes quoted value
  | command _ env _ args => passesBindings quoted env && passesAll quoted args
  | call _ callee args => passes quoted callee && passesAll quoted args
  | conditional _ condition thenBranch none => passes quoted condition && passes quoted thenBranch
  | conditional _ condition thenBranch (some elseBranch) =>
    passes quoted condition && passes quoted thenBranch && passes quoted elseBranch
  | binary _ _ left right => passes quoted left && passes quoted right
  | unary _ _ operand => passes quoted operand
  | ret _ (some value) | define _ _ _ value | assign _ _ value => passes quoted value

@[inherit_doc passes]
def passesAll (quoted : Bool) : List Node → Bool
  | [] => true
  | n :: ns => passes quoted n && passesAll quoted ns

@[inherit_doc passes]
def passesBindings (quoted : Bool) : List EnvBinding → Bool
  | [] => true
  | .mk _ _ value :: bs => passes quoted value && passesBindings quoted bs

/-- Whether the raw scan passes over the defaults in a string: over its own if it is quoted, and
over those in its substitutions. -/
def passesParts (quoted : Bool) : List Part → Bool
  | [] => true
  | .text _ :: ps => passesParts quoted ps
  | .node (reference _ _ (some default)) :: ps =>
    (!quoted || Lexer.passes inString default) && passesParts quoted ps
  | .node (substitution _ body) :: ps => passesAll true body && passesParts quoted ps
  | .node n :: ps => passes quoted n && passesParts quoted ps

end

end Node

/-! ## Tokens -/

/-- A default that the scan passes over, with what is written around it. -/
theorem steady_default {es : List Enclosure} {default : String} {cs : List Char}
    (h : Lexer.passes es default) (hcs : Steady es cs) (hbrace : Steady es ['\x7d']) :
    Steady es (cs ++ defaultSource default ++ ['\x7d']) := by
  intro following
  have passed : scan (some '\x7d') es (defaultSource default) = es := of_decide_eq_true h
  rw [scan_append, scan_append, hcs]
  rw [show ['\x7d'].head?.or following = some '\x7d' from rfl, passed, hbrace]

theorem Mark.steady_variable {name : String} (h : isReference name none) :
    Steady inCode (Mark.variable name).source := by
  simp only [isReference, Bool.and_eq_true] at h
  exact .cons (fun _ => rfl) (steady_wordChars (isWordChar_of_isName h.1)).1

theorem Mark.steady_defaulted {name default : String} (h : isReference name (some default))
    (hp : Lexer.passes inCode default) : Steady inCode (Mark.defaulted name default).source := by
  simp only [isReference, Bool.and_eq_true] at h
  have before : Steady inCode ("$\x7b".toList ++ name.toList ++ ":-".toList) :=
    (Steady.append (.of_code (by decide)) (steady_wordChars (isWordChar_of_isName h.1)).1).append
      (.of_code (by decide))
  exact steady_default hp before (.of_code (by decide))

/-- A reference in a string; its default is passed over there. -/
theorem Fragment.steady_variable {name : String} {default : Option String}
    (h : isReference name default) (hp : ∀ d ∈ default, Lexer.passes inString d) :
    Steady inString (Fragment.variable name default).source := by
  simp only [isReference, Bool.and_eq_true] at h
  have letters := (steady_wordChars (isWordChar_of_isName h.1)).2
  have brace {cs : List Char} (hcs : Steady inString cs) :
      Steady inString ('$' :: '\x7b' :: cs) :=
    fun following => hcs following
  cases default with
  | none => exact brace (letters.append (.of_string (by decide)))
  | some d =>
    have before : Steady inString ("$\x7b".toList ++ name.toList ++ ":-".toList) :=
      brace (letters.append (.of_string (by decide)))
    exact steady_default (hp d rfl) before (.of_string (by decide))

theorem steady_escapeChar (c : Char) : Steady inString (escapeChar c) := by
  unfold escapeChar
  split
  case h_8 backslash quote dollar _ _ _ _ =>
    refine .of_string ?_
    simpa [isPlainInString] using ⟨quote, backslash, dollar⟩
  all_goals exact fun _ => rfl

theorem steady_escapeText (s : String) : Steady inString (escapeText s) :=
  .flatMap fun c _ => steady_escapeChar c

theorem Mark.steady_string {fs : List Fragment} (h : ∀ f ∈ fs, Steady inString f.source) :
    Steady inCode (Mark.string fs).source :=
  .quotes (.flatMap h)

theorem Mark.steady_delimiter {s : String} (h : s ∈ ["\x7b", "\x7d", ",", ";"]) :
    Steady inCode (Mark.delimiter s).source := by
  refine .of_code ?_
  revert s
  decide

theorem Mark.steady_operator {s : String} (h : s ∈ operators) :
    Steady inCode (Mark.operator s).source := by
  refine .of_code ?_
  revert s
  decide

theorem Mark.steady_word {s : String} (h : isWord s) : Steady inCode (Mark.word s).source :=
  (steady_wordChars (isWordChar_of_isWord h)).1

/-! ## Chunks -/

theorem steady_gap (spaced : Bool) : Steady inCode (gap spaced) := by
  cases spaced <;> exact .of_code (by decide)

section

variable {p : Chunk} {ps qs : List Chunk} {spaced : Bool}

theorem steady_cons (h : Steady inCode p.mark.source) (k : Steady inCode (textOf ps)) :
    Steady inCode (textOf (p :: ps)) := by
  rw [textOf_cons]
  exact ((steady_gap p.spaced).append h).append k

theorem steady_append (h : Steady inCode (textOf ps)) (k : Steady inCode (textOf qs)) :
    Steady inCode (textOf (ps ++ qs)) := by
  rw [textOf_append]
  exact h.append k

theorem steady_grouped (h : Steady inCode (textOf ps)) : Steady inCode
    (textOf (⟨spaced, .delimiter "("⟩ :: (ps ++ [⟨false, .delimiter ")"⟩]))) := by
  rw [textOf_cons, textOf_append, List.append_assoc]
  exact (steady_gap spaced).append h.parens

theorem steady_substituted (h : Steady inCode (textOf ps)) : Steady inCode
    (textOf (⟨spaced, .delimiter "$("⟩ :: (ps ++ [⟨false, .delimiter ")"⟩]))) := by
  rw [textOf_cons, textOf_append, List.append_assoc]
  exact (steady_gap spaced).append (.cons (fun _ => rfl) h.parens)

theorem steady_braced (h : Steady inCode (textOf ps)) : Steady inCode
    (textOf (⟨spaced, .delimiter "\x7b"⟩ :: (ps ++ [⟨true, .delimiter "\x7d"⟩]))) :=
  steady_cons (Mark.steady_delimiter (by decide))
    (steady_append h (steady_cons (Mark.steady_delimiter (by decide)) (.nil _)))

end

namespace Chunks

/-- Tokens that the raw scan passes over. -/
def Still (f : Chunks) : Prop :=
  ∀ spaced, Steady inCode (textOf (f spaced))

variable {f : Chunks} {fs : List Chunks}

theorem still_single {m : Mark} (h : Steady inCode m.source) : (single m).Still :=
  fun _ => steady_cons h (.nil _)

theorem still_parens (alone : Bool) (h : f.Still) : (parens alone f).Still := by
  intro spaced
  cases alone with
  | true => exact h spaced
  | false => exact steady_grouped (h false)

theorem steady_listed (h : ∀ f ∈ fs, f.Still) : Steady inCode (textOf (listed fs)) := by
  refine steady_grouped ?_
  cases fs with
  | nil => exact .nil _
  | cons f fs =>
    obtain ⟨hf, hfs⟩ := List.forall_mem_cons.mp h
    refine steady_append (hf false) ?_
    clear h hf
    induction fs with
    | nil => exact .nil _
    | cons g gs ih =>
      obtain ⟨hg, hgs⟩ := List.forall_mem_cons.mp hfs
      exact steady_append (steady_cons (Mark.steady_delimiter (by decide)) (hg true)) (ih hgs)

theorem still_spaces (h : ∀ f ∈ fs, f.Still) : (spaces fs).Still := by
  intro spaced
  cases fs with
  | nil => exact .nil _
  | cons f fs =>
    obtain ⟨hf, hfs⟩ := List.forall_mem_cons.mp h
    refine steady_append (hf spaced) ?_
    clear h hf
    induction fs with
    | nil => exact .nil _
    | cons g gs ih =>
      obtain ⟨hg, hgs⟩ := List.forall_mem_cons.mp hfs
      exact steady_append (hg true) (ih hgs)

end Chunks

open Chunks

mutual

theorem Ty.still_chunks (t : Ty) : t.chunks.Still := by
  cases t with
  | dynamic | unknown => exact still_single (Mark.steady_word (by decide))
  | primitive p =>
    refine still_single (Mark.steady_word ?_)
    cases p <;> decide
  | fn params returns =>
    intro spaced
    refine steady_cons (Mark.steady_word (by decide))
      (steady_append (steady_listed (Ty.still_chunksAll params)) ?_)
    exact steady_cons (Mark.steady_operator (by decide)) (returns.still_chunks true)

theorem Ty.still_chunksAll : ∀ ts : List Ty, ∀ f ∈ Ty.chunksAll ts, f.Still
  | [] => nofun
  | t :: ts => List.forall_mem_cons.mpr ⟨t.still_chunks, Ty.still_chunksAll ts⟩

end

theorem still_declaredChunks {name : String} {declared : Option Ty}
    (h : Ty.isDeclaration name declared) : (declaredChunks name declared).Still := by
  intro spaced
  simp only [Ty.isDeclaration, Bool.and_eq_true] at h
  refine steady_cons (Mark.steady_variable (by simp [isReference, h.1])) ?_
  cases declared with
  | none => exact .nil _
  | some t => exact steady_cons (Mark.steady_operator (by decide)) (t.still_chunks true)

theorem steady_word_of_isPlainWord {s : String} (h : isPlainWord s) :
    Steady inCode (Mark.word s).source := by
  simp only [isPlainWord, Bool.and_eq_true] at h
  exact Mark.steady_word h.1

theorem still_headChunks {name : Option String} {params : List Param} {returns : Option Ty}
    (hname : name.all isPlainWord)
    (hparams : params.all fun p => Ty.isDeclaration p.name p.declared) :
    (headChunks name params returns).Still := by
  intro spaced
  refine steady_cons (Mark.steady_word (by decide))
    (steady_append ?_ (steady_append (steady_listed fun f hf => ?_) ?_))
  · cases name with
    | none => exact .nil _
    | some n => exact steady_cons (steady_word_of_isPlainWord hname) (.nil _)
  · obtain ⟨p, hp, rfl⟩ := List.mem_map.mp hf
    exact still_declaredChunks (List.all_eq_true.mp hparams p hp)
  · cases returns with
    | none => exact .nil _
    | some t => exact steady_cons (Mark.steady_operator (by decide)) (t.still_chunks true)

theorem Datum.still_chunks {value : Datum} (h : value.Spelled) : value.chunks.Still := by
  have number {cs : List Char} {said : Token.Content} (h : IsNumber cs said) :
      Steady inCode cs :=
    (steady_wordChars (isWordChar_of_isNumber h)).1
  cases value with
  | unit =>
    have inside : Steady inCode (textOf []) := .nil _
    exact fun _ => steady_grouped inside
  | bool b =>
    refine still_single (Mark.steady_word ?_)
    cases b <;> decide
  | number n =>
    have legible := (Datum.fine_chunks h).legible none false rfl
    cases n with
    | int n => exact still_single (number legible.1)
    | float x => exact still_single (number legible.1)
  | text s =>
    refine still_single (Mark.steady_string fun f hf => ?_)
    unfold textFragments at hf
    split at hf
    · cases hf
    · cases List.mem_singleton.mp hf
      exact steady_escapeText s
  | run => exact h.elim

namespace Node

mutual

/-- The raw scan passes over a tree if it passes over the defaults in it. -/
theorem still_chunks (n : Node) (h : n.Spelled) (hp : n.passes true) : n.chunks.Still := by
  intro spaced
  cases n with
  | literal span value => exact Datum.still_chunks h spaced
  | reference span name default =>
    cases default with
    | none => exact still_single (Mark.steady_variable h) spaced
    | some d => exact still_single (Mark.steady_defaulted h hp) spaced
  | substitution span body => exact steady_substituted (still_entryChunks body h hp false)
  | interpolation span parts =>
    exact still_single (Mark.steady_string (steady_fragments parts h.2 hp)) spaced
  | command span env name args =>
    simp only [passes, Bool.and_eq_true] at hp
    refine still_spaces (fun f hf => ?_) spaced
    rcases List.mem_append.mp hf with hf | hf
    · exact still_bindingChunks env h.2.1 hp.1 f hf
    rcases List.mem_cons.mp hf with rfl | hf
    · exact still_single (steady_word_of_isPlainWord h.1)
    · exact still_argumentChunks args h.2.2 hp.2 f hf
  | call span callee args =>
    simp only [passes, Bool.and_eq_true] at hp
    exact steady_append (still_parens _ (still_chunks callee h.1 hp.1) spaced)
      (steady_listed (still_chunksAll args h.2 hp.2))
  | conditional span condition thenBranch elseBranch =>
    cases elseBranch with
    | none =>
      simp only [passes, Bool.and_eq_true] at hp
      exact steady_cons (Mark.steady_word (by decide))
        (steady_append (still_parens _ (still_chunks condition h.1 hp.1) true)
          (steady_cons (Mark.steady_word (by decide))
            (still_parens _ (still_chunks thenBranch h.2 hp.2) true)))
    | some n =>
      simp only [passes, Bool.and_eq_true] at hp
      exact steady_cons (Mark.steady_word (by decide))
        (steady_append (still_parens _ (still_chunks condition h.1 hp.1.1) true)
          (steady_cons (Mark.steady_word (by decide))
            (steady_append (still_parens _ (still_chunks thenBranch h.2.1 hp.1.2) true)
              (steady_cons (Mark.steady_word (by decide)) (still_chunks n h.2.2 hp.2 true)))))
  | block span body => exact steady_braced (still_entryChunks body h hp true)
  | function span name params returns bodySpan body =>
    exact steady_append (still_headChunks h.1.1 h.1.2.1 spaced)
      (steady_braced (still_entryChunks body h.2 hp true))
  | binary span op left right =>
    simp only [passes, Bool.and_eq_true] at hp
    exact steady_append (still_parens _ (still_chunks left h.2.1 hp.1) spaced)
      (steady_cons (Mark.steady_operator (symbol_mem_operators h.1))
        (still_parens _ (still_chunks right h.2.2 hp.2) true))
  | unary span op operand =>
    exact steady_cons (Mark.steady_operator (proper_sign h.1))
      (still_parens _ (still_chunks operand h.2 hp) false)
  | ret span value =>
    cases value with
    | none => exact still_single (Mark.steady_word (by decide)) spaced
    | some n => exact steady_cons (Mark.steady_word (by decide)) (still_chunks n h hp true)
  | define span name declared value =>
    exact steady_cons (Mark.steady_word (by decide))
      (steady_append (still_declaredChunks h.1 true)
        (steady_cons (Mark.steady_operator (by decide)) (still_chunks value h.2 hp true)))
  | assign span name value =>
    exact steady_cons (Mark.steady_variable (by simp [isReference, h.1]))
      (steady_cons (Mark.steady_operator (by decide)) (still_chunks value h.2 hp true))
  | binding | parameter | program | blank => exact h.elim

theorem still_entryChunks : ∀ (ns : List Node), SpelledAll ns → passesAll true ns →
    (entryChunks ns).Still
  | [], _, _, _ => .nil _
  | [n], h, hp, spaced => by
    simp only [passesAll, Bool.and_true] at hp
    exact still_chunks n h.1 hp spaced
  | n :: m :: ns, h, hp, spaced => by
    rw [passesAll, Bool.and_eq_true] at hp
    exact steady_append (still_chunks n h.1 hp.1 spaced)
      (steady_cons (Mark.steady_delimiter (by decide)) (still_entryChunks (m :: ns) h.2 hp.2 true))

theorem still_chunksAll : ∀ (ns : List Node), SpelledAll ns → passesAll true ns →
    ∀ f ∈ chunksAll ns, f.Still
  | [], _, _ => nofun
  | n :: ns, h, hp => by
    rw [passesAll, Bool.and_eq_true] at hp
    exact List.forall_mem_cons.mpr ⟨still_chunks n h.1 hp.1, still_chunksAll ns h.2 hp.2⟩

theorem still_argumentChunks : ∀ (ns : List Node), SpelledAll ns → passesAll true ns →
    ∀ f ∈ argumentChunks ns, f.Still
  | [], _, _ => nofun
  | n :: ns, h, hp => by
    rw [passesAll, Bool.and_eq_true] at hp
    exact List.forall_mem_cons.mpr
      ⟨still_parens _ (still_chunks n h.1 hp.1), still_argumentChunks ns h.2 hp.2⟩

theorem still_bindingChunks : ∀ (bs : List EnvBinding), SpelledBindings bs →
    passesBindings true bs → ∀ f ∈ bindingChunks bs, f.Still
  | [], _, _ => nofun
  | .mk span name value :: bs, h, hp => by
    rw [passesBindings, Bool.and_eq_true] at hp
    refine List.forall_mem_cons.mpr ⟨fun spaced => ?_, still_bindingChunks bs h.2.2 hp.2⟩
    exact steady_cons (steady_word_of_isPlainWord h.1.2)
      (steady_cons (Mark.steady_operator (by decide))
        (still_parens _ (still_chunks value h.2.1 hp.1) false))

theorem steady_fragments : ∀ {afterText : Bool} (ps : List Part), SpelledParts afterText ps →
    passesParts true ps → ∀ f ∈ fragments ps, Steady inString f.source
  | _, [], _, _ => nofun
  | _, .text s :: ps, h, hp =>
    List.forall_mem_cons.mpr ⟨steady_escapeText s, steady_fragments ps h.2 hp⟩
  | _, .node n :: ps, h, hp => by
    obtain ⟨⟨part, -⟩, hn, h⟩ := h
    cases n <;> try cases part
    case reference.refl span name default =>
      cases default with
      | none =>
        exact List.forall_mem_cons.mpr
          ⟨Fragment.steady_variable hn nofun, steady_fragments ps h hp⟩
      | some d =>
        simp only [passesParts, Bool.not_true, Bool.false_or, Bool.and_eq_true] at hp
        refine List.forall_mem_cons.mpr
          ⟨Fragment.steady_variable hn fun e he => ?_, steady_fragments ps h hp.2⟩
        cases he
        exact hp.1
    case substitution.refl span body =>
      simp only [passesParts, Bool.and_eq_true] at hp
      exact List.forall_mem_cons.mpr
        ⟨.substitution (still_entryChunks body hn hp.1 false), steady_fragments ps h hp.2⟩

end

/-! ## The ends of substitutions -/

/-- A substitution in a string is found to end where it is written. -/
theorem isClosedInString_of_passes {span : Option Span} {body : List Node}
    (h : SpelledAll body) (hp : passesAll true body) :
    (substitution span body).isClosedInString := by
  obtain ⟨cs, hs, hw⟩ := writes_entryChunks body h
  have steady := still_entryChunks body h hp false
  rw [textOf_entryChunks hw hs] at steady
  simpa only [isClosedInString, hs] using isClosed_of_steady steady

mutual

theorem closes_of_passes {quoted : Bool} (n : Node) (hw : n.isWritten) (hp : n.passes quoted)
    (hr : AllReadBack n.floats) : n.walk.all closesParts := by
  cases n with
  | literal | reference => rfl
  | substitution span body | block span body => exact closesAll_of_passesAll body hw hp hr
  | interpolation span parts =>
    simp only [isWritten, Bool.and_eq_true] at hw
    obtain ⟨own, inner⟩ := closesParts_of_passesParts parts hw.2 hp hr
    simp only [walk, List.all_cons, Bool.and_eq_true]
    exact ⟨own, inner⟩
  | command span env name args =>
    simp only [isWritten, Bool.and_eq_true] at hw
    simp only [passes, Bool.and_eq_true] at hp
    obtain ⟨hre, hra⟩ := allReadBack_append.mp hr
    simp only [walk, List.all_cons, List.all_append, Bool.and_eq_true]
    exact ⟨rfl, closesBindings_of_passesBindings env hw.1.2 hp.1 hre,
      closesAll_of_passesAll args hw.2 hp.2 hra⟩
  | call span callee args =>
    simp only [isWritten, Bool.and_eq_true] at hw
    simp only [passes, Bool.and_eq_true] at hp
    obtain ⟨hrc, hra⟩ := allReadBack_append.mp hr
    simp only [walk, List.all_cons, List.all_append, Bool.and_eq_true]
    exact ⟨rfl, closes_of_passes callee hw.1 hp.1 hrc, closesAll_of_passesAll args hw.2 hp.2 hra⟩
  | conditional span condition thenBranch elseBranch =>
    cases elseBranch with
    | none =>
      simp only [isWritten, Bool.and_eq_true] at hw
      simp only [passes, Bool.and_eq_true] at hp
      obtain ⟨hrc, hrt⟩ := allReadBack_append.mp hr
      simp only [walk, List.all_cons, List.all_append, Bool.and_eq_true]
      exact ⟨rfl, closes_of_passes condition hw.1 hp.1 hrc,
        closes_of_passes thenBranch hw.2 hp.2 hrt⟩
    | some n =>
      simp only [isWritten, Bool.and_eq_true] at hw
      simp only [passes, Bool.and_eq_true] at hp
      obtain ⟨hrct, hre⟩ := allReadBack_append.mp hr
      obtain ⟨hrc, hrt⟩ := allReadBack_append.mp hrct
      simp only [walk, List.all_cons, List.all_append, Bool.and_eq_true]
      exact ⟨rfl, ⟨closes_of_passes condition hw.1.1 hp.1.1 hrc,
        closes_of_passes thenBranch hw.1.2 hp.1.2 hrt⟩, closes_of_passes n hw.2 hp.2 hre⟩
  | function span name params returns bodySpan body =>
    simp only [isWritten, Bool.and_eq_true] at hw
    simp only [walk, List.all_cons, List.all_append, Bool.and_eq_true]
    refine ⟨rfl, ?_, rfl, closesAll_of_passesAll body hw.2 hp hr⟩
    rw [List.all_map]
    exact List.all_eq_true.mpr fun _ _ => rfl
  | binary span op left right =>
    simp only [isWritten, Bool.and_eq_true, decide_eq_true_eq] at hw
    simp only [passes, Bool.and_eq_true] at hp
    obtain ⟨hrl, hrr⟩ := allReadBack_append.mp hr
    simp only [walk, List.all_cons, List.all_append, Bool.and_eq_true]
    exact ⟨rfl, closes_of_passes left hw.1.2 hp.1 hrl, closes_of_passes right hw.2 hp.2 hrr⟩
  | unary span op operand =>
    simp only [isWritten, Bool.and_eq_true, decide_eq_true_eq] at hw
    exact closes_of_passes operand hw.2 hp hr
  | ret span value =>
    cases value with
    | none => rfl
    | some n => exact closes_of_passes n hw hp hr
  | define span name declared value | assign span name value =>
    simp only [isWritten, Bool.and_eq_true] at hw
    exact closes_of_passes value hw.2 hp hr
  | binding | parameter | program | blank => cases hw

theorem closesAll_of_passesAll {quoted : Bool} : ∀ (ns : List Node), areWritten ns →
    passesAll quoted ns → AllReadBack (floatsAll ns) → (walkAll ns).all closesParts
  | [], _, _, _ => rfl
  | n :: ns, hw, hp, hr => by
    simp only [areWritten, Bool.and_eq_true] at hw
    simp only [passesAll, Bool.and_eq_true] at hp
    obtain ⟨hrn, hrs⟩ := allReadBack_append.mp hr
    simp only [walkAll, List.all_append, Bool.and_eq_true]
    exact ⟨closes_of_passes n hw.1 hp.1 hrn, closesAll_of_passesAll ns hw.2 hp.2 hrs⟩

theorem closesBindings_of_passesBindings {quoted : Bool} : ∀ (bs : List EnvBinding),
    areBindingsWritten bs → passesBindings quoted bs → AllReadBack (floatsBindings bs) →
    (walkBindings bs).all closesParts
  | [], _, _, _ => rfl
  | .mk span name value :: bs, hw, hp, hr => by
    simp only [areBindingsWritten, Bool.and_eq_true] at hw
    simp only [passesBindings, Bool.and_eq_true] at hp
    obtain ⟨hrv, hrs⟩ := allReadBack_append.mp hr
    simp only [walkBindings, List.cons_append, List.all_cons, List.all_append, Bool.and_eq_true]
    exact ⟨rfl, closes_of_passes value hw.1.2 hp.1 hrv,
      closesBindings_of_passesBindings bs hw.2 hp.2 hrs⟩

theorem closesParts_of_passesParts {quoted afterText : Bool} : ∀ (ps : List Part),
    arePartsWritten afterText ps → passesParts quoted ps → AllReadBack (floatsParts ps) →
    closesParts (.interpolation none ps) ∧ (walkParts ps).all closesParts
  | [], _, _, _ => ⟨rfl, rfl⟩
  | .text s :: ps, hw, hp, hr => by
    simp only [arePartsWritten, Bool.and_eq_true] at hw
    exact closesParts_of_passesParts ps hw.2 hp hr
  | .node n :: ps, hw, hp, hr => by
    simp only [arePartsWritten, Bool.and_eq_true] at hw
    obtain ⟨⟨part, hn⟩, hw⟩ := hw
    obtain ⟨hrn, hrs⟩ := allReadBack_append.mp hr
    simp only [closesParts, List.all_cons, walkParts, List.all_append, Bool.and_eq_true]
    cases n <;> try cases part
    case reference.refl span name default =>
      have rest : passesParts quoted ps := by
        cases default <;> simp_all [passesParts]
      obtain ⟨own, inner⟩ := closesParts_of_passesParts ps hw rest hrs
      exact ⟨⟨rfl, own⟩, rfl, inner⟩
    case substitution.refl span body =>
      simp only [passesParts, Bool.and_eq_true] at hp
      have closes := closesAll_of_passesAll body hn hp.1 hrn
      have spelled := spelledAll_of_areWritten body hn closes hrn
      obtain ⟨own, inner⟩ := closesParts_of_passesParts ps hw hp.2 hrs
      exact ⟨⟨isClosedInString_of_passes spelled hp.1, own⟩, closes, inner⟩

end

/-- The raw scan finds the ends of all substitutions in the strings of a script if it passes over
the defaults in them. -/
theorem isClosed_of_passes {t : Node} (h : t.isScript) (hp : t.passes false)
    (hr : AllReadBack t.floats) : t.isClosed := by
  cases t with
  | program span body => exact closesAll_of_passesAll body h hp hr
  | _ => cases h

end Node

end Sigil
