import Sigil.Proofs.Node.Spelled

/-!
# The tokens of a written tree

The text of a tree, cut into tokens (`Node.chunks`): one equation for each way
of writing a node, with a flag that says whether a space comes first. The
chunks of a tree that is spelled have the text that the tree is written with
(`Node.writes_chunks`), and they are legible (`Node.legible_chunks`), whatever
follows them of what can follow an expression.
-/

namespace Sigil

/-- Tokens that may come after a space. -/
abbrev Chunks := Bool → List Chunk

namespace Chunks

/-- A single token. -/
def single (m : Mark) : Chunks := fun spaced => [⟨spaced, m⟩]

/-- Tokens, in parentheses unless they can stand alone. -/
def parens (alone : Bool) (f : Chunks) : Chunks := fun spaced =>
  if alone then f spaced else ⟨spaced, .delimiter "("⟩ :: (f false ++ [⟨false, .delimiter ")"⟩])

/-- Items with commas between them. -/
def commas : List Chunks → List Chunk
  | [] => []
  | f :: fs => f false ++ fs.flatMap fun g => ⟨false, .delimiter ","⟩ :: g true

/-- Items with spaces between them. -/
def spaces : List Chunks → Chunks
  | [], _ => []
  | f :: fs, spaced => f spaced ++ fs.flatMap (· true)

/-- Items in parentheses. -/
def listed (fs : List Chunks) : List Chunk :=
  ⟨false, .delimiter "("⟩ :: (commas fs ++ [⟨false, .delimiter ")"⟩])

end Chunks

open Chunks

mutual

/-- The tokens of a type. -/
def Ty.chunks : Ty → Chunks
  | .dynamic => single (.word "Any")
  | .unknown => single (.word "Unknown")
  | .primitive p => single (.word p.name)
  | .fn params returns => fun spaced =>
    ⟨spaced, .word "Fn"⟩ :: (listed (chunksAll params) ++
      ⟨true, .operator "->"⟩ :: chunks returns true)

@[inherit_doc Ty.chunks]
def Ty.chunksAll : List Ty → List Chunks
  | [] => []
  | t :: ts => chunks t :: chunksAll ts

end

/-- The tokens of the type that is declared for a name. -/
def annotationChunks : Option Ty → List Chunk
  | none => []
  | some t => ⟨false, .operator ":"⟩ :: t.chunks true

/-- The tokens of a name with a declared type. -/
def declaredChunks (name : String) (declared : Option Ty) : Chunks := fun spaced =>
  ⟨spaced, .variable name⟩ :: annotationChunks declared

/-- The tokens of a parameter. -/
def Param.chunks (p : Param) : Chunks :=
  declaredChunks p.name p.declared

/-- The tokens of the name of a function. -/
def nameChunks : Option String → List Chunk
  | none => []
  | some n => [⟨true, .word n⟩]

/-- The tokens of the type that a function declares for its results. -/
def resultChunks : Option Ty → List Chunk
  | none => []
  | some t => ⟨true, .operator "->"⟩ :: t.chunks true

/-- The tokens before the body of a function. -/
def headChunks (name : Option String) (params : List Param) (returns : Option Ty) : Chunks :=
  fun spaced => ⟨spaced, .word "fn"⟩ ::
    (nameChunks name ++ (listed (params.map Param.chunks) ++ resultChunks returns))

/-- The parts of a text as a string. -/
def textFragments (s : String) : List Fragment :=
  if s = "" then [] else [.text s]

/-- The tokens of a value. -/
def Datum.chunks : Datum → Chunks
  | unit => fun spaced => [⟨spaced, .delimiter "("⟩, ⟨false, .delimiter ")"⟩]
  | bool b => single (.word (if b then "true" else "false"))
  | int n => single (.integer n.toNat)
  | float x => single (.float x)
  | text s => single (.string (textFragments s))
  | run _ => fun _ => []

namespace Node

mutual

/-- The tokens of a tree. -/
def chunks : Node → Chunks
  | literal _ value => value.chunks
  | reference _ name none => single (.variable name)
  | reference _ name (some default) => single (.defaulted name default)
  | substitution _ body => fun spaced =>
    ⟨spaced, .delimiter "$("⟩ :: (entryChunks body false ++ [⟨false, .delimiter ")"⟩])
  | interpolation _ parts => single (.string (fragments parts))
  | command _ env name args =>
    spaces (bindingChunks env ++ single (.word name) :: argumentChunks args)
  | call _ callee args => fun spaced =>
    parens callee.standsAsCallee (chunks callee) spaced ++ listed (chunksAll args)
  | conditional _ condition thenBranch none => fun spaced =>
    ⟨spaced, .word "if"⟩ :: (parens condition.standsAsOperand (chunks condition) true ++
      ⟨true, .word "then"⟩ :: parens thenBranch.standsAsOperand (chunks thenBranch) true)
  | conditional _ condition thenBranch (some elseBranch) => fun spaced =>
    ⟨spaced, .word "if"⟩ :: (parens condition.standsAsOperand (chunks condition) true ++
      ⟨true, .word "then"⟩ :: (parens thenBranch.standsAsOperand (chunks thenBranch) true ++
        ⟨true, .word "else"⟩ :: chunks elseBranch true))
  | block _ body => fun spaced =>
    ⟨spaced, .delimiter "\x7b"⟩ :: (entryChunks body true ++ [⟨true, .delimiter "\x7d"⟩])
  | function _ name params returns _ body => fun spaced =>
    headChunks name params returns spaced ++
      ⟨true, .delimiter "\x7b"⟩ :: (entryChunks body true ++ [⟨true, .delimiter "\x7d"⟩])
  | binary _ op left right => fun spaced =>
    parens left.standsAsOperand (chunks left) spaced ++
      ⟨true, .operator op.symbol⟩ :: parens right.standsAsOperand (chunks right) true
  | unary _ op operand => fun spaced =>
    ⟨spaced, .operator op.symbol⟩ :: parens operand.standsAfterSign (chunks operand) false
  | ret _ none => single (.word "return")
  | ret _ (some value) => fun spaced => ⟨spaced, .word "return"⟩ :: chunks value true
  | define _ name declared value => fun spaced =>
    ⟨spaced, .word "let"⟩ :: (declaredChunks name declared true ++
      ⟨true, .operator "="⟩ :: chunks value true)
  | assign _ name value => fun spaced =>
    ⟨spaced, .variable name⟩ :: ⟨true, .operator "="⟩ :: chunks value true
  | binding _ | parameter _ | program .. | blank _ => fun _ => []

/-- The tokens of entries. -/
def entryChunks : List Node → Chunks
  | [], _ => []
  | [n], spaced => chunks n spaced
  | n :: m :: ns, spaced =>
    chunks n spaced ++ ⟨false, .delimiter ";"⟩ :: entryChunks (m :: ns) true

/-- The tokens of several trees. -/
def chunksAll : List Node → List Chunks
  | [] => []
  | n :: ns => chunks n :: chunksAll ns

/-- The tokens of the arguments of a command. -/
def argumentChunks : List Node → List Chunks
  | [] => []
  | n :: ns => parens n.standsAsArgument (chunks n) :: argumentChunks ns

/-- The tokens of the prefixes of a command. -/
def bindingChunks : List EnvBinding → List Chunks
  | [] => []
  | .mk _ name value :: bs => (fun spaced => ⟨spaced, .word name⟩ :: ⟨false, .operator "="⟩ ::
      parens value.standsAsArgument (chunks value) false) :: bindingChunks bs

/-- The parts of a string, the insides of substitutions as their texts. -/
def fragments : List Part → List Fragment
  | [] => []
  | .text s :: ps => .text s :: fragments ps
  | .node (reference _ name default) :: ps => .variable name default :: fragments ps
  | .node (substitution _ body) :: ps =>
    .substitution (textOf (entryChunks body false)) :: fragments ps
  | .node _ :: ps => fragments ps

end

end Node

/-! ## Texts -/

/-- Tokens with a given text. -/
def Chunks.Writes (f : Chunks) (cs : List Char) : Prop :=
  ∀ spaced, textOf (f spaced) = gap spaced ++ cs

namespace Chunks

@[simp] theorem gap_false : gap false = [] := rfl

@[simp] theorem gap_true : gap true = [' '] := rfl

theorem writes_single (m : Mark) : Writes (single m) m.source := by
  intro spaced
  simp [single]

theorem writes_parens {f : Chunks} {cs : List Char} (alone : Bool) (h : Writes f cs) :
    Writes (parens alone f) (grouped alone cs) := by
  intro spaced
  cases alone
  · simp [parens, grouped, h false, Mark.source]
  · simp [parens, grouped, h spaced]

theorem intercalate_cons (sep cs : List Char) (css : List (List Char)) :
    sep.intercalate (cs :: css) = cs ++ css.flatMap fun ds => sep ++ ds := by
  induction css generalizing cs with
  | nil => simp
  | cons ds css ih =>
    rw [List.intercalate_cons_cons, ih, List.flatMap_cons]
    simp only [List.append_assoc]

/-- The texts of items after the first one. -/
theorem textOf_more {fs : List Chunks} {css : List (List Char)} (h : List.Forall₂ Writes fs css)
    {more : Chunks → List Chunk} {sep : List Char}
    (hm : ∀ g, textOf (more g) = sep ++ textOf (g true)) :
    textOf (fs.flatMap more) = css.flatMap fun cs => sep ++ ' ' :: cs := by
  induction h with
  | nil => rfl
  | cons hf _ ih => simp [ih, hm, hf true]

theorem textOf_listed {fs : List Chunks} {css : List (List Char)}
    (h : List.Forall₂ Writes fs css) :
    textOf (listed fs) = '(' :: (commaSource css ++ [')']) := by
  have inside : textOf (commas fs) = commaSource css := by
    cases h with
    | nil => rfl
    | cons hf h =>
      have more := textOf_more h fun g => show textOf (⟨false, .delimiter ","⟩ :: g true) = [','] ++ _ by
        simp [Mark.source]
      simp only [commas, commaSource, intercalate_cons, textOf_append, more, hf false]
      rfl
  simp [listed, inside, Mark.source]

theorem writes_spaces {fs : List Chunks} {css : List (List Char)} (h : List.Forall₂ Writes fs css)
    (hne : fs ≠ []) : Writes (spaces fs) ([' '].intercalate css) := by
  cases h with
  | nil => contradiction
  | cons hf h =>
    intro spaced
    have more := textOf_more h fun g => show textOf (g true) = [] ++ _ from rfl
    simp only [spaces, intercalate_cons, textOf_append, more, hf spaced, List.append_assoc]
    rfl

end Chunks

mutual

theorem Ty.writes_chunks (t : Ty) : t.chunks.Writes t.text.toList := by
  cases t with
  | dynamic | unknown | primitive => exact writes_single _
  | fn params returns =>
    intro spaced
    have inside : textOf (listed (Ty.chunksAll params)) =
        '(' :: ((", ".intercalate (Ty.texts params)).toList ++ [')']) := by
      rw [textOf_listed (Ty.writes_chunksAll params), String.toList_intercalate]
      rfl
    have result := returns.writes_chunks true
    simp [Ty.chunks, Ty.text, inside, result, Mark.source]

theorem Ty.writes_chunksAll : ∀ ts : List Ty,
    List.Forall₂ Chunks.Writes (Ty.chunksAll ts) ((Ty.texts ts).map String.toList)
  | [] => .nil
  | t :: ts => .cons t.writes_chunks (Ty.writes_chunksAll ts)

end

theorem writes_declaredChunks (name : String) (declared : Option Ty) :
    (declaredChunks name declared).Writes (declaredSource name declared) := by
  intro spaced
  cases declared with
  | none =>
    simp [declaredChunks, annotationChunks, declaredSource, Mark.source, referenceSource]
  | some t =>
    simp [declaredChunks, annotationChunks, declaredSource, Mark.source, referenceSource,
      t.writes_chunks true]

theorem textOf_headChunks (name : Option String) (params : List Param) (returns : Option Ty)
    (spaced : Bool) :
    textOf (headChunks name params returns spaced) ++ [' '] =
      gap spaced ++ headSource name params returns := by
  have inside : textOf (listed (params.map Param.chunks)) =
      '(' :: (commaSource (params.map Param.source) ++ [')']) := by
    refine textOf_listed ?_
    induction params with
    | nil => exact .nil
    | cons p params ih => exact .cons (writes_declaredChunks p.name p.declared) ih
  delta headSource
  cases name <;> cases returns with
  | none => simp [headChunks, nameChunks, resultChunks, inside, Mark.source]
  | some t =>
    simp [headChunks, nameChunks, resultChunks, inside, Mark.source, t.writes_chunks true]

theorem source_textFragments (s : String) :
    (Mark.string (textFragments s)).source = quoteText s := by
  unfold textFragments
  split
  · next h =>
    subst h
    rfl
  · simp [Mark.source, Fragment.source, quoteText]

theorem Datum.writes_chunks {value : Datum} (h : value.Spelled) :
    ∃ cs, value.source = .ok cs ∧ value.chunks.Writes cs := by
  cases value with
  | unit => exact ⟨_, rfl, fun spaced => by simp [Datum.chunks, Mark.source]⟩
  | bool b =>
    refine ⟨_, rfl, ?_⟩
    cases b <;> exact writes_single _
  | number n =>
    cases n with
    | int n =>
      obtain ⟨positive, writable⟩ := h
      refine ⟨_, by rw [Datum.source, if_pos writable], ?_⟩
      have text : (Number.intText n).toList = Nat.toDigits 10 n.toNat := by
        have sign : ¬ n < 0 := by omega
        have size : n.natAbs = n.toNat := by omega
        simp [Number.intText, sign, size]
      rw [text]
      exact writes_single _
    | float x => exact ⟨_, rfl, writes_single _⟩
  | text s => exact ⟨_, rfl, source_textFragments s ▸ writes_single _⟩
  | run => exact h.elim

namespace Node

/-- Entries have a text unless there are none. -/
theorem textOf_entryChunks {body : List Node} {cs : List Char}
    (h : ∀ spaced, textOf (entryChunks body spaced) = if body.isEmpty then [] else gap spaced ++ cs)
    (hs : sourceEntries body = .ok cs) : textOf (entryChunks body false) = cs := by
  cases body with
  | nil => cases hs; rfl
  | cons n ns => simpa using h false

theorem textOf_braced {body : List Node} {cs : List Char}
    (h : ∀ spaced, textOf (entryChunks body spaced) = if body.isEmpty then [] else gap spaced ++ cs)
    (spaced : Bool) :
    textOf (⟨spaced, .delimiter "\x7b"⟩ ::
      (entryChunks body true ++ [⟨true, .delimiter "\x7d"⟩])) =
      gap spaced ++ blockSource cs body.isEmpty := by
  cases empty : body.isEmpty <;> simp [h, empty, blockSource, Mark.source]

mutual

/-- A tree has the text of its tokens. -/
theorem writes_chunks (n : Node) (h : n.Spelled) :
    ∃ cs, n.source = .ok cs ∧ n.chunks.Writes cs := by
  cases n with
  | literal span value => exact Datum.writes_chunks h
  | reference span name default => cases default <;> exact ⟨_, rfl, writes_single _⟩
  | substitution span body =>
    obtain ⟨cs, hs, hw⟩ := writes_entryChunks body h
    refine ⟨"$(".toList ++ cs ++ [')'], by simp [source, hs], fun spaced => ?_⟩
    simp [chunks, textOf_entryChunks hw hs, Mark.source]
  | interpolation span parts =>
    refine ⟨'"' :: ((fragments parts).flatMap Fragment.source ++ ['"']), ?_, writes_single _⟩
    simp [source, sourceParts_fragments parts h.2]
  | command span env name args =>
    obtain ⟨es, hes, hew⟩ := writes_bindingChunks env h.2.1
    obtain ⟨as, has, haw⟩ := writes_argumentChunks args h.2.2
    refine ⟨[' '].intercalate (es ++ name.toList :: as), by simp [source, hes, has], ?_⟩
    refine writes_spaces ?_ (by simp)
    exact List.rel_append hew (.cons (writes_single (.word name)) haw)
  | call span callee args =>
    obtain ⟨cs, hs, hw⟩ := writes_chunks callee h.1
    obtain ⟨css, hss, hws⟩ := writes_chunksAll args h.2
    refine ⟨grouped callee.standsAsCallee cs ++ '(' :: (commaSource css ++ [')']),
      by simp [source, hs, hss], fun spaced => ?_⟩
    simp [chunks, writes_parens _ hw spaced, textOf_listed hws]
  | conditional span condition thenBranch elseBranch =>
    cases elseBranch with
    | none =>
      obtain ⟨cs, hs, hw⟩ := writes_chunks condition h.1
      obtain ⟨ds, hds, hdw⟩ := writes_chunks thenBranch h.2
      refine ⟨"if ".toList ++ grouped condition.standsAsOperand cs ++ " then ".toList ++
        grouped thenBranch.standsAsOperand ds, by simp [source, hs, hds], fun spaced => ?_⟩
      simp [chunks, writes_parens _ hw true, writes_parens _ hdw true, Mark.source]
    | some n =>
      obtain ⟨cs, hs, hw⟩ := writes_chunks condition h.1
      obtain ⟨ds, hds, hdw⟩ := writes_chunks thenBranch h.2.1
      obtain ⟨es, hes, hew⟩ := writes_chunks n h.2.2
      refine ⟨"if ".toList ++ grouped condition.standsAsOperand cs ++ " then ".toList ++
        grouped thenBranch.standsAsOperand ds ++ " else ".toList ++ es,
        by simp [source, hs, hds, hes], fun spaced => ?_⟩
      simp [chunks, writes_parens _ hw true, writes_parens _ hdw true, hew true, Mark.source]
  | block span body =>
    obtain ⟨cs, hs, hw⟩ := writes_entryChunks body h
    exact ⟨blockSource cs body.isEmpty, by simp [source, hs], textOf_braced hw⟩
  | function span name params returns bodySpan body =>
    obtain ⟨cs, hs, hw⟩ := writes_entryChunks body h.2
    refine ⟨headSource name params returns ++ blockSource cs body.isEmpty,
      by simp [source, hs], fun spaced => ?_⟩
    have body_text := textOf_braced hw true
    rw [gap_true, List.singleton_append] at body_text
    rw [chunks, textOf_append, body_text, ← List.append_assoc, ← textOf_headChunks,
      List.append_assoc, List.singleton_append]
  | binary span op left right =>
    obtain ⟨cs, hs, hw⟩ := writes_chunks left h.2.1
    obtain ⟨ds, hds, hdw⟩ := writes_chunks right h.2.2
    refine ⟨grouped left.standsAsOperand cs ++ ' ' :: (op.symbol.toList ++ ' ' ::
      grouped right.standsAsOperand ds), by simp [source, hs, hds], fun spaced => ?_⟩
    simp [chunks, writes_parens _ hw spaced, writes_parens _ hdw true, Mark.source]
  | unary span op operand =>
    obtain ⟨cs, hs, hw⟩ := writes_chunks operand h.2
    refine ⟨op.symbol.toList ++ grouped operand.standsAfterSign cs, by simp [source, hs],
      fun spaced => ?_⟩
    simp [chunks, writes_parens _ hw false, Mark.source]
  | ret span value =>
    cases value with
    | none => exact ⟨_, rfl, writes_single (.word "return")⟩
    | some n =>
      obtain ⟨cs, hs, hw⟩ := writes_chunks n h
      refine ⟨"return ".toList ++ cs, by simp [source, hs], fun spaced => ?_⟩
      simp [chunks, hw true, Mark.source]
  | define span name declared value =>
    obtain ⟨cs, hs, hw⟩ := writes_chunks value h.2
    refine ⟨"let ".toList ++ declaredSource name declared ++ " = ".toList ++ cs,
      by simp [source, hs], fun spaced => ?_⟩
    simp [chunks, writes_declaredChunks name declared true, hw true, Mark.source]
  | assign span name value =>
    obtain ⟨cs, hs, hw⟩ := writes_chunks value h.2
    refine ⟨'$' :: (name.toList ++ " = ".toList ++ cs), by simp [source, hs], fun spaced => ?_⟩
    simp [chunks, hw true, Mark.source, referenceSource]
  | binding | parameter | program | blank => exact h.elim

theorem writes_entryChunks : ∀ (ns : List Node), SpelledAll ns →
    ∃ cs, sourceEntries ns = .ok cs ∧
      ∀ spaced, textOf (entryChunks ns spaced) = if ns.isEmpty then [] else gap spaced ++ cs
  | [], _ => ⟨[], rfl, fun _ => rfl⟩
  | [n], h => by
    obtain ⟨cs, hs, hw⟩ := writes_chunks n h.1
    exact ⟨cs, hs, hw⟩
  | n :: m :: ns, h => by
    obtain ⟨cs, hs, hw⟩ := writes_chunks n h.1
    obtain ⟨ds, hds, hdw⟩ := writes_entryChunks (m :: ns) h.2
    refine ⟨cs ++ ';' :: ' ' :: ds, by simp [sourceEntries, hs, hds], fun spaced => ?_⟩
    simp [entryChunks, hw spaced, hdw true, Mark.source]

theorem writes_chunksAll : ∀ (ns : List Node), SpelledAll ns →
    ∃ css, sourceAll ns = .ok css ∧ List.Forall₂ Chunks.Writes (chunksAll ns) css
  | [], _ => ⟨[], rfl, .nil⟩
  | n :: ns, h => by
    obtain ⟨cs, hs, hw⟩ := writes_chunks n h.1
    obtain ⟨css, hss, hws⟩ := writes_chunksAll ns h.2
    exact ⟨cs :: css, by simp [sourceAll, hs, hss], .cons hw hws⟩

theorem writes_argumentChunks : ∀ (ns : List Node), SpelledAll ns →
    ∃ css, sourceArguments ns = .ok css ∧ List.Forall₂ Chunks.Writes (argumentChunks ns) css
  | [], _ => ⟨[], rfl, .nil⟩
  | n :: ns, h => by
    obtain ⟨cs, hs, hw⟩ := writes_chunks n h.1
    obtain ⟨css, hss, hws⟩ := writes_argumentChunks ns h.2
    exact ⟨grouped n.standsAsArgument cs :: css, by simp [sourceArguments, hs, hss],
      .cons (writes_parens _ hw) hws⟩

theorem writes_bindingChunks : ∀ (bs : List EnvBinding), SpelledBindings bs →
    ∃ css, sourceBindings bs = .ok css ∧ List.Forall₂ Chunks.Writes (bindingChunks bs) css
  | [], _ => ⟨[], rfl, .nil⟩
  | .mk span name value :: bs, h => by
    obtain ⟨cs, hs, hw⟩ := writes_chunks value h.2.1
    obtain ⟨css, hss, hws⟩ := writes_bindingChunks bs h.2.2
    refine ⟨(name.toList ++ '=' :: grouped value.standsAsArgument cs) :: css,
      by simp [sourceBindings, hs, hss], .cons (fun spaced => ?_) hws⟩
    simp [writes_parens _ hw false, Mark.source]

theorem sourceParts_fragments : ∀ {afterText : Bool} (ps : List Part),
    SpelledParts afterText ps → sourceParts ps = .ok ((fragments ps).flatMap Fragment.source)
  | _, [], _ => rfl
  | _, .text s :: ps, h => by
    simp [sourceParts, sourceParts_fragments ps h.2, fragments, Fragment.source]
  | _, .node n :: ps, h => by
    obtain ⟨⟨part, -⟩, hn, h⟩ := h
    have rest := sourceParts_fragments ps h
    cases n <;> try cases part
    case reference.refl span name default =>
      simp [sourceParts, rest, fragments, Fragment.source]
    case substitution.refl span body =>
      obtain ⟨cs, hs, hw⟩ := writes_entryChunks body hn
      simp [sourceParts, rest, fragments, Fragment.source, hs, textOf_entryChunks hw hs]

end

end Node

end Sigil
