import Sigil.Proofs.Node.Entries

/-!
# Reading primary expressions that were written

Each expression that is no command and has no operator outside of parentheses
is read from the tokens that it is written with, given that the expressions in
it are. The inside of a substitution in a string is a text of its own, which
is cut into the tokens of its entries (`Stream.says_ofLexed`).
-/

namespace Sigil

/-- A text is read as the chunks that it was put together from. -/
theorem Stream.says_ofLexed {v : View} {ps : List Chunk} (hv : v.inside = textOf ps)
    (h : Legible v.beyond.head? ps) (openEnded : Bool) :
    (Stream.ofLexed v.tokens openEnded 0).Says ps := by
  obtain ⟨t, ts, ht, say, -⟩ := v.tokens_say ps hv h
  rw [ht]
  exact ⟨rfl, say⟩

namespace Parser

variable {s : Stream} {ps : List Chunk} {expression : Parser Node}

open Chunks

/-! ## Strings -/

theorem gives_stringParts {sps : List StringPart} {afterText : Bool} (parts : List Part)
    (h : Node.SpelledParts afterText parts)
    (he : ∀ span body, .node (.substitution span body) ∈ parts →
      ∀ n ∈ body, ReadsTree expression n n.chunks stops)
    (hsay : List.Forall₂ StringPart.Says sps (Node.fragments parts)) :
    Gives (sps.mapM (stringPart expression)) s fun qs t =>
      Node.eraseParts qs = Node.eraseParts parts ∧ t = s := by
  induction parts generalizing sps afterText with
  | nil =>
    cases hsay
    exact Gives.pure ⟨rfl, rfl⟩
  | cons part parts ih =>
    have later {sps : List StringPart} {afterText : Bool} (h : Node.SpelledParts afterText parts)
        (hsay : List.Forall₂ StringPart.Says sps (Node.fragments parts)) :=
      ih h (fun span body hb => he span body (List.mem_cons_of_mem _ hb)) hsay
    cases part with
    | text s =>
      cases hsay with
      | @cons sp _ sps _ said hsay =>
        cases sp <;> try exact said.elim
        cases said
        rw [List.mapM_cons]
        refine Gives.bind (Gives.pure (Gives.bind ?_))
        refine (later h.2 hsay).mono fun qs t ⟨hqs, ht⟩ => Gives.pure ⟨?_, ht⟩
        rw [Node.eraseParts, Node.eraseParts, hqs]
    | node n =>
      obtain ⟨⟨part, closed⟩, hn, h⟩ := h
      cases n <;> try cases part
      case reference.refl span name default =>
        cases hsay with
        | @cons sp _ sps _ said hsay =>
          cases sp <;> try exact said.elim
          obtain ⟨rfl, rfl⟩ := said
          rw [List.mapM_cons]
          refine Gives.bind (Gives.pure (Gives.bind ?_))
          refine (later h hsay).mono fun qs t ⟨hqs, ht⟩ => Gives.pure ⟨?_, ht⟩
          simp only [Node.eraseParts, Node.erase, hqs]
      case substitution.refl span body =>
        cases hsay with
        | @cons sp _ sps _ said hsay =>
          cases sp <;> try exact said.elim
          obtain ⟨inside, beyond⟩ := said
          have legible := Node.legible_entryChunks body hn (some ')') false rfl
          have program := gives_program hn (he span body List.mem_cons_self)
            (Stream.says_ofLexed inside (beyond ▸ legible) false)
          rw [List.mapM_cons]
          refine Gives.bind (Gives.bind (Gives.nested (program.mono fun r u hr => Gives.pure ?_)))
          refine Gives.bind ((later h hsay).mono fun qs t ⟨hqs, ht⟩ => Gives.pure ⟨?_, ht⟩)
          simp only [Node.eraseParts, Node.erase, hqs, Node.eraseAll_eq_map, hr]

theorem isSome_texts {sps : List StringPart} {afterText : Bool} (parts : List Part)
    (h : Node.SpelledParts afterText parts)
    (hsay : List.Forall₂ StringPart.Says sps (Node.fragments parts)) :
    (sps.all fun | .text _ => true | _ => false) = !parts.any (·.isNode) := by
  induction parts generalizing sps afterText with
  | nil =>
    cases hsay
    rfl
  | cons part parts ih =>
    cases part with
    | text s =>
      cases hsay with
      | @cons sp _ sps _ said hsay =>
        cases sp <;> try exact said.elim
        simpa [Part.isNode] using ih h.2 hsay
    | node n =>
      obtain ⟨⟨part, closed⟩, hn, h⟩ := h
      cases n <;> try cases part
      all_goals
        cases hsay with
        | @cons sp _ sps _ said hsay =>
          cases sp <;> first | exact said.elim | rfl

theorem reads_interpolation {span : Option Span} {parts : List Part}
    (h : (Node.interpolation span parts).Spelled)
    (he : ∀ span body, .node (.substitution span body) ∈ parts →
      ∀ n ∈ body, ReadsTree expression n n.chunks stops) :
    ReadsTree (primary expression) (.interpolation span parts)
      (Node.interpolation span parts).chunks fun _ => true := by
  intro spaced ps s _ hs
  refine Gives.bind (gives_first hs fun t ⟨sps, content, hsay⟩ => ?_)
  simp only [content]
  refine Gives.bind ((gives_advance hs).mono fun _ u ⟨_, hu, _⟩ => ?_)
  unfold string
  dsimp only
  have texts := isSome_texts parts h.2 hsay
  rw [h.1] at texts
  split
  · next hall =>
    refine absurd (List.all_eq_true.mpr fun sp hsp => ?_) (Bool.eq_false_iff.mp texts)
    rw [List.all_map] at hall
    have text := List.all_eq_true.mp hall sp hsp
    cases sp <;> first | rfl | cases text
  · refine Gives.bind ((gives_stringParts parts h.2 he hsay).mono fun qs t ⟨hqs, ht⟩ => ?_)
    refine Gives.pure ⟨?_, ht ▸ hu⟩
    rw [Node.erase, Node.erase, hqs]

theorem gives_text {span : Span} {sps : List StringPart} (text : String)
    (hsay : List.Forall₂ StringPart.Says sps (textFragments text)) :
    Gives (string expression span sps) s fun n t => n.erase = .literal none (.text text) ∧ t = s := by
  unfold textFragments at hsay
  split at hsay
  · next empty =>
    cases hsay
    exact Gives.pure ⟨by rw [empty]; rfl, rfl⟩
  · cases hsay with
    | @cons sp _ sps _ said hsay =>
      cases hsay
      cases sp <;> try exact said.elim
      cases said
      refine Gives.pure ⟨?_, rfl⟩
      simp [Node.erase]

/-! ## Values and references -/

theorem reads_literal {span : Option Span} {value : Datum} (h : value.Spelled) :
    ReadsTree (primary expression) (.literal span value) value.chunks fun _ => true := by
  intro spaced ps s _ hs
  cases value with
  | unit =>
    refine Gives.bind (gives_first hs fun t ⟨content, lexeme⟩ => ?_)
    simp only [content, if_pos lexeme]
    refine Gives.bind ((gives_delimiter hs).mono fun _ u hu => ?_)
    refine Gives.yes (gives_atDelimiter hu) rfl (Gives.bind ?_)
    refine (gives_advance hu).mono fun _ v ⟨_, hv, _⟩ => ?_
    exact Gives.bind (gives_spanFrom fun _ => Gives.pure ⟨rfl, hv⟩)
  | bool b =>
    refine Gives.bind (gives_first hs fun t ⟨content, lexeme⟩ => ?_)
    have truth : t.lexeme = "true" ∨ t.lexeme = "false" := by
      cases b
      · exact .inr lexeme
      · exact .inl lexeme
    simp only [content, if_pos truth]
    refine Gives.bind ((gives_advance hs).mono fun _ u ⟨_, hu, _⟩ => Gives.pure ⟨?_, hu⟩)
    rw [lexeme]
    cases b <;> rfl
  | number n =>
    cases n with
    | int n =>
      refine Gives.bind (gives_first hs fun t content => ?_)
      simp only [show t.content = .integer n.toNat from content]
      refine Gives.bind ((gives_advance hs).mono fun _ u ⟨_, hu, _⟩ => Gives.pure ⟨?_, hu⟩)
      rw [Int.toNat_of_nonneg h.1]
      rfl
    | float x =>
      refine Gives.bind (gives_first hs fun t content => ?_)
      simp only [show t.content = .float x from content]
      exact Gives.bind ((gives_advance hs).mono fun _ u ⟨_, hu, _⟩ => Gives.pure ⟨rfl, hu⟩)
  | text text =>
    refine Gives.bind (gives_first hs fun t ⟨sps, content, hsay⟩ => ?_)
    simp only [content]
    refine Gives.bind ((gives_advance hs).mono fun _ u ⟨_, hu, _⟩ => ?_)
    exact (gives_text text hsay).mono fun n v ⟨hn, hv⟩ => ⟨hn, hv ▸ hu⟩
  | run => exact h.elim

theorem reads_reference {span : Option Span} {name : String} {default : Option String} :
    ReadsTree (primary expression) (.reference span name default)
      (Node.reference span name default).chunks fun _ => true := by
  intro spaced ps s _ hs
  cases default with
  | none =>
    refine Gives.bind (gives_first hs fun t content => ?_)
    simp only [show t.content = .variable name from content]
    exact Gives.bind ((gives_advance hs).mono fun _ u ⟨_, hu, _⟩ => Gives.pure ⟨rfl, hu⟩)
  | some default =>
    refine Gives.bind (gives_first hs fun t content => ?_)
    simp only [show t.content = .defaulted name default from content]
    exact Gives.bind ((gives_advance hs).mono fun _ u ⟨_, hu, _⟩ => Gives.pure ⟨rfl, hu⟩)

/-! ## What stands in parentheses and braces -/

theorem reads_parenthesized {n : Node} (h : n.Spelled)
    (he : ReadsTree expression n n.chunks stops) :
    ReadsTree (parenthesized expression) n (parens false n.chunks) fun _ => true := by
  intro spaced ps s _ hs
  simp only [parens, Bool.false_eq_true, if_false, List.cons_append, List.append_assoc,
    List.nil_append] at hs
  refine Gives.bind ((gives_delimiter hs).mono fun _ t ht => ?_)
  have starts := (Node.starts_chunks h).next false (⟨false, .delimiter ")"⟩ :: ps)
  refine Gives.no (gives_atDelimiter ht)
    (not_isDelimiter_of_startsExpression starts (by decide)) (Gives.bind ?_)
  refine (he false _ t rfl ht).mono fun m u hm => Gives.bind ?_
  exact (gives_delimiter hm.2).mono fun _ v hv => Gives.pure ⟨hm.1, hv⟩

theorem reads_grouped {n : Node} (h : n.Spelled) (he : ReadsTree expression n n.chunks stops) :
    ReadsTree (primary expression) n (parens false n.chunks) fun _ => true := by
  intro spaced ps s stop hs
  refine Gives.bind (gives_first hs fun t ⟨content, lexeme⟩ => ?_)
  simp only [content, if_pos lexeme]
  exact reads_parenthesized h he spaced ps s stop hs

theorem reads_substitution {span : Option Span} {body : List Node} (h : Node.SpelledAll body)
    (he : ∀ n ∈ body, ReadsTree expression n n.chunks stops) :
    ReadsTree (primary expression) (.substitution span body)
      (Node.substitution span body).chunks fun _ => true := by
  intro spaced ps s _ hs
  simp only [Node.chunks, List.cons_append, List.append_assoc, List.nil_append] at hs
  refine Gives.bind (gives_first hs fun t ⟨content, lexeme⟩ => ?_)
  simp only [content, if_neg (show t.lexeme ≠ "(" by rw [lexeme]; decide), if_pos lexeme]
  refine Gives.bind ((gives_delimiter hs).mono fun _ u hu => Gives.bind ?_)
  refine (gives_entries (by decide) rfl h he hu).mono fun ns v ⟨hns, hv⟩ => Gives.bind ?_
  refine (gives_delimiter hv).mono fun _ w hw => Gives.bind (gives_spanFrom fun _ => ?_)
  exact Gives.pure ⟨by simp only [Node.erase, Node.eraseAll_eq_map, hns], hw⟩

/-- The tokens of a block. -/
def bracedChunks (body : List Node) : Chunks := fun spaced =>
  ⟨spaced, .delimiter "\x7b"⟩ :: (Node.entryChunks body true ++ [⟨true, .delimiter "\x7d"⟩])

theorem gives_block {body : List Node} (h : Node.SpelledAll body)
    (he : ∀ n ∈ body, ReadsTree expression n n.chunks stops) {spaced : Bool}
    (hs : s.Says (bracedChunks body spaced ++ ps)) :
    Gives (block expression) s fun r t => Node.eraseAll r.2 = Node.eraseAll body ∧ t.Says ps := by
  simp only [bracedChunks, List.cons_append, List.append_assoc, List.nil_append] at hs
  refine Gives.bind ((gives_delimiter hs).mono fun _ u hu => Gives.bind ?_)
  refine (gives_entries (by decide) rfl h he hu).mono fun ns v ⟨hns, hv⟩ => Gives.bind ?_
  refine (gives_delimiter hv).mono fun _ w hw => Gives.bind (gives_spanFrom fun _ => ?_)
  exact Gives.pure ⟨by simp only [Node.eraseAll_eq_map, hns], hw⟩

theorem reads_block {span : Option Span} {body : List Node} (h : Node.SpelledAll body)
    (he : ∀ n ∈ body, ReadsTree expression n n.chunks stops) :
    ReadsTree (primary expression) (.block span body) (Node.block span body).chunks
      fun _ => true := by
  intro spaced ps s _ hs
  refine Gives.bind (gives_first hs fun t ⟨content, lexeme⟩ => ?_)
  have one : t.lexeme ≠ "(" := by rw [lexeme]; decide
  have two : t.lexeme ≠ "$(" := by rw [lexeme]; decide
  simp only [content, if_neg one, if_neg two, if_pos lexeme]
  refine Gives.bind ((gives_block h he hs).mono fun r u ⟨hr, hu⟩ => Gives.pure ⟨?_, hu⟩)
  rw [Node.erase, Node.erase, hr]

/-! ## Keywords -/

/-- A reader of operands. -/
abbrev ReadsOperand (parser : Parser Node) (n : Node) : Prop :=
  ReadsTree parser n (parens n.standsAsOperand n.chunks) stopsOperand

theorem not_isElse_of_stops {t : Token} (h : stops t) : t.isKeyword "else" = false := by
  obtain ⟨content, lexeme, span⟩ := t
  cases content <;> first | rfl | cases h

theorem not_startsExpression_of_stops {t : Token} (h : stops t) : startsExpression t = false := by
  refine Bool.eq_false_iff.mpr fun starts => ?_
  have delimiter (d : String) := not_isDelimiter_of_startsExpression starts (d := d)
  simp only [stops, List.any_cons, List.any_nil, delimiter ")" (by decide),
    delimiter ";" (by decide), delimiter "\x7d" (by decide), delimiter "," (by decide),
    Bool.or_false, decide_eq_true_eq] at h
  obtain ⟨content, lexeme, span⟩ := t
  cases h
  cases starts

/-- The tokens of a conditional behind its first branch. -/
def elseChunks : Option Node → List Chunk
  | none => []
  | some n => ⟨true, .word "else"⟩ :: n.chunks true

theorem chunks_conditional (span : Option Span) (condition thenBranch : Node)
    (elseBranch : Option Node) (spaced : Bool) :
    (Node.conditional span condition thenBranch elseBranch).chunks spaced =
      ⟨spaced, .word "if"⟩ :: (parens condition.standsAsOperand condition.chunks true ++
        ⟨true, .word "then"⟩ :: (parens thenBranch.standsAsOperand thenBranch.chunks true ++
          elseChunks elseBranch)) := by
  cases elseBranch with
  | none => rw [Node.chunks, elseChunks, List.append_nil]
  | some n => rw [Node.chunks, elseChunks]

section

variable {span : Option Span} {condition thenBranch : Node}

theorem gives_elseBranch {elseBranch : Option Node}
    (helse : ∀ n ∈ elseBranch, ReadsTree expression n n.chunks stops) {start : Token} {c b : Node}
    (hc : c.erase = condition.erase) (hb : b.erase = thenBranch.erase)
    (stop : stops (nextToken ps)) (hs : s.Says (elseChunks elseBranch ++ ps)) :
    Gives (Parser.elseBranch expression start c b) s fun n t =>
      n.erase = (Node.conditional span condition thenBranch elseBranch).erase ∧ t.Says ps := by
  cases elseBranch with
  | none =>
    refine Gives.no (gives_atKeyword hs) (not_isElse_of_stops stop) (Gives.bind (Gives.pure ?_))
    exact Gives.bind (gives_spanFrom fun _ => Gives.pure ⟨by simp only [Node.erase, hc, hb], hs⟩)
  | some n =>
    refine Gives.yes (gives_atKeyword hs) rfl (Gives.bind ?_)
    refine (gives_advance hs).mono fun _ t ⟨_, ht, _⟩ => Gives.bind ?_
    refine (helse n rfl true ps t stop ht).mono fun e u ⟨he, hu⟩ => Gives.bind (Gives.pure ?_)
    exact Gives.bind (gives_spanFrom fun _ => Gives.pure ⟨by simp only [Node.erase, hc, hb, he], hu⟩)

variable (hcondition : ReadsOperand expression condition)
  (hthen : ReadsOperand expression thenBranch)
include hcondition hthen

theorem gives_conditional {elseBranch : Option Node}
    (helse : ∀ n ∈ elseBranch, ReadsTree expression n n.chunks stops) {spaced : Bool}
    (stop : stops (nextToken ps))
    (hs : s.Says ((Node.conditional span condition thenBranch elseBranch).chunks spaced ++ ps)) :
    Gives (conditional expression) s fun n t =>
      n.erase = (Node.conditional span condition thenBranch elseBranch).erase ∧ t.Says ps := by
  simp only [chunks_conditional, List.cons_append, List.append_assoc] at hs
  refine Gives.bind ((gives_keyword (by decide) hs).mono fun start t ht => Gives.bind ?_)
  refine (hcondition true _ t rfl ht).mono fun c u ⟨hc, hu⟩ => ?_
  refine Gives.yesFirst (gives_atKeyword hu) (gives_atDelimiter hu) rfl (Gives.bind ?_)
  refine (gives_advance hu).mono fun _ v ⟨_, hv, _⟩ => Gives.bind ?_
  have after : stopsOperand (nextToken (elseChunks elseBranch ++ ps)) := by
    cases elseBranch with
    | none => exact stopsOperand_of_stops stop
    | some n => rfl
  refine (hthen true _ v after hv).mono fun b w ⟨hb, hw⟩ => ?_
  exact gives_elseBranch helse hc hb stop hw

theorem reads_conditional {elseBranch : Option Node}
    (helse : ∀ n ∈ elseBranch, ReadsTree expression n n.chunks stops) :
    ReadsTree (primary expression) (.conditional span condition thenBranch elseBranch)
      (Node.conditional span condition thenBranch elseBranch).chunks stops := by
  intro spaced ps s stop hs
  have first := hs
  rw [chunks_conditional] at first
  refine Gives.bind (gives_first first fun t ⟨content, lexeme⟩ => ?_)
  simp only [content]
  rw [if_neg (by rw [lexeme]; decide), if_pos lexeme]
  exact gives_conditional hcondition hthen helse stop hs

end

/-! ## Functions -/

theorem forall₂_map {α β γ : Type} {R : β → γ → Prop} {f : α → β} {g : α → γ} {as : List α}
    (h : ∀ a ∈ as, R (f a) (g a)) : List.Forall₂ R (as.map f) (as.map g) := by
  rw [List.forall₂_map_left_iff, List.forall₂_map_right_iff, List.forall₂_same]
  exact h

theorem stopsName_of_stops {t : Token} (h : stops t) : stopsName t := by
  rw [stopsName, not_isOperator_of_stopsOperand (stopsOperand_of_stops h)]
  rfl

theorem reads_parameter {p : Param} (h : p.declared.all Ty.isWritten) :
    Reads parameter Param.erase p.erase p.chunks stops := by
  intro spaced ps s stop hs
  refine Gives.bind (gives_first hs fun t content => ?_)
  simp only [show t.content = .variable p.name from content]
  refine Gives.bind ((gives_advance hs).mono fun _ u ⟨_, hu, _⟩ => Gives.bind ?_)
  refine (gives_declaredType h (stopsName_of_stops stop) hu).mono fun d v ⟨hd, hv⟩ => ?_
  exact Gives.bind (gives_spanFrom fun _ => Gives.pure ⟨by rw [hd]; rfl, hv⟩)

section

variable {span bodySpan : Option Span} {name : Option String} {params : List Param}
  {returns : Option Ty} {body : List Node}

theorem gives_functionBody (h : Node.SpelledAll body)
    (he : ∀ n ∈ body, ReadsTree expression n n.chunks stops) {start : Token} {qs : List Param}
    (hqs : qs.map Param.erase = params.map Param.erase)
    (hs : s.Says (bracedChunks body true ++ ps)) :
    Gives (functionBody expression start name qs returns) s fun n t =>
      n.erase = (Node.function span name params returns bodySpan body).erase ∧ t.Says ps := by
  refine Gives.yes (gives_atDelimiter hs) rfl (Gives.bind ?_)
  refine (gives_block h he hs).mono fun b t ⟨hb, ht⟩ => Gives.bind (gives_spanFrom fun _ => ?_)
  exact Gives.pure ⟨by simp only [Node.erase, hqs, hb], ht⟩

theorem gives_functionFrom (h : (Node.function span name params returns bodySpan body).Spelled)
    (he : ∀ n ∈ body, ReadsTree expression n n.chunks stops) {start : Token}
    (hs : s.Says (⟨false, .delimiter "("⟩ :: (commas (params.map Param.chunks) ++
      ⟨false, .delimiter ")"⟩ :: (resultChunks returns ++ (bracedChunks body true ++ ps))))) :
    Gives (functionFrom expression start name) s fun n t =>
      n.erase = (Node.function span name params returns bodySpan body).erase ∧ t.Says ps := by
  obtain ⟨⟨-, hparams, hreturns⟩, hbody⟩ := h
  have items : List.Forall₂ (fun c f => Reads parameter Param.erase c f stops)
      (params.map Param.erase) (params.map Param.chunks) :=
    forall₂_map fun p hp => reads_parameter (Bool.and_eq_true _ _ ▸ List.all_eq_true.mp hparams p hp).2
  have starts : ∀ f ∈ params.map Param.chunks, f.Starts fun t => !t.isDelimiter ")" := by
    intro f hf
    obtain ⟨p, -, rfl⟩ := List.mem_map.mp hf
    exact fun spaced => ⟨_, _, rfl, rfl⟩
  refine Gives.bind ((gives_delimiter hs).mono fun _ t ht => ?_)
  refine gives_listed items starts ht fun qs u hqs hu => ?_
  refine Gives.bind ((gives_delimiter hu).mono fun _ v hv => ?_)
  cases returns with
  | none =>
    refine Gives.no (gives_atOperator hv) rfl (Gives.bind (Gives.pure ?_))
    exact gives_functionBody hbody he hqs hv
  | some ty =>
    refine Gives.yes (gives_atOperator hv) rfl (Gives.bind ?_)
    refine (gives_advance hv).mono fun _ w ⟨_, hw, _⟩ => Gives.bind ?_
    refine (reads_type ty hreturns true _ w rfl hw).mono fun r x ⟨hr, hx⟩ => ?_
    cases hr
    exact Gives.bind (Gives.pure (gives_functionBody hbody he hqs hx))

theorem gives_function (h : (Node.function span name params returns bodySpan body).Spelled)
    (he : ∀ n ∈ body, ReadsTree expression n n.chunks stops) {spaced : Bool}
    (hs : s.Says (headChunks name params returns spaced ++ (bracedChunks body true ++ ps))) :
    Gives (function expression) s fun n t =>
      n.erase = (Node.function span name params returns bodySpan body).erase ∧ t.Says ps := by
  rw [function_eq]
  simp only [headChunks, listed, List.cons_append, List.append_assoc, List.nil_append] at hs
  refine Gives.bind ((gives_keyword (by decide) hs).mono fun start t ht => ?_)
  refine Gives.bind (gives_tested Token.isPlainWord_plain ht fun u hu => ?_)
  cases name with
  | none =>
    rw [if_neg (Bool.eq_false_iff.mp hu)]
    exact Gives.bind (Gives.pure (gives_functionFrom h he ht))
  | some w =>
    rw [if_pos (hu.trans (isPlainWord_token h.1.1))]
    refine Gives.bind ((gives_advance ht).mono fun v x hv => ?_)
    obtain ⟨⟨-, lexeme⟩, hx, -⟩ := hv
    rw [show v.lexeme = w from lexeme]
    exact Gives.bind (Gives.pure (gives_functionFrom h he hx))

theorem reads_function (h : (Node.function span name params returns bodySpan body).Spelled)
    (he : ∀ n ∈ body, ReadsTree expression n n.chunks stops) :
    ReadsTree (primary expression) (.function span name params returns bodySpan body)
      (Node.function span name params returns bodySpan body).chunks fun _ => true := by
  intro spaced ps s _ hs
  replace hs : s.Says (headChunks name params returns spaced ++ (bracedChunks body true ++ ps)) := by
    rw [← List.append_assoc]
    exact hs
  refine Gives.bind (gives_first hs fun t ⟨content, lexeme⟩ => ?_)
  simp only [content]
  rw [if_neg (by rw [lexeme]; decide), if_neg (by rw [lexeme]; decide), if_pos lexeme]
  exact gives_function h he hs

end

/-! ## Returns and definitions -/

theorem reads_return {span : Option Span} {value : Option Node}
    (h : (Node.ret span value).Spelled)
    (he : ∀ n ∈ value, ReadsTree expression n n.chunks stops) :
    ReadsTree (primary expression) (.ret span value) (Node.ret span value).chunks stops := by
  intro spaced ps s stop hs
  have first : ∃ qs, s.Says (⟨spaced, .word "return"⟩ :: qs) := by
    cases value <;> exact ⟨_, hs⟩
  obtain ⟨qs, hqs⟩ := first
  refine Gives.bind (gives_first hqs fun t ⟨content, lexeme⟩ => ?_)
  simp only [content]
  rw [if_neg (by rw [lexeme]; decide), if_neg (by rw [lexeme]; decide),
    if_neg (by rw [lexeme]; decide), if_pos lexeme]
  cases value with
  | none =>
    refine Gives.bind ((gives_keyword (by decide) hs).mono fun _ u hu => ?_)
    refine Gives.bind (gives_tested Token.startsExpression_plain hu fun v hv => ?_)
    dsimp only
    rw [if_neg (Bool.eq_false_iff.mp (hv.trans (not_startsExpression_of_stops stop)))]
    exact Gives.bind (Gives.pure (Gives.bind (gives_spanFrom fun _ => Gives.pure ⟨rfl, hu⟩)))
  | some n =>
    have starts := (Node.starts_chunks (n := n) h).next true ps
    replace hs : s.Says (⟨spaced, .word "return"⟩ :: (n.chunks true ++ ps)) := hs
    refine Gives.bind ((gives_keyword (by decide) hs).mono fun _ u hu => ?_)
    refine Gives.bind (gives_tested Token.startsExpression_plain hu fun v hv => ?_)
    dsimp only
    rw [if_pos (hv.trans starts)]
    refine Gives.bind ((he n rfl true ps u stop hu).mono fun m w ⟨hm, hw⟩ => ?_)
    refine Gives.bind (Gives.pure (Gives.bind (gives_spanFrom fun _ => Gives.pure ⟨?_, hw⟩)))
    rw [Node.erase, Node.erase, hm]

theorem gives_define {span : Option Span} {name : String} {declared : Option Ty} {value : Node}
    (h : (Node.define span name declared value).Spelled)
    (he : ReadsTree expression value value.chunks stops) {spaced : Bool}
    (stop : stops (nextToken ps))
    (hs : s.Says ((Node.define span name declared value).chunks spaced ++ ps)) :
    Gives (define expression) s fun n t =>
      n.erase = (Node.define span name declared value).erase ∧ t.Says ps := by
  have written := (Bool.and_eq_true _ _ ▸ h.1).2
  simp only [Node.chunks, declaredChunks, List.cons_append, List.append_assoc] at hs
  refine Gives.bind ((gives_keyword (by decide) hs).mono fun _ t ht => ?_)
  refine Gives.bind (gives_first ht fun u content => ?_)
  simp only [show u.content = .variable name from content]
  refine Gives.bind ((gives_advance ht).mono fun _ v hv => Gives.bind ?_)
  refine (gives_declaredType written rfl hv.2.1).mono fun d w hd => Gives.bind ?_
  refine (gives_operator hd.2).mono fun _ x hx => Gives.bind ?_
  refine (he true ps x stop hx).mono fun m y hm => Gives.bind (gives_spanFrom fun _ => ?_)
  exact Gives.pure ⟨by simp only [Node.erase, hd.1, hm.1], hm.2⟩

end Parser

end Sigil
