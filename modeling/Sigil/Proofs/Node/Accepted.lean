import Sigil.Proofs.Node.Reading

/-!
# Trees that are read

Reading a script never gives up, however deep its constructs nest, and a tree
that is read is one that scripts can say (`parseProgram_cases`,
`parseEntries_cases`). The pieces of the grammar are taken one by one, given
what is known of the reader of the expressions within them: it works on
everything that nests less deep, which is what is left once a token was read.
-/

namespace Sigil.Parser

variable {s : Stream}

attribute [local simp] Node.isWritten

/-! ## Types -/

theorem isWritten_ofName? {name : String} {t : Ty} (h : Ty.ofName? name = some t) :
    t.isWritten := by
  unfold Ty.ofName? at h
  split at h
  · cases h
    rfl
  · obtain ⟨p, -, rfl⟩ := Option.map_eq_some_iff.mp h
    rfl

theorem typeWith_wp {type : Parser Ty}
    (h : ∀ t, s.Reads 1 t → WP type t fun ty u => t.Reads 1 u ∧ ty.isWritten) :
    WP (typeWith type) s fun ty t => s.Reads 1 t ∧ ty.isWritten := by
  refine WP.bind (next_wp fun t ht => ?_)
  split
  · exact unexpected_wp
  next hw =>
  have content : t.content ≠ .endOfInput := by
    rw [ne_eq, Decidable.not_not] at hw
    simp [hw]
  refine WP.bind (WP.mono (taken_wp ht content) fun _ u ⟨_, hu⟩ => ?_)
  split_ifs
  · refine WP.bind (WP.mono delimiter_wp fun _ v hv => ?_)
    replace hv := hu.then hv.any
    refine listed_wp (fun w hw => h w (hv.then hw)) fun ts w hw hts => ?_
    refine WP.bind (WP.mono delimiter_wp fun _ x hx => ?_)
    refine WP.bind (WP.mono operator_wp fun _ y hy => ?_)
    have hy := hv.then (hw.trans (hx.any.trans hy.any))
    refine WP.bind (WP.mono (h y hy) fun r z hz => WP.pure ⟨hy.then hz.1.any, ?_⟩)
    rw [Ty.isWritten, Bool.and_eq_true]
    exact ⟨Ty.areWritten_iff.mpr hts, hz.2⟩
  · split
    · exact WP.pure ⟨hu, isWritten_ofName? ‹_›⟩
    · exact WP.throw nofun

theorem typeUpTo_wp (depth : Nat) : ∀ s : Stream, s.ahead.length < depth →
    WP (typeUpTo depth) s fun ty t => s.Reads 1 t ∧ ty.isWritten := by
  induction depth with
  | zero => exact fun _ h => absurd h (Nat.not_lt_zero _)
  | succ depth ih =>
    refine fun s hs => typeWith_wp fun t ht => ih t ?_
    have := ht.length
    omega

theorem type_wp : WP type s fun ty t => s.Reads 1 t ∧ ty.isWritten :=
  WP.bind (WP.get (typeUpTo_wp _ s (Nat.lt_succ_self _)))

theorem declaredType_wp :
    WP declaredType s fun declared t => s.Reads 0 t ∧ declared.all Ty.isWritten := by
  refine WP.bind (atOperator_wp fun t ht => ?_)
  split_ifs with h
  · refine WP.bind (WP.mono (taken_wp ht (Token.isOperator_content h)) fun _ u hu => ?_)
    refine WP.bind (WP.mono type_wp fun ty v hv => WP.pure ?_)
    exact ⟨hu.2.any.trans hv.1.any, hv.2⟩
  · exact WP.pure ⟨.refl s, rfl⟩

/-! ## Entries -/

/-- Expressions can be read from a stream, and from what is left of it later. -/
def Able (expression : Parser Node) (s : Stream) : Prop :=
  ∀ t, s.Reads 0 t → WP expression t fun n u => t.Reads 1 u ∧ n.isWritten

theorem Able.later {expression : Parser Node} {n : Nat} {t : Stream} (h : Able expression s)
    (ht : s.Reads n t) : Able expression t :=
  fun u hu => h u (ht.any.trans hu)

theorem atClosing_wp {closing : Option String} : WP (atClosing closing) s fun _ t => t = s := by
  cases closing with
  | none => exact WP.bind (peek_wp fun _ _ => WP.pure rfl)
  | some d => exact atDelimiter_wp fun _ _ => rfl

theorem skipSemicolons_wp : WP skipSemicolons s fun _ t => s.Reads 0 t := by
  refine WP.bind (WP.mono (many_wp (P := fun _ => True) fun t _ => ?_) fun _ _ h => WP.pure h.1)
  refine WP.bind (atDelimiter_wp fun c hc => ?_)
  split_ifs with hd
  · exact WP.bind (WP.mono (taken_wp hc (Token.isDelimiter_content hd)) fun _ _ h =>
      WP.pure ⟨h.2, trivial⟩)
  · exact WP.pure (Stream.Reads.refl t)

theorem endEntry_wp {closing : Option String} :
    WP (endEntry closing) s fun _ t => s.Reads 0 t := by
  refine WP.bind (atDelimiter_wp fun c hc => ?_)
  split_ifs with hd
  · exact WP.bind (WP.mono (taken_wp hc (Token.isDelimiter_content hd)) fun _ _ h =>
      WP.pure h.2.any)
  · refine WP.bind (WP.mono atClosing_wp fun b t ht => ?_)
    subst ht
    split_ifs
    · exact WP.pure (.refl t)
    · refine WP.bind (WP.get ?_)
      split_ifs
      · exact WP.pure (.refl t)
      · exact unexpected_wp

section

variable {expression : Parser Node}

theorem entry_wp {closing : Option String} (he : Able expression s) :
    WP (entry expression closing) s (Stepped (s.Reads 0) (fun n _ => n.isWritten) s) := by
  refine WP.bind (WP.mono skipSemicolons_wp fun _ t ht => ?_)
  refine WP.bind (WP.mono atClosing_wp fun b u hu => ?_)
  subst hu
  split_ifs
  · exact WP.pure ht
  · refine WP.bind (WP.mono (he u ht) fun n v hv => ?_)
    refine WP.bind (WP.mono endEntry_wp fun _ w hw => WP.pure ?_)
    exact ⟨ht.thenSome (hv.1.then hw), hv.2⟩

theorem entries_wp (closing : Option String) (he : Able expression s) :
    WP (entries expression closing) s fun ns t => s.Reads 0 t ∧ Node.areWritten ns :=
  WP.mono (many_wp fun _ ht => entry_wp (he.later ht)) fun _ _ h =>
    ⟨h.1, Node.areWritten_iff.mpr h.2⟩

theorem program_wp (he : Able expression s) :
    WP (program expression) s fun r _ => Node.areWritten r.2 := by
  refine WP.bind (peek_wp fun t _ => WP.bind (WP.mono (entries_wp none he) fun ns u hu => ?_))
  exact WP.bind (spanFrom_wp fun _ => WP.pure hu.2)

end

/-! ## Primary expressions -/

/-- Expressions can be read from everything that nests less than `k` deep. -/
def AbleBelow (k : Nat) (expression : Parser Node) : Prop :=
  ∀ j < k, ∀ s : Stream, s.Within j → Able expression s

section

variable {k : Nat} {expression : Parser Node} (he : AbleBelow k expression) (hs : s.Within k)
include he hs

theorem AbleBelow.after {t : Stream} (ht : s.Reads 1 t) : Able expression t :=
  have h := ht.within hs
  he (k - 1) (by omega) t h.2

omit hs in
theorem stringParts_wp {parts : List StringPart} (afterText : Bool)
    (hp : StringPart.Proper afterText parts)
    (hn : ∃ j < k, ∀ view span, .substitution view span ∈ parts →
      Token.Within j view.tokens.tokens) :
    WP (parts.mapM (stringPart expression)) s fun ps t =>
      t = s ∧ Node.arePartsWritten afterText ps ∧
        ps.any (·.isNode) = !parts.all fun | .text _ => true | _ => false := by
  obtain ⟨j, hj, hn⟩ := hn
  induction parts generalizing afterText with
  | nil => exact WP.pure ⟨rfl, rfl, rfl⟩
  | cons p parts ih =>
    have later := fun b h => ih b h fun view span hm => hn view span (List.mem_cons_of_mem _ hm)
    rw [List.mapM_cons]
    cases p with
    | text s =>
      obtain ⟨rfl, hs, hp⟩ := hp
      refine WP.bind (WP.pure (WP.bind (WP.mono (later true hp) fun ps t h => WP.pure ?_)))
      exact ⟨h.1, by simp [Node.arePartsWritten, hs, h.2.1], by simpa [Part.isNode] using h.2.2⟩
    | «variable» name default span =>
      refine WP.bind (WP.pure (WP.bind (WP.mono (later false hp.2) fun ps t h => WP.pure ?_)))
      exact ⟨h.1, by simp [Node.arePartsWritten, Node.isPart, hp.1, h.2.1], rfl⟩
    | substitution view span =>
      have inside := program_wp (he j hj (.ofLexed view.tokens false 0)
        (hn view span List.mem_cons_self))
      refine WP.bind (WP.bind (WP.nested (WP.mono inside fun r t hr => WP.pure ?_)))
      refine WP.bind (WP.mono (later false hp) fun ps t h => WP.pure ?_)
      exact ⟨h.1, by simp [Node.arePartsWritten, Node.isPart, hr, h.2.1], rfl⟩

omit hs in
theorem string_wp {span : Span} {parts : List StringPart} (proper : StringPart.Proper false parts)
    (nested : ∃ j < k, ∀ view span, .substitution view span ∈ parts →
      Token.Within j view.tokens.tokens) :
    WP (string expression span parts) s fun n t => t = s ∧ n.isWritten := by
  unfold string
  dsimp only
  split
  · exact WP.pure ⟨rfl, rfl⟩
  · next h =>
    refine WP.bind (WP.mono (stringParts_wp he false proper nested) fun ps r hr => WP.pure ?_)
    refine ⟨hr.1, ?_⟩
    rw [Node.isWritten, hr.2.1, hr.2.2, Bool.and_true, Bool.not_eq_true']
    refine Bool.eq_false_iff.mpr fun hall => h ?_
    rw [List.all_map]
    refine List.all_eq_true.mpr fun p hm => ?_
    have := List.all_eq_true.mp hall p hm
    cases p <;> simp_all

theorem substitution_wp :
    WP (substitution expression) s fun n t => s.Reads 1 t ∧ n.isWritten := by
  refine WP.bind (WP.mono delimiter_wp fun _ t ht => ?_)
  refine WP.bind (WP.mono (entries_wp _ (he.after hs ht)) fun ns u hu => ?_)
  refine WP.bind (WP.mono delimiter_wp fun _ v hv => ?_)
  refine WP.bind (spanFrom_wp fun _ => WP.pure ⟨ht.then (hu.1.trans hv.any), hu.2⟩)

theorem parenthesized_wp :
    WP (parenthesized expression) s fun n t => s.Reads 1 t ∧ n.isWritten := by
  refine WP.bind (WP.mono delimiter_wp fun _ t ht => ?_)
  refine WP.bind (atDelimiter_wp fun c hc => ?_)
  split_ifs with hd
  · refine WP.bind (WP.mono (taken_wp hc (Token.isDelimiter_content hd)) fun _ u hu => ?_)
    exact WP.bind (spanFrom_wp fun _ => WP.pure ⟨ht.then hu.2.any, rfl⟩)
  · refine WP.bind (WP.mono (he.after hs ht t (.refl t)) fun n u hu => ?_)
    refine WP.bind (WP.mono delimiter_wp fun _ v hv => WP.pure ?_)
    exact ⟨ht.then (hu.1.any.trans hv.any), hu.2⟩

theorem block_wp :
    WP (block expression) s fun r t => s.Reads 1 t ∧ Node.areWritten r.2 := by
  refine WP.bind (WP.mono delimiter_wp fun _ t ht => ?_)
  refine WP.bind (WP.mono (entries_wp _ (he.after hs ht)) fun ns u hu => ?_)
  refine WP.bind (WP.mono delimiter_wp fun _ v hv => ?_)
  refine WP.bind (spanFrom_wp fun _ => WP.pure ⟨ht.then (hu.1.trans hv.any), hu.2⟩)

theorem blockNode_wp :
    WP (blockNode expression) s fun n t => s.Reads 1 t ∧ n.isWritten :=
  WP.bind (WP.mono (block_wp he hs) fun _ _ h => WP.pure h)

theorem elseBranch_wp {start : Token} {condition thenBranch : Node} {t : Stream}
    (ht : s.Reads 1 t) (hc : condition.isWritten) (hn : thenBranch.isWritten) :
    WP (elseBranch expression start condition thenBranch) t fun n u =>
      s.Reads 1 u ∧ n.isWritten := by
  refine WP.bind (atKeyword_wp fun w hw => ?_)
  split_ifs with hk
  · refine WP.bind (WP.mono (taken_wp hw (Token.isKeyword_content hk)) fun _ u hu => ?_)
    refine WP.bind (WP.mono (he.after hs ht u hu.2.any) fun e v hv => ?_)
    refine WP.bind (WP.pure (WP.bind (spanFrom_wp fun _ => WP.pure ?_)))
    exact ⟨ht.then (hu.2.any.trans hv.1.any), by simp [hc, hn, hv.2]⟩
  · refine WP.bind (WP.pure (WP.bind (spanFrom_wp fun _ => WP.pure ?_)))
    exact ⟨ht, by simp [hc, hn]⟩

theorem conditional_wp :
    WP (conditional expression) s fun n t => s.Reads 1 t ∧ n.isWritten := by
  refine WP.bind (WP.mono keyword_wp fun start t ht => ?_)
  have able := he.after hs ht
  refine WP.bind (WP.mono (able t (.refl t)) fun c u ⟨hu, hc⟩ => ?_)
  refine WP.bind (atKeyword_wp fun w hw => WP.bind (atDelimiter_wp fun d hd => ?_))
  split_ifs with hk
  · refine WP.bind (WP.mono (taken_wp hw (Token.isKeyword_content hk)) fun _ v hv => ?_)
    have hv := hu.any.trans hv.2.any
    refine WP.bind (WP.mono (able v hv) fun n x hx => ?_)
    exact elseBranch_wp he hs (ht.then (hv.trans hx.1.any)) hc hx.2
  · have hu := hu.any
    refine WP.bind (WP.mono (blockNode_wp he (hs.later (ht.then hu))) fun n x hx => ?_)
    exact elseBranch_wp he hs (ht.then (hu.trans hx.1.any)) hc hx.2
  · exact WP.bind unexpected_wp

omit he in
theorem parameter_wp :
    WP parameter s fun p t => s.Reads 1 t ∧ Ty.isDeclaration p.name p.declared := by
  refine WP.bind (next_wp fun t ht => ?_)
  split
  · next name hn =>
    refine WP.bind (WP.mono (taken_wp ht (by simp [hn])) fun _ u hu => ?_)
    refine WP.bind (WP.mono declaredType_wp fun d v hv => WP.bind (spanFrom_wp fun _ => ?_))
    exact WP.pure ⟨hu.2.then hv.1, by simp [Ty.isDeclaration, ht.isName hn hs, hv.2]⟩
  · exact unexpected_wp

section

variable {start : Token} {name : Option String} {t : Stream} (ht : s.Reads 1 t)
  (hn : name.all Lexer.isPlainWord)
include ht hn

theorem functionBody_wp {params : List Param} {returns : Option Ty}
    (hp : ∀ p ∈ params, Ty.isDeclaration p.name p.declared) (hr : returns.all Ty.isWritten) :
    WP (functionBody expression start name params returns) t fun n u =>
      s.Reads 1 u ∧ n.isWritten := by
  refine WP.bind (atDelimiter_wp fun d hd => ?_)
  split_ifs
  · refine WP.bind (WP.mono (block_wp he (hs.later ht)) fun b u hu => ?_)
    refine WP.bind (spanFrom_wp fun _ => WP.pure ⟨ht.then hu.1.any, ?_⟩)
    simp only [Node.isWritten, hn, hr, hu.2, Bool.and_true, Bool.true_and]
    exact List.all_eq_true.mpr hp
  · exact unexpected_wp

theorem functionFrom_wp :
    WP (functionFrom expression start name) t fun n u => s.Reads 1 u ∧ n.isWritten := by
  refine WP.bind (WP.mono delimiter_wp fun _ u hu => ?_)
  replace hu := ht.then hu.any
  refine listed_wp (fun v hv => parameter_wp (hs.later (hu.then hv))) fun ps v hv hps => ?_
  refine WP.bind (WP.mono delimiter_wp fun _ w hw => ?_)
  replace hw := hu.then (hv.trans hw.any)
  refine WP.bind (atOperator_wp fun o ho => ?_)
  split_ifs with hop
  · refine WP.bind (WP.mono (taken_wp ho (Token.isOperator_content hop)) fun _ x hx => ?_)
    refine WP.bind (WP.mono type_wp fun ty y hy => WP.bind (WP.pure ?_))
    exact functionBody_wp he hs (hw.then (hx.2.any.trans hy.1.any)) hn hps hy.2
  · exact WP.bind (WP.pure (functionBody_wp he hs hw hn hps rfl))

end

theorem function_wp :
    WP (function expression) s fun n t => s.Reads 1 t ∧ n.isWritten := by
  rw [function_eq]
  refine WP.bind (WP.mono keyword_wp fun start t ht => WP.bind (next_wp fun u hu => ?_))
  split_ifs with hw
  · refine WP.bind (WP.mono (taken_wp hu (by simp [Token.isPlainWord_content hw]))
      fun v w hv => WP.bind (WP.pure ?_))
    exact functionFrom_wp he hs (ht.then hv.2.any)
      (by simp [hv.1, hu.isPlainWord hw (hs.later ht)])
  · exact WP.bind (WP.pure (functionFrom_wp he hs ht rfl))

theorem return_wp :
    WP (return_ expression) s fun n t => s.Reads 1 t ∧ n.isWritten := by
  refine WP.bind (WP.mono keyword_wp fun start t ht => WP.bind (next_wp fun u hu => ?_))
  dsimp only
  split_ifs
  · refine WP.bind (WP.mono (he.after hs ht t (.refl t)) fun n v hv => ?_)
    exact WP.bind (WP.pure (WP.bind (spanFrom_wp fun _ => WP.pure ⟨ht.then hv.1.any, hv.2⟩)))
  · exact WP.bind (WP.pure (WP.bind (spanFrom_wp fun _ => WP.pure ⟨ht, rfl⟩)))

theorem define_wp :
    WP (define expression) s fun n t => s.Reads 1 t ∧ n.isWritten := by
  refine WP.bind (WP.mono keyword_wp fun start t ht => WP.bind (next_wp fun u hu => ?_))
  split
  · next name hn =>
    refine WP.bind (WP.mono (taken_wp hu (by simp [hn])) fun _ v hv => ?_)
    refine WP.bind (WP.mono declaredType_wp fun d w hw => ?_)
    refine WP.bind (WP.mono operator_wp fun _ x hx => ?_)
    have hx := hv.2.any.trans (hw.1.trans hx.any)
    refine WP.bind (WP.mono (he.after hs ht x hx) fun n y hy => ?_)
    refine WP.bind (spanFrom_wp fun _ => WP.pure ⟨ht.then (hx.trans hy.1.any), ?_⟩)
    simp [Ty.isDeclaration, hu.isName hn (hs.later ht), hw.2, hy.2]
  · exact unexpected_wp

theorem primary_wp :
    WP (primary expression) s fun n t => s.Reads 1 t ∧ n.isWritten := by
  refine WP.bind (next_wp fun t ht => ?_)
  have within (hc : t.content ≠ .endOfInput) := ht.within hc hs
  simp only [Token.Proper, Token.parts] at within
  dsimp only
  split <;> rename_i hc <;> simp only [hc] at within
  · refine WP.bind (WP.mono (taken_wp ht (by simp [hc])) fun _ u hu => WP.pure ⟨hu.2, ?_⟩)
    simpa [Datum.isWritten] using (within (by rintro ⟨⟩)).1
  · refine WP.bind (WP.mono (taken_wp ht (by simp [hc])) fun _ u hu => WP.pure ⟨hu.2, ?_⟩)
    exact (within (by rintro ⟨⟩)).1
  · refine WP.bind (WP.mono (taken_wp ht (by simp [hc])) fun _ u hu => ?_)
    obtain ⟨proper, nested⟩ := within (by rintro ⟨⟩)
    exact WP.mono (string_wp he proper nested) fun n v h => ⟨h.1 ▸ hu.2, h.2⟩
  · refine WP.bind (WP.mono (taken_wp ht (by simp [hc])) fun _ u hu => WP.pure ⟨hu.2, ?_⟩)
    exact (within (by rintro ⟨⟩)).1
  · refine WP.bind (WP.mono (taken_wp ht (by simp [hc])) fun _ u hu => WP.pure ⟨hu.2, ?_⟩)
    exact (within (by rintro ⟨⟩)).1
  · split_ifs
    · exact parenthesized_wp he hs
    · exact substitution_wp he hs
    · exact blockNode_wp he hs
    · exact unexpected_wp
  · split_ifs
    · exact WP.bind (WP.mono (taken_wp ht (by simp [hc])) fun _ u hu => WP.pure ⟨hu.2, rfl⟩)
    · exact conditional_wp he hs
    · exact function_wp he hs
    · exact return_wp he hs
    · exact define_wp he hs
    · exact unexpected_wp
  · exact unexpected_wp

/-! ## Commands and calls -/

theorem argument_wp :
    WP (argument expression) s fun n t => s.Reads 1 t ∧ n.isWritten := by
  refine WP.bind (next_wp fun t ht => ?_)
  split_ifs with hw
  · refine WP.bind (WP.mono (taken_wp ht (by simp [Token.isPlainWord_content hw])) fun _ u hu => ?_)
    exact WP.pure ⟨hu.2, rfl⟩
  · exact parenthesized_wp he hs
  · exact primary_wp he hs

omit he hs in
theorem atBinding_wp {Q : Bool → Stream → Prop}
    (h : ∀ key (b : Bool), s.Next key → (b → key.isPlainWord ∧ isName key.lexeme) → Q b s) :
    WP atBinding s Q := by
  refine WP.bind (next_wp fun key hk => ?_)
  split_ifs with hn
  · rw [Bool.and_eq_true] at hn
    refine WP.bind (peek_wp fun eq _ => ?_)
    split_ifs
    · exact WP.bind (peek_wp fun value _ => WP.pure (h key _ hk fun _ => hn))
    · exact WP.pure (h key _ hk nofun)
  · exact WP.pure (h key _ hk nofun)

theorem binding_wp {key : Token} (hk : s.Next key) (hw : key.isPlainWord) (hn : isName key.lexeme) :
    WP (binding expression) s fun b t =>
      s.Reads 1 t ∧ isName b.name ∧ Lexer.isPlainWord b.name ∧ b.value.isWritten := by
  have content : key.content ≠ .endOfInput := by simp [Token.isPlainWord_content hw]
  refine WP.bind (WP.mono (taken_wp hk content) fun key' t ht => ?_)
  refine WP.bind (advance_wp fun eq heq => ?_)
  have hu := ht.2.then (Stream.reads_pop heq)
  refine WP.bind (WP.mono (argument_wp he (hs.later hu)) fun n v hv => ?_)
  refine WP.bind (spanFrom_wp fun _ => WP.pure ⟨hu.then hv.1.any, ?_⟩)
  rw [ht.1]
  exact ⟨hn, hk.isPlainWord hw hs, hv.2⟩

theorem callArguments_wp :
    WP (callArguments expression) s fun ns t => s.Reads 1 t ∧ Node.areWritten ns := by
  refine WP.bind (WP.mono delimiter_wp fun _ t ht => ?_)
  refine listed_wp (he.after hs ht) fun ns u hu hns => ?_
  refine WP.bind (WP.mono delimiter_wp fun _ v hv => WP.pure ?_)
  exact ⟨ht.then (hu.trans hv.any), Node.areWritten_iff.mpr hns⟩

theorem arguments_wp :
    WP (arguments expression) s fun ns t => s.Reads 0 t ∧ Node.areWritten ns := by
  refine WP.mono (many_wp (P := (·.isWritten)) fun t ht => ?_) fun ns t h =>
    ⟨h.1, Node.areWritten_iff.mpr h.2⟩
  refine WP.bind (peek_wp fun _ _ => ?_)
  split_ifs
  · exact WP.bind (WP.mono (argument_wp he (hs.later ht)) fun n u hu => WP.pure hu)
  · exact WP.pure (Stream.Reads.refl t)

theorem named_wp {start name : Token} {env : List EnvBinding} {t : Stream} (ht : s.Reads 1 t)
    (hname : Lexer.isPlainWord name.lexeme) (henv : Node.areBindingsWritten env) :
    WP (named expression start name env) t fun n u => s.Reads 1 u ∧ n.isWritten := by
  refine WP.bind (peek_wp fun next _ => ?_)
  split_ifs
  · refine WP.bind (WP.mono (callArguments_wp he (hs.later ht)) fun args u hu => ?_)
    refine WP.bind (spanFrom_wp fun _ => WP.pure ⟨ht.then hu.1.any, ?_⟩)
    simp [hname, henv, hu.2]
  · refine WP.bind (WP.mono (arguments_wp he (hs.later ht)) fun args u hu => ?_)
    refine WP.bind (spanFrom_wp fun _ => WP.pure ⟨ht.then hu.1, ?_⟩)
    simp [hname, henv, hu.2]

theorem prefixes_wp :
    WP (prefixes expression) s fun bs t =>
      s.Reads 0 t ∧ (bs = [] → t = s) ∧ Node.areBindingsWritten bs := by
  refine collect_wp (P := fun bs t => s.Reads 0 t ∧ (bs = [] → t = s) ∧
    Node.areBindingsWritten bs) (fun bs t ⟨ht, h0, hbs⟩ => ?_) ⟨.refl s, fun _ => rfl, rfl⟩
  refine WP.bind (atBinding_wp fun key b hk hb => ?_)
  split_ifs with h
  · obtain ⟨hw, hn⟩ := hb h
    refine WP.bind (WP.mono (binding_wp he (hs.later ht) hk hw hn) fun b u hu => WP.pure ?_)
    refine ⟨hu.1, ht.trans hu.1.any, fun e => by simp at e, ?_⟩
    exact Node.areBindingsWritten_iff.mpr
      (forall_mem_snoc (Node.areBindingsWritten_iff.mp hbs) hu.2)
  · exact WP.pure ⟨ht, h0, hbs⟩

theorem command_wp {start : Token} (hstart : s.Next start) (hw : start.isPlainWord) :
    WP (command expression start) s fun n t => s.Reads 1 t ∧ n.isWritten := by
  refine WP.bind (WP.mono (prefixes_wp he hs) fun bs t ⟨ht, h0, hbs⟩ => ?_)
  refine WP.bind (next_wp fun name hname => ?_)
  split_ifs with h
  · have plain := isPlainWord_name hstart hw h0 hname h
    have content : name.content ≠ .endOfInput := by simp [Token.isPlainWord_content plain]
    refine WP.bind (WP.mono (taken_wp hname content) fun word u hu => ?_)
    exact named_wp he hs (ht.thenSome hu.2) (hu.1 ▸ hname.isPlainWord plain (hs.later ht)) hbs
  · exact WP.throw nofun

theorem application_wp :
    WP (application expression) s fun n t => s.Reads 1 t ∧ n.isWritten := by
  rw [application_eq]
  refine WP.bind (next_wp fun start hstart => ?_)
  split_ifs with hw
  · exact command_wp he hs hstart hw
  · exact primary_wp he hs

theorem postfixCalls_wp :
    WP (postfixCalls expression) s fun n t => s.Reads 1 t ∧ n.isWritten := by
  refine WP.bind (next_wp fun start _ => WP.bind (WP.mono (application_wp he hs) fun n t ht => ?_))
  refine iterate_wp (P := fun n t => s.Reads 1 t ∧ n.isWritten) (fun callee u ⟨hu, hc⟩ => ?_) ht
  refine WP.bind (atDelimiter_wp fun _ _ => ?_)
  split_ifs
  · refine WP.bind (WP.mono (callArguments_wp he (hs.later hu)) fun args v hv => ?_)
    refine WP.bind (spanFrom_wp fun _ => WP.pure ⟨hv.1, hu.then hv.1.any, ?_⟩)
    simp [hc, hv.2]
  · exact WP.pure ⟨hu, hc⟩

/-! ## Operators -/

theorem signed_wp :
    WP (signed expression) s fun n t => s.Reads 1 t ∧ n.isWritten := by
  refine WP.bind (WP.mono (many_wp (P := fun t : Token => t.isOperator "-" ∨ t.isOperator "!")
    fun t _ => ?_) fun signs t ht => ?_)
  · refine WP.bind (atOperator_wp fun u hu => WP.bind (atOperator_wp fun v hv => ?_))
    cases hu.symm.trans hv
    split_ifs with ho
    · rw [Bool.or_eq_true] at ho
      have content : u.content ≠ .endOfInput := ho.elim Token.isOperator_content
        Token.isOperator_content
      refine WP.bind (WP.mono (taken_wp hu content) fun w x hx => WP.pure ⟨hx.2, ?_⟩)
      exact hx.1 ▸ ho
    · exact WP.pure (Stream.Reads.refl t)
  · refine WP.bind (WP.mono (postfixCalls_wp he (hs.later ht.1)) fun n u hu => ?_)
    have unary : ∀ signs : List Token, (∀ t ∈ signs, t.isOperator "-" ∨ t.isOperator "!") →
        WP (signs.foldrM (fun sign operand => do
          return Node.unary (← spanFrom sign) (.ofSymbol sign.lexeme) operand) n) u
          fun n v => v = u ∧ n.isWritten := by
      intro signs
      induction signs with
      | nil => exact fun _ => WP.pure ⟨rfl, hu.2⟩
      | cons sign signs ih =>
        intro h
        rw [List.foldrM_cons]
        refine WP.bind (WP.mono (ih fun t ht => h t (List.mem_cons_of_mem _ ht)) fun m v hv => ?_)
        refine WP.bind (spanFrom_wp fun _ => WP.pure ⟨hv.1, ?_⟩)
        have known : UnaryOperator.ofSymbol sign.lexeme ∈ [.not, .neg] := by
          have := h sign List.mem_cons_self
          simp only [Token.isOperator, Bool.and_eq_true, decide_eq_true_eq] at this
          rcases this with h | h <;> rw [h.2] <;> decide
        simp [known, hv.2]
    exact WP.mono (unary signs ht.2) fun m v hv => ⟨ht.1.thenSome (hv.1 ▸ hu.1), hv.2⟩

end

theorem atOneOf_wp {ops : List BinaryOperator} {Q : Bool → Stream → Prop}
    (h : ∀ t, s.Next t → Q (ops.any fun op => t.isOperator op.symbol) s) :
    WP (atOneOf ops) s Q :=
  WP.bind (next_wp fun t ht => WP.pure (h t ht))

/-- An operator that the grammar looks for. -/
theorem known_of_atOneOf {ops : List BinaryOperator} (hops : ops ⊆ BinaryOperator.all)
    {t : Token} (h : ops.any fun op => t.isOperator op.symbol) :
    t.content ≠ .endOfInput ∧ BinaryOperator.ofSymbol t.lexeme ∈ BinaryOperator.all := by
  obtain ⟨op, hop, ht⟩ := List.any_eq_true.mp h
  refine ⟨Token.isOperator_content ht, ?_⟩
  simp only [Token.isOperator, Bool.and_eq_true, decide_eq_true_eq] at ht
  rw [ht.2, BinaryOperator.ofSymbol_symbol (hops hop)]
  exact hops hop

section

variable {operand : Parser Node}
  (h : ∀ t, s.Reads 0 t → WP operand t fun n u => t.Reads 1 u ∧ n.isWritten)
include h

theorem chain_wp {ops : List BinaryOperator} (hops : ops ⊆ BinaryOperator.all) :
    WP (chain ops operand) s fun n t => s.Reads 1 t ∧ n.isWritten := by
  refine WP.bind (next_wp fun start _ => WP.bind (WP.mono (h s (.refl s)) fun first t ht => ?_))
  refine iterate_wp (P := fun n t => s.Reads 1 t ∧ n.isWritten) (fun left u ⟨hu, hleft⟩ => ?_) ht
  refine WP.bind (atOneOf_wp fun o ho => ?_)
  split_ifs with hop
  · obtain ⟨content, known⟩ := known_of_atOneOf hops hop
    refine WP.bind (WP.mono (taken_wp ho content) fun op v hv => ?_)
    refine WP.bind (WP.mono (h v (hu.any.trans hv.2.any)) fun right w hw => ?_)
    refine WP.bind (spanFrom_wp fun _ => WP.pure ?_)
    have read := hv.2.then hw.1.any
    exact ⟨read, hu.then read.any, by simp [hv.1, known, hleft, hw.2]⟩
  · exact WP.pure ⟨hu, hleft⟩

theorem comparison_wp :
    WP (comparison operand) s fun n t => s.Reads 1 t ∧ n.isWritten := by
  refine WP.bind (next_wp fun start _ => WP.bind (WP.mono (h s (.refl s)) fun left t ht => ?_))
  refine WP.bind (atOneOf_wp fun o ho => ?_)
  split_ifs with hop
  · obtain ⟨content, known⟩ := known_of_atOneOf (by decide) hop
    refine WP.bind (WP.mono (taken_wp ho content) fun op u hu => ?_)
    refine WP.bind (WP.mono (h u (ht.1.any.trans hu.2.any)) fun right v hv => ?_)
    refine WP.bind (spanFrom_wp fun _ => WP.bind (atOneOf_wp fun _ _ => ?_))
    split_ifs
    · exact WP.bind (peek_wp fun _ _ => WP.throw nofun)
    · refine WP.pure ⟨ht.1.then (hu.2.any.trans hv.1.any), ?_⟩
      simp [hu.1, known, ht.2, hv.2]
  · exact WP.pure ht

theorem operation_wp :
    WP (operation operand) s fun n t => s.Reads 1 t ∧ n.isWritten := by
  have later {t : Stream} (ht : s.Reads 0 t) : ∀ u, t.Reads 0 u →
      WP operand u fun n v => u.Reads 1 v ∧ n.isWritten := fun u hu => h u (ht.trans hu)
  refine chain_wp (fun t ht => ?_) (by decide)
  refine chain_wp (fun u hu => ?_) (by decide)
  refine comparison_wp fun v hv => ?_
  refine chain_wp (fun w hw => ?_) (by decide)
  exact chain_wp (later (ht.trans (hu.trans (hv.trans hw)))) (by decide)

end

/-! ## Expressions -/

theorem expressionWith_wp {k : Nat} {expression : Parser Node} (he : AbleBelow k expression)
    (hs : s.Within k) :
    WP (expressionWith expression) s fun n t => s.Reads 1 t ∧ n.isWritten := by
  have operation := operation_wp (s := s) fun t ht => signed_wp he (hs.later ht)
  refine WP.bind (next_wp fun t ht => ?_)
  split_ifs
  · exact define_wp he hs
  · split
    · next name hn =>
      refine WP.bind (peek_wp fun eq _ => ?_)
      split_ifs
      · refine WP.bind (WP.mono (taken_wp ht (by simp [hn])) fun _ u hu => ?_)
        refine WP.bind (advance_wp fun eq heq => ?_)
        have hv := hu.2.then (Stream.reads_pop heq)
        refine WP.bind (WP.mono (he.after hs hv _ (.refl _)) fun n w hw => ?_)
        refine WP.bind (spanFrom_wp fun _ => WP.pure ⟨hv.then hw.1.any, ?_⟩)
        simp [ht.isName hn hs, hw.2]
      · exact operation
    · exact operation

theorem expressionUpTo_able (k : Nat) : AbleBelow k (expressionUpTo k) := by
  induction k with
  | zero => exact fun _ h => absurd h (Nat.not_lt_zero _)
  | succ k ih => exact fun j hj s hs t ht =>
      expressionWith_wp ih ((Stream.Within.later hs ht).mono (Nat.le_of_lt_succ hj))

/-- Expressions can be read from the tokens of a text, which nest no deeper than it is long. -/
theorem able_tokenize (source : List Char) (openEnded : Bool) :
    Able (expressionUpTo (source.length + 1)) (.ofLexed (tokenize source) openEnded 0) :=
  expressionUpTo_able _ source.length (Nat.lt_succ_self _) _
    (View.tokens_within (View.whole source))

end Sigil.Parser

namespace Sigil

/-- Reading a script never gives up, and scripts can say what was read. -/
theorem parseProgram_cases (source : List Char) :
    match parseProgram source with
    | .ok n => n.isScript
    | .error e => e ≠ .exhausted := by
  have h := Parser.program_wp (Parser.able_tokenize source false)
  unfold Parser.WP at h
  unfold parseProgram
  cases hr : (Parser.program (Parser.expressionUpTo (source.length + 1))).run
    (.ofLexed (tokenize source) false 0) with
  | error e => rw [hr] at h; exact h
  | ok r => rw [hr] at h; exact h

theorem isScript_of_parseProgram {source : List Char} {n : Node} (h : parseProgram source = .ok n) :
    n.isScript := by
  have cases := parseProgram_cases source
  rw [h] at cases
  exact cases

/-- Reading the entries of a script never gives up, and scripts can say what was read. -/
theorem parseEntries_cases (source : List Char) (openEnded : Bool) :
    match parseEntries source openEnded with
    | .ok ns => Node.areWritten ns
    | .error e => e ≠ .exhausted := by
  have h := Parser.entries_wp none (Parser.able_tokenize source openEnded)
  unfold Parser.WP at h
  unfold parseEntries
  cases hr : (Parser.entries (Parser.expressionUpTo (source.length + 1)) none).run
    (.ofLexed (tokenize source) openEnded 0) with
  | error e => rw [hr] at h; exact h
  | ok r => rw [hr] at h; exact h.2

end Sigil
