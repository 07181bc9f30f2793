import Sigil.Proofs.Node.FinishingExpressions
import Sigil.Proofs.Node.Kindred

/-!
# Trees of texts that say the same

Given readers of expressions of which the second gives what the first gives, but
for the spans, of a text that says the same (`Parser.Echoes`), entries are read
alike of both, whatever closes them (`Parser.entries_echo`), and then the pieces
of the grammar are taken one by one (`Parser.echoes_expressionUpTo`). The inside
of a substitution in a string is read in the same way, as it is the same text in
both.
-/

namespace Sigil

/-- The first reader is lost, or it is at what closes the entries, which the second text does not
have. -/
def Stream.Closed (c : Cut) (closing : Option String) (s : Stream) : Prop :=
  s.Lost c ∨ s.Brink c 0 ∧ ∃ x, s.Next x ∧ Parser.closes closing x

namespace Parser

section

variable {α β : Type} {c : Cut} {closing : Option String} {n k K : Nat} {s t : Stream}
  {expression expression' : Parser Node}

theorem Trails.after {p : Parser α} {q : Parser β} {E F G : Stream → Prop}
    {Q : α → β → Stream → Stream → Prop} (h : Trails E F p q s t Q) (hFG : ∀ u, F u → G u) :
    Trails E G p q s t Q := fun a u ha =>
  let ⟨stays, b, v, hq, hb⟩ := h a u ha
  ⟨fun hs => hFG u (stays hs), b, v, hq, hb.imp_right (hFG u)⟩

theorem skipSemicolons_echo (h : s.Along c n k t) :
    Echo c skipSemicolons skipSemicolons s t fun _ _ u v => u.Along c n k v := by
  refine .bind (.mono (many_echo (f := fun _ => ()) h fun m _ u v huv => ?_)
    fun _ _ _ _ huv => .pure id huv.2)
  refine .bind (atDelimiter_echo huv fun x b hx told => ?_)
  exact Echo.ite_take told huv hx Token.isDelimiter_content
    (fun _ _ u v _ huv => .pure id ⟨rfl, huv.mono (Nat.le_refl _) (Nat.sub_le k 1)⟩)
    fun _ => .pure id huv

/-- Whether the entries end here; where the second text ends, it does not have the mark. -/
theorem atClosing_echo {Q : Bool → Bool → Stream → Stream → Prop}
    (hcl : c.rest ≠ [] → ∃ d, closing = some d ∧ d ≠ ";") (h : s.Along c n k t)
    (hQ : ∀ x b, s.Next x → s.Told c 0 (closes closing x) b → Q (closes closing x) b s t) :
    Echo c (atClosing closing) (atClosing closing) s t Q := by
  cases closing with
  | none =>
    refine .bind (peek_echo h fun x y hx seen => .pure id (hQ x _ hx ?_))
    rcases seen with ⟨-, -, kin, -⟩ | ⟨brink, -⟩
    · exact .inl (decide_eq_decide.mpr (kin.resembles.content_iff (c := .endOfInput) rfl))
    · obtain ⟨d, none, -⟩ := hcl brink.1
      cases none
  | some d => exact test_echo (Token.telling_isDelimiter d) h hQ

theorem endEntry_echo (hcl : c.rest ≠ [] → ∃ d, closing = some d ∧ d ≠ ";")
    (h : s.Along c n k t) (hn : n ≤ c.whole) :
    Trails (Stream.Lost c) (Stream.Closed c closing) (endEntry closing) (endEntry closing) s t
      fun _ _ u v => u.Kin c n k v ∨ u.Closed c closing := by
  rcases h with kin | lost
  · have along : s.Along c n k t := .inl kin
    refine .bind (atDelimiter_echo along fun x b hx told => ?_)
    by_cases semi : x.isDelimiter ";"
    · refine Trails.after (F := Stream.Lost c) ?_ fun _ => .inl
      refine Echo.ite_take told along hx Token.isDelimiter_content
        (fun _ _ u v _ huv => .pure id ?_) fun none => absurd semi none
      exact (huv.mono (Nat.sub_le n 1) (Nat.sub_le k 1)).imp_right .inl
    · rw [if_neg semi, if_neg (told.none semi)]
      refine .bind (atClosing_echo hcl along fun x b hx told => ?_)
      by_cases closed : closes closing x
      · rw [if_pos closed]
        rcases told with rfl | ⟨brink, -⟩
        · rw [if_pos closed]
          exact .pure .inl (.inl kin)
        · refine .gone ?_
          rintro _ _ ⟨⟩
          exact ⟨.inr ⟨brink, x, hx, closed⟩, (), t, .inl kin⟩
      · rw [if_neg closed, if_neg (told.none closed)]
        refine .bind (.get ?_)
        rw [kin.braced (kin.bound.trans_le hn)]
        split_ifs
        · exact .pure .inl (.inl kin)
        · exact .unexpected
  · refine .gone fun _ u hu => ?_
    have lost := lost.reads (endEntry_wp.of_ok hu)
    exact ⟨.inl lost, (), t, .inr (.inl lost)⟩

/-- An entry was read from both streams, or none from either, unless the first reader is lost. -/
def Entered (c : Cut) (closing : Option String) (n k : Nat) :
    Option Node → Option Node → Stream → Stream → Prop :=
  Paired (fun u v => u.Kin c n k v ∨ u.Closed c closing) fun x y u v =>
    y.erase = x.erase ∧ (u.Kin c (n - 1) k v ∨ u.Closed c closing)

theorem entry_echo (he : Echoes Node.erase K expression expression') (hk : k ≤ K)
    (hcl : c.rest ≠ [] → ∃ d, closing = some d ∧ d ≠ ";")
    (h : s.Kin c n k t ∨ s.Closed c closing) :
    Trails (Stream.Closed c closing) (Stream.Closed c closing) (entry expression closing)
      (entry expression' closing) s t (Entered c closing n k) := by
  by_cases mark : s.Brink c 0 ∧ ∃ x, s.Next x ∧ closes closing x
  · -- the first reader stays before the mark
    obtain ⟨brink, x, hx, closed⟩ := mark
    obtain ⟨d, rfl, hd⟩ := hcl brink.1
    have semi : ¬ x.isDelimiter ";" := by
      simp only [closes, Token.isDelimiter, Bool.and_eq_true, decide_eq_true_eq] at closed ⊢
      rw [closed.2]
      exact fun h => hd h.2
    refine .gone fun r u hr => ?_
    rw [run_entry, run_skipSemicolons_stop hx semi, ok_bind, entryHere, StateT.run_bind,
      run_atClosing, hx, ok_bind, ok_bind, closed] at hr
    cases hr
    have lost : s.Closed c (some d) := .inr ⟨brink, x, hx, closed⟩
    exact ⟨lost, none, t, .inr lost⟩
  · have along : s.Along c n k t := h.imp_right fun closed => closed.resolve_right mark
    suffices main : Trails (Stream.Lost c) (Stream.Closed c closing)
        (entry expression closing) (entry expression' closing) s t (Entered c closing n k) from
      fun a u ha => (main a u ha).imp_left fun stays closed => stays (closed.resolve_right mark)
    refine .bind (.mono (skipSemicolons_echo along) fun _ _ u v huv => ?_)
    refine .bind (atClosing_echo hcl huv fun x b hx told => ?_)
    by_cases closed : closes closing x
    · rw [if_pos closed]
      rcases told with rfl | ⟨brink, -⟩
      · rw [if_pos closed]
        exact .pure .inl (huv.imp_right .inl)
      · refine .gone ?_
        rintro _ _ ⟨⟩
        have lost : u.Closed c closing := .inr ⟨brink, x, hx, closed⟩
        exact ⟨lost, none, v, .inr lost⟩
    · rw [if_neg closed, if_neg (told.none closed)]
      refine .bind (.mono (he u v hk huv.started) ?_)
      rintro a b u v ⟨hab, huv⟩
      refine .bind (.mono (endEntry_echo hcl huv (by omega)) fun _ _ u v still => .pure id ⟨hab, ?_⟩)
      exact still.imp_left fun kin => kin.mono (by omega) (Nat.le_refl k)

theorem entries_echo (he : Echoes Node.erase K expression expression') (hk : k ≤ K)
    (hcl : c.rest ≠ [] → ∃ d, closing = some d ∧ d ≠ ";") (h : s.Along c n k t) :
    Trails (Stream.Lost c) (Stream.Closed c closing) (entries expression closing)
      (entries expression' closing) s t fun ns ns' u v =>
        Node.eraseAll ns' = Node.eraseAll ns ∧ (u.Kin c n k v ∨ u.Closed c closing) := by
  refine Trails.before (E := Stream.Closed c closing) ?_ fun _ => .inl
  refine iterate_trails (R := fun m ns ns' u v => Node.eraseAll ns' = Node.eraseAll ns ∧
    (u.Kin c (min m n) k v ∨ u.Closed c closing))
    (fun ns ns' u v huv => ?_) (fun m ns ns' u v ⟨hns, huv⟩ => ?_)
    ⟨rfl, h.rebound.imp_right .inl⟩
  · rw [Nat.zero_min] at huv
    exact huv.2.resolve_left fun kin => absurd kin.two_le (by omega)
  · refine .bind (.mono (entry_echo he hk hcl huv) fun r r' u v hr => .pure id ?_)
    cases r with
    | none =>
      cases r' with
      | none => exact ⟨hns, hr.imp_left fun kin => kin.mono (Nat.min_le_right m n) (Nat.le_refl k)⟩
      | some b => exact hr.elim
    | some a =>
      cases r' with
      | none => exact hr.elim
      | some b =>
        refine ⟨?_, hr.2.imp_left fun kin => kin.mono (by omega) (Nat.le_refl k)⟩
        rw [Node.eraseAll_eq_map, Node.eraseAll_eq_map] at hns ⊢
        rw [List.map_append, List.map_append, hns, List.map_singleton, List.map_singleton, hr.1]

/-- The mark that closes entries. -/
theorem closing_echo {d : String} {Q : Token → Token → Stream → Stream → Prop}
    (h : s.Kin c n k t ∨ s.Closed c (some d))
    (hQ : ∀ x y u v, u.Along c (n - 1) (k - 1) v → Q x y u v) :
    Trails (Stream.Closed c (some d)) (Stream.Lost c) (delimiter d) (delimiter d) s t Q := by
  intro x u hx
  have reads : s.Reads 1 u := delimiter_wp.of_ok hx
  have loses : s.Closed c (some d) → u.Lost c := fun closed =>
    closed.elim (fun lost => lost.reads reads) fun mark => mark.1.reads reads
  refine ⟨loses, ?_⟩
  rcases h with kin | closed
  · exact (delimiter_echo (.inl kin) (fun x y u v _ _ _ huv => hQ x y u v huv) x u hx).2
  · exact ⟨x, t, hQ x x u t (.inr (loses closed)), .inr (loses closed)⟩

/-- All entries of a text. -/
theorem program_echo (he : Echoes Node.erase K expression expression') (hk : k ≤ K)
    (none : c.rest = []) (h : s.Kin c n k t) :
    Follows (program expression) (program expression') s t fun r r' _ _ =>
      Node.eraseAll r'.2 = Node.eraseAll r.2 := by
  have along : s.Along c n k t := .inl h
  have whole (u : Stream) (closed : u.Closed c Option.none) : u.Lost c :=
    closed.resolve_right fun mark => mark.1.1 none
  have echo : Echo c (program expression) (program expression') s t fun r r' _ _ =>
      Node.eraseAll r'.2 = Node.eraseAll r.2 := by
    refine .bind (peek_echo along fun _ _ _ _ => ?_)
    refine .bind (.mono ((entries_echo he hk (fun more => absurd none more) along).after whole)
      fun ns ns' u v hns => ?_)
    exact .bind (spanFrom_echo fun _ _ => .pure id hns.1)
  exact fun a u ha =>
    let ⟨_, b, v, hq, hb⟩ := echo a u ha
    ⟨b, v, hb.resolve_right (u.not_lost_of_nil none), hq⟩

end

/-! ## Whole texts -/

/-- A program can only be read up to the end of a view. -/
theorem sound_of_program {k : Nat} {w : View} {r : (Option Span × List Node) × Stream}
    (h : (program (expressionUpTo k)).run (.ofLexed w.tokens false 0) = .ok r) :
    w.tokens.error = none := by
  rw [run_program] at h
  obtain ⟨start, -, h⟩ := bind_eq_ok h
  obtain ⟨⟨ns, u⟩, hns, -⟩ := bind_eq_ok h
  obtain ⟨c, twin, -⟩ := twin_ofLexed (.beyond (m := .alone) w) nofun false false
  have error : w.tokens.error = c.error := twin.error
  by_contra some
  -- with a fault in the text it does not matter what would come after it
  have never : c.error = none → c.rest = [⟨.delimiter, ";", default⟩] :=
    fun none => absurd (error.trans none) some
  obtain ⟨-, -, -, -, -, none, -⟩ := entries_through (mirrors_expressionUpTo (Nat.le_refl k))
    (stalls_expressionUpTo k) rfl never hns twin
  exact some (error.trans none)

end Parser

/-- A stream that says what a view does that is read to its end, and then more, if any. -/
theorem Stream.kin_start {s : Stream} {w : View} {k : Nat} {ps : List (Token × Token)}
    {rest : List Token} {p q : Position} (sound : s.error = none)
    (hs : s.ahead = ps.map Prod.fst ++ (rest ++ [.atEnd p]))
    (hw : w.tokens = ⟨ps.map Prod.snd ++ [.atEnd q], none⟩) (kins : Token.Kins ps)
    (real : ∀ x ∈ ps, x.1.content ≠ .endOfInput ∧ x.1.Contained)
    (within : Token.Within k w.tokens.tokens) :
    s.Kin ⟨rest, w.tokens.tokens.length⟩ (w.tokens.tokens.length + 1) k
      (ofLexed w.tokens false 0) where
  sound := ⟨sound, by rw [hw]; rfl⟩
  ahead := ⟨ps, p, q, hs, by rw [hw]; rfl, kins, real⟩
  start := Nat.le_refl _
  braced less := absurd less (Nat.lt_irrefl _)
  bound := Nat.lt_succ_self _
  within := within

/-- The streams of two views that are read to their ends and have the same tokens. -/
theorem Stream.kin_ofLexed {v w : View} {k : Nat} {ps : List (Token × Token)} {p q : Position}
    (hv : v.tokens = ⟨ps.map Prod.fst ++ [.atEnd p], none⟩)
    (hw : w.tokens = ⟨ps.map Prod.snd ++ [.atEnd q], none⟩) (kins : Token.Kins ps)
    (contained : v.Contained) (within : Token.Within k w.tokens.tokens) :
    (ofLexed v.tokens false 0).Kin ⟨[], w.tokens.tokens.length⟩ (w.tokens.tokens.length + 1) k
      (ofLexed w.tokens false 0) := by
  have real : ∀ x ∈ ps, x.1.content ≠ .endOfInput := by
    obtain ⟨ts, real, ⟨err, hts⟩ | ⟨e, hts⟩⟩ := v.tokens_end
    · cases hv.symm.trans hts
    · obtain ⟨same, -⟩ := List.append_inj' (congrArg Lexed.tokens (hv.symm.trans hts)) rfl
      exact fun x hx => real _ (same ▸ List.mem_map_of_mem hx)
  refine kin_start (by rw [hv]; rfl) (by rw [hv]; rfl) hw kins (fun x hx => ⟨real x hx, ?_⟩) within
  refine contained.token ?_
  rw [hv]
  exact List.mem_append_left _ (List.mem_map_of_mem hx)

/-- Where no token of the second text is left, there is none of the first, if it does not go on. -/
theorem Stream.Kin.over {c : Cut} {n : Nat} {s t : Stream} (h : s.Kin c n 0 t)
    (away : ¬ s.Brink c 0) : s.Over := by
  have within := h.within
  have length := h.length
  obtain ⟨ps, p, q, hs, ht, kins, reals⟩ := h.ahead
  cases ps with
  | nil =>
    have none : c.rest = [] := by
      by_contra more
      refine away ⟨more, ?_⟩
      rw [length, ht]
      simp
      omega
    exact ⟨.atEnd p, [], by rw [hs, none]; rfl, rfl⟩
  | cons z ps =>
    have mem : z ∈ z :: ps := List.mem_cons_self
    rw [Within, ht] at within
    exact absurd within ((kins.kin z mem).resembles.real (reals z mem).1)

namespace Parser

variable {c : Cut} {n k K : Nat} {s t : Stream} {expression expression' : Parser Node}

/-! ## Primary expressions -/

/-- A node with the span of what was read for it. -/
theorem made_echo {start start' : Token} {f f' : Option Span → Node} (h : s.Along c n k t)
    (same : ∀ span span', (f' span').erase = (f span).erase) :
    Echo c (do return f (← spanFrom start)) (do return f' (← spanFrom start')) s t
      fun x y u v => y.erase = x.erase ∧ u.Along c n k v :=
  .bind (spanFrom_echo fun span span' => .pure id ⟨same span span', h⟩)

/-- Making the node of a part of a string reads nothing. -/
theorem stringPart_stays {p : StringPart} {x : Part} {u : Stream}
    (h : (stringPart expression p).run s = .ok (x, u)) : u = s := by
  cases p with
  | text | «variable» => cases h; rfl
  | substitution inside span =>
    rw [stringPart, StateT.run_bind] at h
    obtain ⟨⟨r, w⟩, hr, h⟩ := bind_eq_ok h
    have inner : (program expression).run (.ofLexed inside.tokens false 0) >>=
      (fun r => Except.ok (r, s)) = .ok (r, w) := hr
    obtain ⟨_, -, hw⟩ := bind_eq_ok inner
    cases hw
    cases h
    rfl

theorem stringParts_stays {ps : List StringPart} {xs : List Part} {u : Stream}
    (h : (ps.mapM (stringPart expression)).run s = .ok (xs, u)) : u = s := by
  induction ps generalizing xs with
  | nil => cases h; rfl
  | cons p ps ih =>
    rw [List.mapM_cons, StateT.run_bind] at h
    obtain ⟨⟨x, v⟩, hx, hps⟩ := bind_eq_ok h
    rw [StateT.run_bind] at hps
    obtain ⟨⟨xs, w⟩, hxs, hu⟩ := bind_eq_ok hps
    cases hu
    obtain rfl := stringPart_stays hx
    exact ih hxs

/-- Making the node of a string reads nothing. -/
theorem string_stays {span : Span} {ps : List StringPart} {x : Node} {u : Stream}
    (h : (string expression span ps).run s = .ok (x, u)) : u = s := by
  rw [string_eq] at h
  split_ifs at h
  · cases h
    rfl
  · rw [StateT.run_bind] at h
    obtain ⟨⟨xs, w⟩, hxs, h⟩ := bind_eq_ok h
    cases h
    exact stringParts_stays hxs

section

variable (he : Echoes Node.erase K expression expression')
include he

theorem echoes_substitution :
    Echoes Node.erase (K + 1) (substitution expression) (substitution expression') := by
  intro s t c n k hk h
  refine .bind (delimiter_echo h fun start start' u v _ _ _ huv => ?_)
  refine .bind (.mono (entries_echo he (by omega) (fun _ => ⟨_, rfl, by decide⟩) huv) ?_)
  rintro ns ns' u v ⟨hns, still⟩
  refine .bind (closing_echo still fun _ _ u v huv => ?_)
  exact made_echo (f := fun span => .substitution span ns) (huv.mono (by omega) (by omega))
    fun _ _ => congrArg (Node.substitution none) hns

theorem echoes_parenthesized :
    Echoes Node.erase (K + 1) (parenthesized expression) (parenthesized expression') := by
  intro s t c n k hk h
  refine .bind (delimiter_echo h fun start start' u v _ _ _ huv => ?_)
  refine .bind (atDelimiter_echo huv fun x b hx told => ?_)
  refine Echo.ite_take told huv hx Token.isDelimiter_content (fun _ _ u v _ huv => ?_) fun _ => ?_
  · exact made_echo (f := fun span => .literal span .unit) (huv.mono (by omega) (by omega))
      fun _ _ => rfl
  · refine .bind (.mono (he u v (by omega) huv) fun x y u v ⟨hxy, huv⟩ => ?_)
    exact .bind (delimiter_echo huv fun _ _ u v _ _ _ huv =>
      .pure id ⟨hxy, huv.mono (by omega) (by omega)⟩)

theorem echoes_block :
    Echoes (fun r => Node.eraseAll r.2) (K + 1) (block expression) (block expression') := by
  intro s t c n k hk h
  refine .bind (delimiter_echo h fun start start' u v _ _ _ huv => ?_)
  refine .bind (.mono (entries_echo he (by omega) (fun _ => ⟨_, rfl, by decide⟩) huv) ?_)
  rintro ns ns' u v ⟨hns, still⟩
  refine .bind (closing_echo still fun _ _ u v huv => ?_)
  exact .bind (spanFrom_echo fun _ _ => .pure id ⟨hns, huv.mono (by omega) (by omega)⟩)

theorem echoes_blockNode :
    Echoes Node.erase (K + 1) (blockNode expression) (blockNode expression') := by
  intro s t c n k hk h
  refine .bind (.mono (echoes_block he s t hk h) ?_)
  rintro ⟨span, body⟩ ⟨span', body'⟩ u v ⟨hbody, huv⟩
  exact .pure id ⟨congrArg (Node.block none) hbody, huv⟩

theorem elseBranch_echo {start start' : Token} {condition condition' x x' : Node}
    (hcondition : condition'.erase = condition.erase) (hx : x'.erase = x.erase) (hk : k ≤ K)
    (h : s.Along c n k t) :
    Echo c (elseBranch expression start condition x)
      (elseBranch expression' start' condition' x') s t fun y y' u v =>
        y'.erase = y.erase ∧ u.Along c n k v := by
  refine .bind (atKeyword_echo h fun y b hy told => ?_)
  refine Echo.ite_take told h hy Token.isKeyword_content (fun _ _ u v _ huv => ?_) fun _ => ?_
  · refine .bind (.mono (he u v (by omega) huv) fun z z' u v ⟨hz, huv⟩ => ?_)
    refine .bind (.pure id (made_echo (huv.mono (by omega) (by omega)) fun _ _ => ?_))
    rw [Node.erase, Node.erase, hcondition, hx, hz]
  · refine .bind (.pure id (made_echo h fun _ _ => ?_))
    rw [Node.erase, Node.erase, hcondition, hx]

theorem echoes_conditional :
    Echoes Node.erase (K + 1) (conditional expression) (conditional expression') := by
  intro s t c n k hk h
  refine .bind (keyword_echo h fun start start' u v _ _ _ huv => ?_)
  refine .bind (.mono (he u v (by omega) huv) fun condition condition' u v ⟨hc, huv⟩ => ?_)
  refine .bind (atKeyword_echo huv fun x b hx told => ?_)
  refine .bind (atDelimiter_echo huv fun y b' _ told' => ?_)
  refine Echo.ite_take told huv hx Token.isKeyword_content (fun _ _ u v _ huv => ?_) fun _ => ?_
  · refine .bind (.mono (he u v (by omega) huv) fun x x' u v ⟨hx, huv⟩ => ?_)
    refine .mono (elseBranch_echo he hc hx (by omega) huv) fun y y' u v ⟨hy, huv⟩ => ?_
    exact ⟨hy, huv.mono (by omega) (by omega)⟩
  · refine Echo.ite_read told' (echoes_blockNode he u v) (by omega) huv
      (fun _ x x' u v hx huv => ?_) fun _ => .bind (Trails.unexpected (F := Stream.Lost c))
    refine .mono (elseBranch_echo he hc hx (by omega) huv) fun y y' u v ⟨hy, huv⟩ => ?_
    exact ⟨hy, huv.mono (by omega) (by omega)⟩

omit he in
theorem echoes_parameter : Echoes Param.erase K parameter parameter := by
  intro s t c n k hk h
  refine look_echo h fun x z r hx alike right _ => ?_
  obtain ⟨content, lexeme, place⟩ := x
  obtain ⟨content', lexeme', place'⟩ := z
  cases content with
  | «variable» name =>
    obtain rfl := (alike.content_iff (c := .variable name) rfl).mpr rfl
    refine taken_echo h hx nofun right fun _ u v _ huv => ?_
    refine .bind (.mono (declaredType_echo huv) ?_)
    rintro declared _ u v ⟨rfl, huv⟩
    exact .bind (spanFrom_echo fun _ _ => .pure id ⟨rfl, huv.mono (Nat.le_refl _) (by omega)⟩)
  | _ => exact .unexpected

theorem functionBody_echo {start start' : Token} {name : Option String} {params params' : List Param}
    {returns : Option Ty} (hparams : params'.map Param.erase = params.map Param.erase) (hk : k ≤ K + 1)
    (h : s.Along c n k t) :
    Echo c (functionBody expression start name params returns)
      (functionBody expression' start' name params' returns) s t fun x y u v =>
        y.erase = x.erase ∧ u.Along c n k v := by
  refine .bind (atDelimiter_echo h fun x b hx told => ?_)
  refine Echo.ite_read told (echoes_block he s t) hk h (fun _ => ?_) fun _ => .unexpected
  rintro ⟨span, body⟩ ⟨span', body'⟩ u v hbody huv
  refine made_echo (huv.mono (by omega) (Nat.le_refl k)) fun _ _ => ?_
  rw [Node.erase, Node.erase, hparams, hbody]

theorem functionFrom_echo {start start' : Token} {name : Option String} (hk : k ≤ K + 1)
    (h : s.Along c n k t) :
    Echo c (functionFrom expression start name) (functionFrom expression' start' name) s t
      fun x y u v => y.erase = x.erase ∧ u.Along c n k v := by
  refine .bind (delimiter_echo h fun _ _ u v _ _ _ huv => ?_)
  refine listed_echo (f := Param.erase) (fun m _ s t hst => echoes_parameter s t (Nat.le_refl _) hst)
    (fun params params' u v hparams huv => ?_) huv
  refine .bind (atOperator_echo huv fun x b hx told => ?_)
  refine Echo.ite_take told huv hx Token.isOperator_content (fun _ _ u v _ huv => ?_) fun _ => ?_
  · refine .bind (.mono (type_echo huv) ?_)
    rintro ty _ u v ⟨rfl, huv⟩
    refine .bind (.pure id (.mono (functionBody_echo he hparams (by omega) huv) ?_))
    exact fun x y u v ⟨hxy, huv⟩ => ⟨hxy, huv.mono (by omega) (by omega)⟩
  · refine .bind (.pure id (.mono (functionBody_echo he hparams (by omega) huv) ?_))
    exact fun x y u v ⟨hxy, huv⟩ => ⟨hxy, huv.mono (by omega) (by omega)⟩

theorem echoes_function :
    Echoes Node.erase (K + 1) (function expression) (function expression') := by
  intro s t c n k hk h
  rw [function_eq, function_eq]
  refine .bind (keyword_echo h fun start start' u v _ _ _ huv => ?_)
  refine .bind (peek_echo huv fun x y hx seen => ?_)
  refine Echo.ite_take (seen.told Token.telling_isPlainWord) huv hx
    (fun word => by simp [Token.isPlainWord_content word]) (fun _ y u v hy huv => ?_) fun _ => ?_
  · rw [hy]
    refine .bind (.pure id (.mono (functionFrom_echo he (by omega) huv) ?_))
    exact fun x y u v ⟨hxy, huv⟩ => ⟨hxy, huv.mono (by omega) (by omega)⟩
  · refine .bind (.pure id (.mono (functionFrom_echo he (by omega) huv) ?_))
    exact fun x y u v ⟨hxy, huv⟩ => ⟨hxy, huv.mono (by omega) (by omega)⟩

theorem echoes_return : Echoes Node.erase (K + 1) (return_ expression) (return_ expression') := by
  intro s t c n k hk h
  refine .bind (keyword_echo h fun start start' u v _ _ _ huv => ?_)
  refine .bind (peek_echo huv fun x y hx seen => ?_)
  refine Echo.ite_read (seen.told Token.telling_startsExpression) (he u v) (by omega) huv
    (fun _ x x' u v hx huv => ?_) fun _ => ?_
  · refine .bind (.pure id (made_echo (huv.mono (by omega) (by omega)) fun _ _ => ?_))
    rw [Node.erase, Node.erase, hx]
  · exact .bind (.pure id (made_echo (huv.mono (Nat.le_refl _) (by omega)) fun _ _ => rfl))

theorem echoes_define : Echoes Node.erase (K + 1) (define expression) (define expression') := by
  intro s t c n k hk h
  refine .bind (keyword_echo h fun start start' u v _ _ _ huv => ?_)
  refine look_echo huv fun x z r hx alike right _ => ?_
  obtain ⟨content, lexeme, place⟩ := x
  obtain ⟨content', lexeme', place'⟩ := z
  cases content with
  | «variable» name =>
    obtain rfl := (alike.content_iff (c := .variable name) rfl).mpr rfl
    refine taken_echo huv hx nofun right fun _ u v _ huv => ?_
    refine .bind (.mono (declaredType_echo huv) ?_)
    rintro declared _ u v ⟨rfl, huv⟩
    refine .bind (operator_echo huv fun _ _ u v _ _ _ huv => ?_)
    refine .bind (.mono (he u v (by omega) huv) fun value value' u v ⟨hvalue, huv⟩ => ?_)
    refine made_echo (huv.mono (by omega) (by omega)) fun _ _ => ?_
    rw [Node.erase, Node.erase, hvalue]
  | _ => exact .unexpected

variable (sound : ∀ (w : View) r,
  (program expression).run (.ofLexed w.tokens false 0) = .ok r → w.tokens.error = none)
include sound

/-- The parts of two strings that say the same. -/
theorem stringPart_echo {p q : StringPart} (kin : p.Kin q)
    (contained : ∀ w span, p = .substitution w span → w.Bounded ∧ w.Contained)
    (within : ∀ w span, q = .substitution w span → Token.Within K w.tokens.tokens) :
    Echo c (stringPart expression p) (stringPart expression' q) s t fun x y u v =>
      Node.eraseParts [y] = Node.eraseParts [x] ∧ u = s ∧ v = t := by
  cases kin with
  | text s => exact .pure id ⟨rfl, rfl, rfl⟩
  | «variable» => exact .pure id ⟨rfl, rfl, rfl⟩
  | @substitution p p' inside beyond beyond' span span' =>
    obtain ⟨bounded, contained⟩ := contained _ _ rfl
    have complete : Echo ⟨[], 0⟩ (program expression) (program expression')
        (.ofLexed (View.tokens ⟨p, inside, ')' :: beyond⟩) false 0)
        (.ofLexed (View.tokens ⟨p', inside, ')' :: beyond'⟩) false 0) fun r r' _ _ =>
          Node.eraseAll r'.2 = Node.eraseAll r.2 := by
      intro r u hr
      obtain ⟨ps, p, q, hv, hw, kins⟩ := View.tokens_kin bounded (sound _ _ hr)
        (w := ⟨p', inside, ')' :: beyond'⟩) rfl (by rintro _ ⟨⟩; decide)
      have kin := Stream.kin_ofLexed hv hw kins contained (within _ _ rfl)
      obtain ⟨r', v, hr', same⟩ := program_echo he (Nat.le_refl K) rfl kin r u hr
      exact ⟨fun lost => absurd lost (Stream.not_lost_of_nil rfl _), r', v, same, .inl hr'⟩
    refine .bind (.mono (Trails.nested (Q := fun r r' u v =>
      Node.eraseAll r'.1.2 = Node.eraseAll r.1.2 ∧ u = s ∧ v = t)
      (complete.mono fun _ _ _ _ same => ⟨same, rfl, rfl⟩) (Stream.not_lost_of_nil rfl)) ?_)
    rintro ⟨⟨_, ns⟩, _⟩ ⟨⟨_, ns'⟩, _⟩ _ _ ⟨same, rfl, rfl⟩
    refine .pure id ⟨?_, rfl, rfl⟩
    simp only [Node.eraseParts, Node.erase, same]

theorem stringParts_echo {ps qs : List StringPart} (kin : List.Forall₂ StringPart.Kin ps qs)
    (contained : ∀ w span, .substitution w span ∈ ps → w.Bounded ∧ w.Contained)
    (within : ∀ w span, .substitution w span ∈ qs → Token.Within K w.tokens.tokens) :
    Echo c (ps.mapM (stringPart expression)) (qs.mapM (stringPart expression')) s t
      fun xs ys u v => Node.eraseParts ys = Node.eraseParts xs ∧ u = s ∧ v = t := by
  induction kin with
  | nil => exact .pure id ⟨rfl, rfl, rfl⟩
  | @cons p q ps qs hpq _ ih =>
    rw [List.mapM_cons, List.mapM_cons]
    refine .bind (.mono (stringPart_echo he sound hpq
      (fun w span hw => contained w span (hw ▸ List.mem_cons_self))
      fun w span hw => within w span (hw ▸ List.mem_cons_self)) ?_)
    rintro x y _ _ ⟨hxy, rfl, rfl⟩
    refine .bind (.mono (ih (fun w span hw => contained w span (List.mem_cons_of_mem _ hw))
      fun w span hw => within w span (List.mem_cons_of_mem _ hw)) ?_)
    rintro xs ys _ _ ⟨hxs, rfl, rfl⟩
    refine .pure id ⟨?_, rfl, rfl⟩
    cases x <;> cases y <;> simp_all [Node.eraseParts]

theorem string_echo {span span' : Span} {ps qs : List StringPart}
    (kin : List.Forall₂ StringPart.Kin ps qs)
    (contained : ∀ w span, .substitution w span ∈ ps → w.Bounded ∧ w.Contained)
    (within : ∀ w span, .substitution w span ∈ qs → Token.Within K w.tokens.tokens)
    (h : s.Along c n k t) :
    Echo c (string expression span ps) (string expression' span' qs) s t fun x y u v =>
      y.erase = x.erase ∧ u.Along c n k v := by
  have texts : qs.map StringPart.text? = ps.map StringPart.text? := by
    induction kin with
    | nil => rfl
    | @cons p q ps qs hpq _ ih =>
      rw [List.map_cons, List.map_cons,
        ih (fun w span hw => contained w span (List.mem_cons_of_mem _ hw))
          fun w span hw => within w span (List.mem_cons_of_mem _ hw)]
      cases hpq <;> rfl
  rw [string_eq, string_eq, texts]
  split_ifs
  · exact .pure id ⟨rfl, h⟩
  · refine .bind (.mono (stringParts_echo he sound kin contained within) ?_)
    rintro xs ys _ _ ⟨hxs, rfl, rfl⟩
    refine .pure id ⟨?_, h⟩
    rw [Node.erase, Node.erase, hxs]

theorem echoes_primary :
    Echoes Node.erase (K + 1) (primary expression) (primary expression') := by
  intro s t c n k hk h
  refine look_echo h fun x z r hx alike right away => ?_
  have kept {u v : Stream} (huv : u.Along c (n - 1) (k - 1) v) : u.Along c (n - 1) k v :=
    huv.mono (Nat.le_refl _) (Nat.sub_le k 1)
  obtain ⟨content, lexeme, place⟩ := x
  obtain ⟨content', lexeme', place'⟩ := z
  obtain rfl : lexeme' = lexeme := alike.lexeme
  cases content with
  | integer i =>
    obtain rfl := (alike.content_iff (c := .integer i) rfl).mpr rfl
    exact taken_echo h hx nofun right fun _ u v _ huv => .pure id ⟨rfl, kept huv⟩
  | float x =>
    obtain rfl := (alike.content_iff (c := .float x) rfl).mpr rfl
    exact taken_echo h hx nofun right fun _ u v _ huv => .pure id ⟨rfl, kept huv⟩
  | «variable» name =>
    obtain rfl := (alike.content_iff (c := .variable name) rfl).mpr rfl
    exact taken_echo h hx nofun right fun _ u v _ huv => .pure id ⟨rfl, kept huv⟩
  | defaulted name default =>
    obtain rfl := (alike.content_iff (c := .defaulted name default) rfl).mpr rfl
    exact taken_echo h hx nofun right fun _ u v _ huv => .pure id ⟨rfl, kept huv⟩
  | string ps =>
    by_cases brink : s.Brink c 0
    · refine Echo.self (fun x u hu => ?_) fun x u lost => ⟨rfl, .inr lost⟩
      rw [StateT.run_bind] at hu
      obtain ⟨⟨y, v⟩, hy, hu⟩ := bind_eq_ok hu
      exact string_stays hu ▸ loses_advance hx nofun brink y v hy
    · obtain ⟨next, ⟨kin, -⟩, contained⟩ := away brink
      have within := (h.resolve_right fun lost => brink (lost.brink 0)).within
      cases kin with
      | plain none => cases none
      | string parts =>
        obtain ⟨-, j, hj, nested⟩ := next.within nofun within
        refine taken_echo h hx nofun right fun _ u v _ huv => ?_
        exact string_echo he sound parts (fun w span hw => contained nofun ps w span rfl hw)
          (fun w span hw => (nested w span hw).mono (by omega)) (kept huv)
  | delimiter =>
    obtain rfl := (alike.content_iff (c := .delimiter) rfl).mpr rfl
    dsimp only at right ⊢
    split_ifs at right ⊢
    · exact (echoes_parenthesized he s t).read hk h right
    · exact (echoes_substitution he s t).read hk h right
    · exact (echoes_blockNode he s t).read hk h right
    · exact .unexpected
  | word =>
    obtain rfl := (alike.content_iff (c := .word) rfl).mpr rfl
    dsimp only at right ⊢
    split_ifs at right ⊢
    · exact taken_echo h hx nofun right fun _ u v _ huv => .pure id ⟨rfl, kept huv⟩
    · exact (echoes_conditional he s t).read hk h right
    · exact (echoes_function he s t).read hk h right
    · exact (echoes_return he s t).read hk h right
    · exact (echoes_define he s t).read hk h right
    · exact .unexpected
  | operator => exact .unexpected
  | endOfInput => exact .unexpected

/-! ## Commands and calls -/

theorem echoes_argument :
    Echoes Node.erase (K + 1) (argument expression) (argument expression') := by
  intro s t c n k hk h
  refine look_echo h fun x z r hx alike right _ => ?_
  rw [alike.isPlainWord, alike.isDelimiter, alike.lexeme] at right
  split_ifs at right ⊢ with word
  · exact taken_echo h hx (by simp [Token.isPlainWord_content word]) right fun _ u v _ huv =>
      .pure id ⟨rfl, huv.mono (Nat.le_refl _) (Nat.sub_le k 1)⟩
  · exact (echoes_parenthesized he s t).read hk h right
  · exact (echoes_primary he sound s t).read hk h right

omit he sound in
/-- Whether a binding comes next. Where the second text may not have all of its tokens, it need not
see it. -/
theorem atBinding_echo {Q : Bool → Bool → Stream → Stream → Prop} (h : s.Along c n k t)
    (hQ : ∀ b b', (s.Kin c n k t → b = true → ∃ key eq, s.Next key ∧
      key.content ≠ .endOfInput ∧ s.peek 1 = .ok eq ∧ eq.content ≠ .endOfInput) →
      s.Told c 2 b b' → Q b b' s t) : Echo c atBinding atBinding s t Q := by
  rcases h with kin | lost
  · obtain ⟨key, hkey⟩ := kin.peeks 0
    obtain ⟨eq, heq⟩ := kin.peeks 1
    obtain ⟨value, hvalue⟩ := kin.peeks 2
    obtain ⟨key', hkey', seen⟩ := kin.peeked hkey
    obtain ⟨eq', heq', seen₁⟩ := kin.peeked heq
    obtain ⟨value', hvalue', seen₂⟩ := kin.peeked hvalue
    have told : s.Told c 2 (binds key eq value) (binds key' eq' value') := by
      have never (spent : value'.content = .endOfInput) : binds key' eq' value' = false := by
        rw [binds, Token.telling_startsArgument.never spent, Bool.and_false, Bool.and_false]
      rcases seen₂ with ⟨away, -, kin₂, -⟩ | ⟨brink, spent⟩
      · have away₁ : ¬ s.Brink c 1 := fun brink => away (brink.mono (by omega))
        have away₀ : ¬ s.Brink c 0 := fun brink => away (brink.mono (by omega))
        have kin₁ := (seen₁.resolve_right fun brink => away₁ brink.1).2.2.1.resembles
        have kin₀ := (seen.resolve_right fun brink => away₀ brink.1).2.2.1.resembles
        refine .inl ?_
        by_cases spent : value'.content = .endOfInput
        · have none := Token.telling_startsArgument.never
            ((kin₂.resembles.content_iff (c := .endOfInput) rfl).mp spent)
          rw [never spent, binds, none, Bool.and_false, Bool.and_false]
        have touch₁ : adjacent eq' value' = adjacent eq value :=
          kin.touching heq hvalue heq' hvalue' spent
        rw [binds, binds, kin₀.isPlainWord, kin₀.lexeme, kin₁.isOperator, touch₁,
          kin₂.resembles.startsArgument]
        by_cases assign : eq.isOperator "="
        · have real := Token.isOperator_content ((kin₁.isOperator "=").trans assign)
          rw [kin.touching hkey heq hkey' heq' real]
        · rw [Bool.not_eq_true] at assign
          simp [assign]
      · exact .inr ⟨brink, never spent⟩
    rintro b u hb
    rw [run_atBinding hkey heq hvalue] at hb
    cases hb
    refine ⟨id, _, t, hQ _ _ (fun _ bound => ⟨key, eq, hkey, ?_, heq, ?_⟩) told,
      .inl (run_atBinding hkey' heq' hvalue')⟩
    · simp only [binds, Bool.and_eq_true] at bound
      simp [Token.isPlainWord_content bound.1.1.1]
    · simp only [binds, Bool.and_eq_true] at bound
      exact Token.isOperator_content bound.1.2.1
  · rintro b u hb
    obtain rfl : u = s := (atBinding_wp (Q := fun _ u => u = s) fun _ _ _ _ => rfl).of_ok hb
    exact ⟨id, false, t, hQ b false (fun kin => absurd lost kin.not_lost)
      (.inr ⟨lost.brink 2, rfl⟩), .inr lost⟩

theorem binding_echo (hk : k ≤ K + 1) (h : s.Along c n k t)
    (first : s.Kin c n k t → ∃ key eq, s.Next key ∧ key.content ≠ .endOfInput ∧
      s.peek 1 = .ok eq ∧ eq.content ≠ .endOfInput) :
    Echo c (binding expression) (binding expression') s t fun b b' u v =>
      Node.eraseBindings [b'] = Node.eraseBindings [b] ∧ u.Along c (n - 3) k v := by
  refine .bind (pop_echo h (fun kin => ?_) fun key key' v hkey hlexeme _ huv => ?_)
  · obtain ⟨key, -, hkey, real, -⟩ := first kin
    exact ⟨key, hkey, real⟩
  refine .bind (pop_echo huv (fun popped => ?_) fun _ _ v _ _ _ huv => ?_)
  · rcases h with kin | lost
    · obtain ⟨_, eq, next, real, heq, assign⟩ := first kin
      cases hkey.symm.trans next
      exact ⟨eq, Stream.next_pop hkey real heq popped.more.1, assign⟩
    · exact absurd (lost.reads (Stream.reads_pop hkey)) popped.not_lost
  refine .bind (.mono (echoes_argument he sound _ v (by omega) huv) ?_)
  rintro value value' u v ⟨hvalue, huv⟩
  refine .bind (spanFrom_echo fun _ _ => .pure id ⟨?_, huv.mono (by omega) (by omega)⟩)
  simp only [Node.eraseBindings, hvalue, hlexeme]


omit sound in
theorem echoes_callArguments :
    Echoes Node.eraseAll (K + 1) (callArguments expression) (callArguments expression') := by
  intro s t c n k hk h
  refine .bind (delimiter_echo h fun _ _ u v _ _ _ huv => ?_)
  refine listed_echo (f := Node.erase) (fun m _ s t hst => he s t (by omega) hst)
    (fun ns ns' u v hns huv => .pure id ⟨?_, huv.mono (by omega) (by omega)⟩) huv
  rw [Node.eraseAll_eq_map, Node.eraseAll_eq_map, hns]

theorem arguments_echo (hk : k ≤ K + 1) (h : s.Along c n k t) :
    Echo c (arguments expression) (arguments expression') s t fun ns ns' u v =>
      Node.eraseAll ns' = Node.eraseAll ns ∧ u.Along c n k v := by
  refine .mono (many_echo (f := Node.erase) h fun m _ u v huv => ?_) fun ns ns' u v ⟨hns, huv⟩ =>
    ⟨by rw [Node.eraseAll_eq_map, Node.eraseAll_eq_map, hns], huv⟩
  refine .bind (peek_echo huv fun x y hx seen => ?_)
  exact Echo.ite_read (seen.told Token.telling_startsArgument) (echoes_argument he sound u v) hk huv
    (fun _ arg arg' u v harg huv => .pure id ⟨harg, huv⟩) fun _ => .pure id huv

theorem named_echo {start start' name name' : Token} {env env' : List EnvBinding}
    (hname : name'.lexeme = name.lexeme)
    (henv : Node.eraseBindings env' = Node.eraseBindings env)
    (touch : ¬ s.Brink c 0 → ∀ x y, s.Next x → t.Next y → y.content ≠ .endOfInput →
      adjacent name' y = adjacent name x) (hk : k ≤ K + 1) (h : s.Along c n k t) :
    Echo c (named expression start name env) (named expression' start' name' env') s t
      fun x y u v => y.erase = x.erase ∧ u.Along c n k v := by
  refine .bind (peek_echo h fun next next' hnext seen => ?_)
  have told : s.Told c 0 (next.isDelimiter "(" && adjacent name next)
      (next'.isDelimiter "(" && adjacent name' next') := by
    rcases seen with ⟨away, hnext', kin, -⟩ | ⟨brink, spent⟩
    · refine .inl ?_
      rw [kin.resembles.isDelimiter]
      by_cases opens : next.isDelimiter "("
      · rw [touch away next next' hnext hnext' (kin.resembles.real (Token.isDelimiter_content opens))]
      · rw [Bool.not_eq_true] at opens
        rw [opens, Bool.false_and, Bool.false_and]
    · exact .inr ⟨brink, by simp [Token.isDelimiter, spent]⟩
  dsimp only
  refine Echo.ite_read told (echoes_callArguments he s t) hk h (fun _ args args' u v hargs huv => ?_)
    fun _ => ?_
  · refine made_echo (huv.mono (Nat.sub_le n 1) (Nat.le_refl k)) fun _ _ => ?_
    rw [Node.erase, Node.erase, henv, hargs, hname]
  · refine .bind (.mono (arguments_echo he sound hk h) ?_)
    rintro args args' u v ⟨hargs, huv⟩
    refine made_echo huv fun _ _ => ?_
    rw [Node.erase, Node.erase, henv, hargs, hname]

omit he sound in
theorem eraseBindings_append (bs cs : List EnvBinding) :
    Node.eraseBindings (bs ++ cs) = Node.eraseBindings bs ++ Node.eraseBindings cs := by
  induction bs with
  | nil => rfl
  | cons b bs ih =>
    obtain ⟨span, name, value⟩ := b
    rw [List.cons_append, Node.eraseBindings, Node.eraseBindings, ih, List.cons_append]

omit he sound in
theorem isEmpty_eraseBindings (bs : List EnvBinding) :
    (Node.eraseBindings bs).isEmpty = bs.isEmpty := by
  rcases bs with - | ⟨⟨-, -, -⟩, -⟩ <;> rfl

theorem prefixes_echo (hk : k ≤ K + 1) (h : s.Along c n k t) :
    Echo c (prefixes expression) (prefixes expression') s t fun bs bs' u v =>
      Node.eraseBindings bs' = Node.eraseBindings bs ∧ u.Along c n k v ∧ (bs = [] → u = s) := by
  refine iterate_trails (R := fun m bs bs' u v =>
    Node.eraseBindings bs' = Node.eraseBindings bs ∧ u.Along c (min m n) k v ∧
      (bs = [] → u = s))
    (fun bs bs' u v huv => ?_) (fun m bs bs' u v huv => ?_) ⟨rfl, h.rebound, fun _ => rfl⟩
  · rw [Nat.zero_min] at huv
    exact huv.2.1.lost_zero
  · obtain ⟨hbs, huv, first⟩ := huv
    refine Trails.bind (F := Stream.Lost c) (.bind (atBinding_echo huv fun b b' next told => ?_))
    refine Echo.ite told (fun found r right => ?_) fun _ =>
      .pure id (.pure id ⟨hbs, huv.mono (Nat.min_le_right m n) (Nat.le_refl k), first⟩)
    -- what is seen of the binding is in both texts, or the first reader is lost when it is read
    have ahead (l : Nat) (kin : u.Kin c l k v) := next (huv.resolve_right kin.not_lost) found
    refine Echo.read_bind huv (fun l h => binding_echo he sound hk h (ahead l)) right
      fun b b' u v hb huv => ?_
    refine .pure id (.pure id ⟨?_, huv.mono (by omega) (Nat.le_refl k), by simp⟩)
    rw [eraseBindings_append, eraseBindings_append, hbs, hb]

theorem command_echo {start start' : Token} (hstart : s.Next start) (word : start.isPlainWord) :
    EchoesAt Node.erase (K + 1) (command expression start) (command expression' start') s t := by
  intro c n k hk h
  refine .bind (.mono (prefixes_echo he sound hk h) ?_)
  rintro env env' u v ⟨henv, huv, first⟩
  refine .bind (peek_echo huv fun x y hx seen => ?_)
  have empty : env'.isEmpty = env.isEmpty := by
    rw [← isEmpty_eraseBindings, henv, isEmpty_eraseBindings]
  rw [empty]
  by_cases called : env.isEmpty || x.isPlainWord
  · have plain := Token.isPlainWord_content (isPlainWord_name hstart word first hx called)
    rw [if_pos called]
    refine Echo.taken hx (by simp [plain]) (fun away => if_pos ?_) (pop_echo huv
      (fun _ => ⟨x, hx, by simp [plain]⟩) fun x' y' w hx' hlexeme there hw => ?_)
    · have kin := (seen.resolve_right fun brink => away brink.1).2.2.1
      rwa [kin.resembles.isPlainWord]
    · cases hx.symm.trans hx'
      refine .mono (named_echo he sound hlexeme henv (fun far z z' hz hz' real => ?_)
        (by omega) hw) fun a b u v ⟨hab, huv⟩ => ⟨hab, huv.mono (Nat.le_refl _) (Nat.sub_le k 1)⟩
      have real' : x.content ≠ .endOfInput := by simp [plain]
      have away : ¬ u.Brink c 0 := fun brink => far ((brink.reads (hx.reads real')).brink 0)
      have kin := huv.resolve_right fun lost => away (lost.brink 0)
      have popped := hw.resolve_right fun lost => far (lost.brink 0)
      obtain ⟨hy, rfl⟩ := there away
      exact kin.touching_pop popped hx real' hy hz hz' real
  · rw [if_neg called]
    exact .throw

theorem echoes_application :
    Echoes Node.erase (K + 1) (application expression) (application expression') := by
  intro s t c n k hk h
  rw [application_eq, application_eq]
  refine look_echo h fun x z r hx alike right _ => ?_
  rw [alike.isPlainWord] at right
  split_ifs at right ⊢ with word
  · exact (command_echo he sound hx word).read hk h right
  · exact (echoes_primary he sound s t).read hk h right

theorem echoes_postfixCalls :
    Echoes Node.erase (K + 1) (postfixCalls expression) (postfixCalls expression') := by
  intro s t c n k hk h
  refine .bind (peek_echo h fun start start' _ _ => ?_)
  refine .bind (.mono (echoes_application he sound s t hk h) fun x x' u v ⟨hx, huv⟩ => ?_)
  refine iterate_trails (R := fun m callee callee' u v =>
    callee'.erase = callee.erase ∧ u.Along c (min m (n - 1)) k v)
    (fun callee callee' u v hc => ?_) (fun m callee callee' u v hc => ?_) ⟨hx, huv.rebound⟩
  · have hc := hc.2
    rw [Nat.zero_min] at hc
    exact hc.lost_zero
  · obtain ⟨hcallee, huv⟩ := hc
    refine .bind (atDelimiter_echo huv fun x b _ told => ?_)
    refine Echo.ite_read told (echoes_callArguments he u v) hk huv
      (fun _ args args' u v hargs huv => ?_)
      fun _ => .pure id ⟨hcallee, huv.mono (Nat.min_le_right m (n - 1)) (Nat.le_refl k)⟩
    refine .bind (spanFrom_echo fun _ _ => .pure id ⟨?_, huv.mono (by omega) (Nat.le_refl k)⟩)
    rw [Node.erase, Node.erase, hcallee, hargs]

/-! ## Operators -/

theorem echoes_signed : Echoes Node.erase (K + 1) (signed expression) (signed expression') := by
  intro s t c n k hk h
  refine .bind (.mono (many_echo (f := Token.lexeme) h fun m _ u v huv => ?_) ?_)
  · refine .bind (atOperator_echo huv fun x b hx told => ?_)
    refine .bind (atOperator_echo huv fun y b' hy told' => ?_)
    cases hx.symm.trans hy
    refine Echo.ite_take (told.or told') huv hx (fun sign => ?_) (fun _ _ u v hlexeme huv => ?_)
      fun _ => .pure id huv
    · rw [Bool.or_eq_true] at sign
      exact sign.elim Token.isOperator_content Token.isOperator_content
    · exact .pure id ⟨hlexeme, huv.mono (Nat.le_refl _) (Nat.sub_le k 1)⟩
  · rintro signs signs' u v ⟨hsigns, huv⟩
    refine .bind (.mono (echoes_postfixCalls he sound u v hk huv) fun x x' u v hx => ?_)
    induction signs generalizing signs' with
    | nil =>
      obtain rfl := List.map_eq_nil_iff.mp hsigns
      exact .pure id hx
    | cons sign signs ih =>
      obtain ⟨sign', signs', rfl, hlexeme, hsigns⟩ := List.map_eq_cons_iff.mp hsigns
      rw [List.foldrM_cons, List.foldrM_cons]
      refine .bind (.mono (ih signs' hsigns) ?_)
      rintro operand operand' u v ⟨hoperand, huv⟩
      refine made_echo huv fun _ _ => ?_
      rw [Node.erase, Node.erase, hoperand, hlexeme]

end

theorem atOneOf_echo {ops : List BinaryOperator} {Q : Bool → Bool → Stream → Stream → Prop}
    (h : s.Along c n k t) (hQ : ∀ x found found', s.Next x →
      (found = true → x.content ≠ .endOfInput) → s.Told c 0 found found' → Q found found' s t) :
    Echo c (atOneOf ops) (atOneOf ops) s t Q := by
  have tells : Token.Telling fun x => ops.any fun op => x.isOperator op.symbol :=
    ⟨fun alike => by simp only [alike.isOperator], fun spent => by
      simp [(Token.telling_isOperator _).never spent]⟩
  exact test_echo tells h fun x b hx told => hQ x _ b hx tells.real told

section

variable {operand operand' : Parser Node} (he : Echoes Node.erase K operand operand')
include he

theorem echoes_chain (ops : List BinaryOperator) :
    Echoes Node.erase K (chain ops operand) (chain ops operand') := by
  intro s t c n k hk h
  refine .bind (peek_echo h fun start start' _ _ => ?_)
  refine .bind (.mono (he s t hk h) fun x x' u v ⟨hx, huv⟩ => ?_)
  refine iterate_trails (R := fun m left left' u v =>
    left'.erase = left.erase ∧ u.Along c (min m (n - 1)) k v)
    (fun left left' u v hl => ?_) (fun m left left' u v hl => ?_) ⟨hx, huv.rebound⟩
  · have hl := hl.2
    rw [Nat.zero_min] at hl
    exact hl.lost_zero
  · obtain ⟨hleft, huv⟩ := hl
    refine .bind (atOneOf_echo huv fun x found found' hx real told => ?_)
    refine Echo.ite_take told huv hx real (fun _ op op' v hlexeme huv => ?_)
      fun _ => .pure id ⟨hleft, huv.mono (Nat.min_le_right m (n - 1)) (Nat.le_refl k)⟩
    refine .bind (.mono (he _ v (by omega) huv) fun right right' u v ⟨hright, huv⟩ => ?_)
    refine .bind (spanFrom_echo fun _ _ => .pure id ⟨?_, huv.mono (by omega) (by omega)⟩)
    rw [Node.erase, Node.erase, hleft, hright, hlexeme]

theorem echoes_comparison :
    Echoes Node.erase K (comparison operand) (comparison operand') := by
  intro s t c n k hk h
  refine .bind (peek_echo h fun start start' _ _ => ?_)
  refine .bind (.mono (he s t hk h) fun left left' u v ⟨hleft, huv⟩ => ?_)
  refine .bind (atOneOf_echo huv fun x found found' hx real told => ?_)
  refine Echo.ite_take told huv hx real (fun _ op u v hlexeme huv => ?_)
    fun _ => .pure id ⟨hleft, huv⟩
  refine .bind (.mono (he u v (by omega) huv) fun right right' u v ⟨hright, huv⟩ => ?_)
  refine .bind (spanFrom_echo fun _ _ => ?_)
  refine .bind (atOneOf_echo huv fun x found found' hx real told => ?_)
  refine Echo.ite told (fun _ r _ a w ha => ?_) fun _ => ?_
  · rw [StateT.run_bind] at ha
    obtain ⟨_, -, ha⟩ := bind_eq_ok ha
    cases ha
  · refine .pure id ⟨?_, huv.mono (by omega) (by omega)⟩
    rw [Node.erase, Node.erase, hleft, hright, hlexeme]

theorem echoes_operation : Echoes Node.erase K (operation operand) (operation operand') :=
  echoes_chain (echoes_chain (echoes_comparison (echoes_chain (echoes_chain he _) _)) _) _

end

/-! ## Expressions -/

/-- A variable and the operator behind it. -/
theorem assign_echo (he : Echoes Node.erase K expression expression') {x eq : Token} {name : String}
    (hx : s.Next x) (realx : x.content ≠ .endOfInput) (heq : s.peek 1 = .ok eq)
    (real : eq.content ≠ .endOfInput) (hk : k ≤ K + 1) (h : s.Along c n k t) :
    Echo c (assign expression name) (assign expression' name) s t fun a b u v =>
      b.erase = a.erase ∧ u.Along c (n - 2) k v := by
  refine .bind (pop_echo h (fun _ => ⟨x, hx, realx⟩) fun start start' v hstart _ _ huv => ?_)
  cases hx.symm.trans hstart
  refine .bind (pop_echo huv (fun kin => ⟨eq, Stream.next_pop hx realx heq kin.more.1, real⟩)
    fun _ _ v _ _ _ huv => ?_)
  refine .bind (.mono (he _ v (by omega) huv) fun value value' u v ⟨hvalue, huv⟩ => ?_)
  refine made_echo (huv.mono (by omega) (by omega)) fun _ _ => ?_
  rw [Node.erase, Node.erase, hvalue]

theorem echoes_expressionWith (he : Echoes Node.erase K expression expression')
    (sound : ∀ (w : View) r,
      (program expression).run (.ofLexed w.tokens false 0) = .ok r → w.tokens.error = none) :
    Echoes Node.erase (K + 1) (expressionWith expression) (expressionWith expression') := by
  intro s t c n k hk h
  have operations := echoes_operation (echoes_signed he sound) s t
  refine look_echo h fun x z r hx alike right _ => ?_
  rw [alike.isKeyword] at right
  split_ifs at right ⊢
  · exact (echoes_define he s t).read hk h right
  obtain ⟨content, lexeme, place⟩ := x
  obtain ⟨content', lexeme', place'⟩ := z
  cases content with
  | «variable» name =>
    obtain rfl := (alike.content_iff (c := .variable name) rfl).mpr rfl
    have looked : EchoesAt Node.erase (K + 1)
        (peek 1 >>= fun eq => if eq.isOperator "=" then assign expression name
          else operation (signed expression))
        (peek 1 >>= fun eq => if eq.isOperator "=" then assign expression' name
          else operation (signed expression')) s t := by
      intro c n k hk h
      refine .bind (peekAt_echo h fun eq eq' heq seen => ?_)
      refine Echo.ite (seen.told (Token.telling_isOperator "=")) (fun equal r right => ?_)
        fun _ => operations hk h
      refine .mono (Echo.read h (fun m h => assign_echo he hx nofun heq
        (Token.isOperator_content equal) hk h) right) fun a b u v ⟨hab, huv⟩ => ?_
      exact ⟨hab, huv.mono (by omega) (Nat.le_refl k)⟩
    exact looked.read hk h right
  | _ =>
    refine operations.read hk h fun away => ?_
    rcases alike.content with same | ⟨-, qs, -, same⟩
    all_goals
      obtain rfl := same
      exact right away

/-- Expressions are read alike, whatever the bound on the depth of the first reader, if the second
text nests no deeper than the bound of the second. -/
theorem echoes_expressionUpTo (j K : Nat) :
    Echoes Node.erase K (expressionUpTo j) (expressionUpTo K) := by
  induction j generalizing K with
  | zero => exact fun _ _ _ _ _ _ _ => .throw
  | succ j ih =>
    cases K with
    | zero =>
      intro s t c n k hk h
      by_cases brink : s.Brink c 0
      · exact (echoes_expressionWith (ih 0) (fun _ _ => sound_of_program) s t).read
          (hk.trans (Nat.zero_le 1)) h fun away => absurd brink away
      · have kin := h.resolve_right fun lost => brink (lost.brink 0)
        have ended := (kin.mono (Nat.le_refl n) hk).over brink
        exact fun a u ha => absurd ha (stalls_expressionUpTo (j + 1) s ended (a, u))
    | succ K => exact echoes_expressionWith (ih K) fun _ _ => sound_of_program

end Parser

end Sigil
