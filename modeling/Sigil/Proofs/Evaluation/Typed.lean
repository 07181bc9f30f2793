import Mathlib.Tactic.SplitIfs
import Sigil.Proofs.Evaluation.Rules
import Sigil.Proofs.Typing.Agreement

/-!
# Inferred types in evaluation

A tree of inferred types is evaluated to a value of its type, or fails for
what the numbers in it are (`evaluate_types`), where the frames agree with the
scopes; afterwards they agree again. It nests as deep as the tree is high.

`evaluate_typed` puts it together with what the checker finds out: a tree
without functions and commands that was checked without the report of a type
or a name, and of which every node has a static type, never fails for the
kinds of its values or for a name.
-/

namespace Sigil

/-! ## Height -/

namespace Node

mutual

/-- How deep the nodes of a tree nest. -/
def height : Node → Nat
  | literal .. | reference .. | parameter _ | blank _ | ret _ none => 1
  | substitution _ body | block _ body | program _ body => heightAll body + 1
  | interpolation _ parts => heightParts parts + 1
  | binding (.mk _ _ value) => height value + 1
  | command _ env _ args => max (heightBindings env + 1) (heightAll args) + 1
  | call _ callee args => max (height callee) (heightAll args) + 1
  | conditional _ condition thenBranch none => max (height condition) (height thenBranch) + 1
  | conditional _ condition thenBranch (some elseBranch) =>
    max (height condition) (max (height thenBranch) (height elseBranch)) + 1
  | function _ _ _ _ _ body => heightAll body + 2
  | binary _ _ left right => max (height left) (height right) + 1
  | unary _ _ operand => height operand + 1
  | ret _ (some value) | define _ _ _ value | assign _ _ value => height value + 1

@[inherit_doc height]
def heightAll : List Node → Nat
  | [] => 0
  | n :: ns => max (height n) (heightAll ns)

@[inherit_doc height]
def heightBindings : List EnvBinding → Nat
  | [] => 0
  | .mk _ _ value :: bs => max (height value) (heightBindings bs)

@[inherit_doc height]
def heightParts : List Part → Nat
  | [] => 0
  | .text _ :: ps => heightParts ps
  | .node n :: ps => max (height n) (heightParts ps)

end

theorem height_le_heightAll {n : Node} {ns : List Node} (h : n ∈ ns) :
    n.height ≤ heightAll ns := by
  induction ns with
  | nil => cases h
  | cons m ns ih =>
    rw [heightAll]
    rcases List.mem_cons.mp h with rfl | h
    · exact Nat.le_max_left _ _
    · exact Nat.le_trans (ih h) (Nat.le_max_right _ _)

theorem height_le_heightParts {n : Node} {ps : List Part} (h : .node n ∈ ps) :
    n.height ≤ heightParts ps := by
  induction ps with
  | nil => cases h
  | cons p ps ih =>
    cases p with
    | text s => exact ih (by simpa using h)
    | node m =>
      rw [heightParts]
      rcases List.mem_cons.mp h with e | h
      · cases e
        exact Nat.le_max_left _ _
      · exact Nat.le_trans (ih h) (Nat.le_max_right _ _)

theorem height_le_heightBindings {b : EnvBinding} {bs : List EnvBinding} (h : b ∈ bs) :
    (binding b).height ≤ heightBindings bs + 1 := by
  induction bs with
  | nil => cases h
  | cons c bs ih =>
    obtain ⟨span, name, value⟩ := c
    rw [heightBindings]
    rcases List.mem_cons.mp h with rfl | h
    · exact Nat.succ_le_succ (Nat.le_max_left _ _)
    · exact Nat.le_trans (ih h) (Nat.succ_le_succ (Nat.le_max_right _ _))

theorem height_pos (n : Node) : 0 < n.height := by
  cases n with
  | conditional span condition thenBranch elseBranch =>
    cases elseBranch <;> exact Nat.succ_pos _
  | ret span value => cases value <;> exact Nat.succ_pos _
  | binding b =>
    obtain ⟨span, name, value⟩ := b
    exact Nat.succ_pos _
  | _ => exact Nat.succ_pos _

/-- A tree is higher than its parts. -/
theorem height_lt {n m : Node} (h : m ∈ n.children) : m.height < n.height := by
  cases n with
  | literal | reference | parameter | blank => cases h
  | substitution | block | program => exact Nat.lt_succ_of_le (height_le_heightAll h)
  | interpolation span parts =>
    refine Nat.lt_succ_of_le (height_le_heightParts ?_)
    obtain ⟨p, hp, e⟩ := List.mem_filterMap.mp h
    cases p with
    | text s => cases e
    | node n =>
      cases e
      exact hp
  | binding b =>
    obtain ⟨span, name, value⟩ := b
    rw [List.mem_singleton.mp h]
    exact Nat.lt_succ_self _
  | command span env name args =>
    refine Nat.lt_succ_of_le ?_
    rcases List.mem_append.mp h with h | h
    · obtain ⟨b, hb, rfl⟩ := List.mem_map.mp h
      exact Nat.le_trans (height_le_heightBindings hb) (Nat.le_max_left _ _)
    · exact Nat.le_trans (height_le_heightAll h) (Nat.le_max_right _ _)
  | call span callee args =>
    refine Nat.lt_succ_of_le ?_
    rcases List.mem_cons.mp h with rfl | h
    · exact Nat.le_max_left _ _
    · exact Nat.le_trans (height_le_heightAll h) (Nat.le_max_right _ _)
  | conditional span condition thenBranch elseBranch =>
    cases elseBranch <;>
      simp only [children, Option.toList, List.mem_cons, List.not_mem_nil, or_false] at h <;>
      rw [height] <;> grind
  | function span name params returns bodySpan body =>
    rcases List.mem_append.mp h with h | h
    · obtain ⟨p, hp, rfl⟩ := List.mem_map.mp h
      exact Nat.succ_lt_succ (Nat.succ_pos _)
    · rw [List.mem_singleton.mp h]
      exact Nat.lt_succ_self _
  | binary span op left right =>
    refine Nat.lt_succ_of_le ?_
    rcases List.mem_cons.mp h with rfl | h
    · exact Nat.le_max_left _ _
    · rw [List.mem_singleton.mp h]
      exact Nat.le_max_right _ _
  | unary | define | assign =>
    rw [List.mem_singleton.mp h]
    exact Nat.lt_succ_self _
  | ret span value =>
    cases value with
    | none => cases h
    | some value =>
      rw [List.mem_singleton.mp h]
      exact Nat.lt_succ_self _

end Node

namespace Eval

/-! ## Evaluation that only numbers stop -/

/-- The ends other than a value that are left: an error about numbers, or too deep a nesting where
that may be. -/
def Fails (deep : Prop) (e : Exit) (_ : World) : Prop :=
  match e with
  | .error e => e.fault.isNumeric
  | .returned _ => False
  | .tooDeep => deep

/-- Evaluation from `w` keeps the frames in their places, and only numbers or too deep a nesting
stop it. -/
def Computes {α : Type} (deep : Prop) (m : Eval α) (w : World) (Q : α → World → Prop) : Prop :=
  WP (fun v => w.store.Keeps v.store) m w Q (Fails deep)

section

variable {α β : Type} {deep : Prop} {w : World}

theorem Computes.mono {m : Eval α} {Q R : α → World → Prop} (h : Computes deep m w R)
    (hQ : ∀ a v, w.store.Keeps v.store → R a v → Q a v) : Computes deep m w Q :=
  WP.mono h hQ

theorem Computes.deepen {m : Eval α} {Q : α → World → Prop} {shallow : Prop}
    (h : Computes shallow m w Q) (hd : shallow → deep) : Computes deep m w Q :=
  WP.exits h fun e _ _ he => by
    cases e with
    | error e => exact he
    | returned v => exact he
    | tooDeep => exact hd he

theorem Computes.pure {a : α} {Q : α → World → Prop} (h : Q a w) :
    Computes deep (Pure.pure a) w Q :=
  WP.pure (.refl _) h

theorem Computes.fail {fault : RuntimeFault} {span : Option Span} {Q : α → World → Prop}
    (h : fault.isNumeric) : Computes deep (fail fault span) w Q :=
  WP.fail (.refl _) h

theorem Computes.bind {m : Eval α} {f : α → Eval β} {R : α → World → Prop}
    {Q : β → World → Prop} (h : Computes deep m w R)
    (hf : ∀ a v, w.store.Keeps v.store → R a v → Computes deep (f a) v Q) :
    Computes deep (m >>= f) w Q :=
  WP.bind (WP.mono h fun a v hv ha => WP.weaken (fun _ hu => hv.trans hu) (hf a v hv ha))

theorem Computes.modifyStore {g : Store → Store} {Q : Unit → World → Prop}
    (hk : w.store.Keeps (g w.store)) (h : Q () { w with store := g w.store }) :
    Computes deep (Eval.modifyStore g) w Q :=
  WP.modifyStore (.refl _) hk h

theorem argumentText_computes {v : Value} :
    Computes deep (argumentText v) w fun _ u => u = w := by
  unfold argumentText
  split
  · exact .pure rfl
  · exact .fail rfl

end

/-! ## Forms -/

/-- A node is evaluated to a value of the type that is inferred for it, and the frames agree with
the scopes as they did before. -/
def Types (deep : Prop) (eval : Node → FrameId → Eval Value) (n : Node) : Prop :=
  ∀ (f : FrameId) (w : World) (s s' : Scopes) (t : Ty), n.infer? s = some (t, s') →
    w.store.Agrees f s →
    Computes deep (eval n f) w fun v u => v.Of t ∧ u.store.Agrees f s'

section

variable {host : Option Host} {deep : Prop} {eval : Node → FrameId → Eval Value}
  {f : FrameId} {w : World} {s s' : Scopes} {t : Ty}

theorem entries_computes {body : List Node} (hb : ∀ n ∈ body, Types deep eval n)
    {ts : List Ty} (h : Node.inferAll? s body = some (ts, s')) (ha : w.store.Agrees f s) :
    Computes deep (entries eval body f) w
      fun v u => v.Of (Check.lastType ts) ∧ u.store.Agrees f s' := by
  have from_ (v : Value) (first : Ty) (hv : v.Of first) :
      Computes deep (body.foldlM (fun _ n => eval n f) v) w
        fun v u => v.Of (ts.getLast?.getD first) ∧ u.store.Agrees f s' := by
    induction body generalizing w s ts v first with
    | nil =>
      cases h
      exact .pure ⟨hv, ha⟩
    | cons n body ih =>
      obtain ⟨⟨t, s₁⟩, hn, h⟩ := Option.bind_eq_some_iff.mp h
      obtain ⟨⟨us, s₂⟩, hbody, e⟩ := Option.bind_eq_some_iff.mp h
      cases e
      rw [List.foldlM_cons, List.getLast?_cons, Option.getD_some]
      exact (hb n List.mem_cons_self f w s s₁ t hn ha).bind fun a u _ ⟨hat, hau⟩ =>
        ih (fun m hm => hb m (List.mem_cons_of_mem _ hm)) hbody hau a t hat
  exact from_ .unit .unit Value.of_unit

/-- Entries in a frame of their own. -/
theorem newEntries_computes {body : List Node} (hb : ∀ n ∈ body, Types deep eval n)
    {ts : List Ty} (h : Node.inferAll? s.enter body = some (ts, s')) (ha : w.store.Agrees f s) :
    Computes deep (newFrame f >>= entries eval body) w
      fun v u => v.Of (Check.lastType ts) ∧ u.store.Agrees f s'.leave := by
  let pushed : World := { w with store := (w.store.push (some f)).2 }
  have keeps : w.store.Keeps pushed.store := Store.keeps_push _ _
  refine Computes.bind (R := fun g u => g = w.store.frames.size ∧ u = pushed)
    (WP.newFrame (.refl _) keeps ⟨rfl, rfl⟩) fun g u _ e => ?_
  obtain ⟨rfl, rfl⟩ := e
  refine (entries_computes hb h ha.push).mono fun v u hu ⟨hv, hau⟩ => ⟨hv, ?_⟩
  have made : w.store.frames.size < pushed.store.frames.size := by
    rw [Store.size_push]
    exact Nat.lt_succ_self _
  have outside : f < pushed.store.frames.size := Nat.lt_trans ha.made made
  refine hau.leave ?_ (Nat.lt_of_lt_of_le outside hu.size)
  rw [hu.chain _ made, hu.chain f outside, Store.chain_push_self ha.made,
    Store.chain_push_of_lt _ ha.made]

theorem argumentOf_computes {n : Node} (hn : Types deep eval n) (h : n.infer? s = some (t, s'))
    (ha : w.store.Agrees f s) :
    Computes deep (eval n f >>= argumentText) w fun _ u => u.store.Agrees f s' :=
  (hn f w s s' t h ha).bind fun _ _ _ ⟨_, hau⟩ =>
    argumentText_computes.mono fun _ _ _ e => e ▸ hau

theorem parts_computes {parts : List Part} (hp : ∀ n, .node n ∈ parts → Types deep eval n)
    (h : Node.inferParts? s parts = some s') (ha : w.store.Agrees f s) :
    Computes deep (parts.mapM fun
      | .text s => return s
      | .node n => do argumentText (← eval n f)) w fun _ u => u.store.Agrees f s' := by
  induction parts generalizing w s with
  | nil =>
    cases h
    exact .pure ha
  | cons p parts ih =>
    have rest := fun n (hn : .node n ∈ parts) => hp n (List.mem_cons_of_mem _ hn)
    rw [List.mapM_cons]
    cases p with
    | text text =>
      exact Computes.bind (.pure ha) fun _ _ _ hau =>
        (ih rest h hau).bind fun _ _ _ hax => .pure hax
    | node n =>
      obtain ⟨⟨t, s₁⟩, hn, h⟩ := Option.bind_eq_some_iff.mp h
      exact (argumentOf_computes (hp n List.mem_cons_self) hn ha).bind fun _ _ _ hau =>
        (ih rest h hau).bind fun _ _ _ hax => .pure hax

theorem reference_computes {name : String} {default : Option String} {span : Option Span}
    (h : s.reference? name default = some (t, s')) (ha : w.store.Agrees f s) :
    Computes deep (reference name default span f) w
      fun v u => v.Of t ∧ u.store.Agrees f s' := by
  refine WP.bind (WP.store (.refl _) ?_)
  unfold Scopes.reference? at h
  rcases ha.named_cases name with ⟨hn, hs⟩ | ⟨i, b, g, slot, -, hn, -, -, hs, -, holds⟩
  · rw [hn] at h
    rw [Store.lookup?, hs]
    cases default with
    | none => cases h
    | some d =>
      cases h
      exact Computes.pure ⟨Value.of_string d, ha⟩
  · have used : w.store.Agrees f (s.modify i ({ · with used := true })) :=
      ha.widen (s.widens_modify i (fun _ => rfl) fun _ _ hv => hv) rfl
    rw [hn] at h
    rw [Store.lookup?, hs]
    cases default with
    | none =>
      cases h
      exact Computes.pure ⟨holds.value, used⟩
    | some d =>
      cases h
      refine Computes.pure ⟨?_, used⟩
      split_ifs
      · exact (Value.of_string d).join_right
      · exact holds.value.join_left

/-! ## Operations and branches -/

theorem requireBool_computes {symbol : String} {b : Bool} {span : Option Span} :
    Computes deep (requireBool symbol (.bool b) span) w fun c u => c = b ∧ u = w :=
  .pure ⟨rfl, rfl⟩

theorem operated_computes {α : Type} {r : Except OperatorFault α} {span : Option Span}
    {Q : α → World → Prop} (h : ∀ a, r = .ok a → Q a w)
    (hf : ∀ fault, r = .error fault → (RuntimeFault.operator fault).isNumeric) :
    Computes deep (operated r span) w Q := by
  unfold operated
  split
  · exact .pure (h _ rfl)
  · exact .fail (hf _ rfl)

theorem binary_computes {span : Option Span} {op : BinaryOperator} {left right : Node}
    (hl : Types deep eval left) (hr : Types deep eval right)
    (hp : (Node.binary span op left right).skipsNoDefinition) {l r : Ty} {s₁ : Scopes}
    (hil : left.infer? s = some (l, s₁)) (hir : right.infer? s₁ = some (r, s'))
    (hs : Ty.binary? op l r = some t) (ha : w.store.Agrees f s) :
    Computes deep (binary eval span op left right f) w
      fun v u => v.Of t ∧ u.store.Agrees f s' := by
  have staticLeft : l.isDynamic = false := Node.isDynamic_of_infer? hil
  have staticRight : r.isDynamic = false := Node.isDynamic_of_infer? hir
  have logical (skips : op = .and ∨ op = .or) : Computes deep (do
      let b ← requireBool op.symbol (← eval left f) left.span
      if b = decide (op = .or) then return (Value.bool b)
      else return (Value.bool (← requireBool op.symbol (← eval right f) right.span))) w
      fun v u => v.Of t ∧ u.store.Agrees f s' := by
    have types : (if Ty.bool.accepts l && Ty.bool.accepts r then some Ty.bool else none) =
        some t := by
      rcases skips with rfl | rfl <;> exact hs
    split_ifs at types with accepted
    cases types
    obtain ⟨boolLeft, boolRight⟩ := Bool.and_eq_true_iff.mp accepted
    have skipped : right.defines = false := by
      rcases skips with rfl | rfl <;> simpa [Node.skipsNoDefinition] using hp
    have follows := Node.infer?_follows right hir
    refine (hl f w s s₁ l hil ha).bind fun a u _ ⟨hav, hau⟩ => ?_
    obtain ⟨b, rfl⟩ := hav.bool_of_accepts staticLeft boolLeft
    refine Computes.bind requireBool_computes fun c x _ e => ?_
    obtain ⟨rfl, rfl⟩ := e
    split_ifs
    · exact .pure ⟨Value.of_bool _, hau.widen follows.widens (follows.all skipped)⟩
    · refine (hr f _ s₁ s' r hir hau).bind fun a y _ ⟨hay, hby⟩ => ?_
      obtain ⟨d, rfl⟩ := hay.bool_of_accepts staticRight boolRight
      exact Computes.bind requireBool_computes fun c z _ e => .pure ⟨Value.of_bool _, e.2 ▸ hby⟩
  have operands {k : Value → Value → Eval Value}
      (hk : ∀ a b v, a.Of l → b.Of r → Computes deep (k a b) v fun c u => c.Of t ∧ u = v) :
      Computes deep (do let a ← eval left f; let b ← eval right f; k a b) w
        fun v u => v.Of t ∧ u.store.Agrees f s' := by
    refine (hl f w s s₁ l hil ha).bind fun a u _ ⟨hav, hau⟩ => ?_
    refine (hr f u s₁ s' r hir hau).bind fun b x _ ⟨hbv, hbx⟩ => ?_
    exact (hk a b x hav hbv).mono fun c y _ ⟨hc, e⟩ => ⟨hc, e ▸ hbx⟩
  have compared (hop : op ∈ [.equal, .unequal, .less, .lessEqual, .greater, .greaterEqual])
      (a b : Value) (v : World) (hav : a.Of l) (hbv : b.Of r) :
      Computes deep (do return Value.bool (← operated (a.compare op b) span)) v
        fun c u => c.Of t ∧ u = v := by
    obtain ⟨rfl, c, hc⟩ := Value.compare_of hop hs staticLeft staticRight hav hbv
    refine Computes.bind (R := fun _ u => u = v)
      (operated_computes (fun _ _ => rfl) fun fault hf => ?_)
      fun c u _ e => .pure ⟨Value.of_bool c, e⟩
    rw [hc] at hf
    cases hf
  have computed (hop : op ∈ [.add, .sub, .mul, .div, .mod]) (a b : Value) (v : World)
      (hav : a.Of l) (hbv : b.Of r) :
      Computes deep (operated (a.arithmetic op b) span) v fun c u => c.Of t ∧ u = v := by
    have result := Value.arithmetic_of hop hs staticLeft staticRight hav hbv
    refine operated_computes (fun c hc => ⟨?_, rfl⟩) fun fault hf => ?_
    · rw [hc] at result
      exact result
    · rw [hf] at result
      exact result
  cases op with
  | and => exact logical (.inl rfl)
  | or => exact logical (.inr rfl)
  | equal | unequal | less | lessEqual | greater | greaterEqual =>
    exact operands (compared (by decide))
  | add | sub | mul | div | mod => exact operands (computed (by decide))
  | other symbol => cases hs

theorem unary_computes {span : Option Span} {op : UnaryOperator} {operand : Node}
    (hv : Types deep eval operand) {u : Ty} (hi : operand.infer? s = some (u, s'))
    (hs : Ty.unary? op u = some t) (ha : w.store.Agrees f s) :
    Computes deep (unary eval span op operand f) w fun v x => v.Of t ∧ x.store.Agrees f s' := by
  have static : u.isDynamic = false := Node.isDynamic_of_infer? hi
  refine (hv f w s s' u hi ha).bind fun v x _ ⟨hvu, hax⟩ => ?_
  have signed (hn : (if u.isDynamic || u.isNumeric then some u else none) = some t) :
      ∃ n, v = .number n ∧ (Value.number n.neg).Of t := by
    rw [static, Bool.false_or] at hn
    split_ifs at hn with number
    cases hn
    obtain ⟨n, rfl⟩ := hvu.eq_number number
    exact ⟨n, rfl, Value.neg_of hvu⟩
  cases op with
  | not =>
    simp only [Ty.unary?] at hs
    split_ifs at hs with accepted
    cases hs
    obtain ⟨b, rfl⟩ := hvu.bool_of_accepts static accepted
    exact Computes.bind requireBool_computes fun c y _ e => .pure ⟨Value.of_bool _, e.2 ▸ hax⟩
  | neg | other =>
    obtain ⟨n, rfl, hn⟩ := signed hs
    exact .pure ⟨hn, hax⟩

/-- Where one branch is taken, what the other one would have done to the scopes only makes types
wider. -/
theorem conditional_computes {span : Option Span} {condition thenBranch : Node}
    {elseBranch : Option Node} (hc : Types deep eval condition)
    (ht : Types deep eval thenBranch) (he : ∀ n ∈ elseBranch, Types deep eval n)
    (hp : (Node.conditional span condition thenBranch elseBranch).skipsNoDefinition)
    (h : (Node.conditional span condition thenBranch elseBranch).infer? s = some (t, s'))
    (ha : w.store.Agrees f s) :
    Computes deep (evaluateWith host eval (.conditional span condition thenBranch elseBranch) f) w
      fun v u => v.Of t ∧ u.store.Agrees f s' := by
  simp only [Node.skipsNoDefinition, Bool.and_eq_true, Bool.not_eq_true'] at hp
  rw [Node.infer?.eq_def, Option.filter_eq_some_iff] at h
  cases elseBranch with
  | none =>
    obtain ⟨⟨c, s₁⟩, hic, h⟩ := Option.bind_eq_some_iff.mp h.1
    dsimp only at h
    split_ifs at h with accepted
    obtain ⟨⟨a, s₂⟩, hia, e⟩ := Option.bind_eq_some_iff.mp h
    cases e
    have follows := Node.infer?_follows thenBranch hia
    refine (hc f w s s₁ c hic ha).bind fun v u _ ⟨hv, hau⟩ => ?_
    obtain ⟨b, rfl⟩ := hv.bool_of_accepts (Node.isDynamic_of_infer? hic) accepted
    cases b with
    | true =>
      exact (ht f u s₁ s₂ a hia hau).mono fun v x _ ⟨hv, hax⟩ => ⟨hv.join_left, hax⟩
    | false =>
      exact .pure ⟨Value.of_unit.join_right, hau.widen follows.widens (follows.all hp.1)⟩
  | some e =>
    obtain ⟨⟨c, s₁⟩, hic, h⟩ := Option.bind_eq_some_iff.mp h.1
    dsimp only at h
    split_ifs at h with accepted
    obtain ⟨⟨a, s₂⟩, hia, h⟩ := Option.bind_eq_some_iff.mp h
    obtain ⟨⟨b, s₃⟩, hib, e'⟩ := Option.bind_eq_some_iff.mp h
    cases e'
    have followsThen := Node.infer?_follows thenBranch hia
    have followsElse := Node.infer?_follows e hib
    refine (hc f w s s₁ c hic ha).bind fun v u _ ⟨hv, hau⟩ => ?_
    obtain ⟨taken, rfl⟩ := hv.bool_of_accepts (Node.isDynamic_of_infer? hic) accepted
    cases taken with
    | true =>
      refine (ht f u s₁ s₂ a hia hau).mono fun v x _ ⟨hv, hax⟩ => ⟨hv.join_left, ?_⟩
      exact hax.widen followsElse.widens (followsElse.all (by simpa using hp.2))
    | false =>
      have before : u.store.Agrees f s₂ := hau.widen followsThen.widens (followsThen.all hp.1)
      exact (he e rfl f u s₂ s₃ b hib before).mono fun v x _ ⟨hv, hax⟩ => ⟨hv.join_right, hax⟩

/-! ## Definitions -/

theorem define_computes {span : Option Span} {name : String} {declared : Option Ty} {value : Node}
    (hv : Types deep eval value)
    (h : (Node.define span name declared value).infer? s = some (t, s'))
    (ha : w.store.Agrees f s) :
    Computes deep (evaluateWith host eval (.define span name declared value) f) w
      fun v u => v.Of t ∧ u.store.Agrees f s' := by
  rw [Node.infer?.eq_def, Option.filter_eq_some_iff] at h
  obtain ⟨⟨found, s₁⟩, hi, h⟩ := Option.bind_eq_some_iff.mp h.1
  have static : found.isDynamic = false := Node.isDynamic_of_infer? hi
  refine (hv f w s s₁ found hi ha).bind fun v u _ ⟨hvf, hau⟩ => ?_
  unfold Scopes.define? at h
  dsimp only at h
  split_ifs at h with accepted
  cases h
  have defined (wide : v.Of (declared.getD found)) :
      Computes deep (do modifyStore (·.define f name ⟨v, declared⟩); return v) u
        fun v x => v.Of (declared.getD found) ∧ x.store.Agrees f
          (s₁.define name ⟨declared.getD found, declared, .define, span, false⟩).2 := by
    refine Computes.bind (R := fun _ x => x.store.Agrees f
      (s₁.define name ⟨declared.getD found, declared, .define, span, false⟩).2)
      (.modifyStore (Store.keeps_define _ _ _ _) (hau.define ⟨rfl, wide, ?_⟩))
      fun _ x _ hax => .pure ⟨wide, hax⟩
    rintro d rfl v hv
    exact hv
  cases declared with
  | none => exact defined hvf
  | some d =>
    have wide : v.Of d := hvf.widen static accepted
    dsimp only
    rw [wide.fits, Bool.not_true, if_neg Bool.false_ne_true]
    exact defined wide

theorem assign_computes {span : Option Span} {name : String} {value : Node}
    (hv : Types deep eval value) (h : (Node.assign span name value).infer? s = some (t, s'))
    (ha : w.store.Agrees f s) :
    Computes deep (evaluateWith host eval (.assign span name value) f) w
      fun v u => v.Of t ∧ u.store.Agrees f s' := by
  rw [Node.infer?.eq_def, Option.filter_eq_some_iff] at h
  obtain ⟨⟨found, s₁⟩, hi, h⟩ := Option.bind_eq_some_iff.mp h.1
  have static : found.isDynamic = false := Node.isDynamic_of_infer? hi
  refine (hv f w s s₁ found hi ha).bind fun v u _ ⟨hvf, hau⟩ => ?_
  refine WP.bind (WP.store (.refl _) ?_)
  obtain ⟨⟨i, b⟩, hn, h⟩ := Option.bind_eq_some_iff.mp h
  rcases hau.named_cases name with ⟨none, -⟩ | ⟨j, c, g, slot, hr, hn', hg, hslot, hs, hb, holds⟩
  · rw [none] at hn
    cases hn
  rw [hn] at hn'
  cases hn'
  -- what is assigned is of the type that the binding has now
  have assigned (keeps : s₁.Widens s') (same : s'.all = s₁.all)
      (agrees : Slot.Agrees s' i { slot with value := v }) (e : t = found) :
      Computes deep (do modifyStore (·.assign f name v); return v) u
        fun v x => v.Of t ∧ x.store.Agrees f s' :=
    Computes.bind (R := fun _ x => x.store.Agrees f s')
      (.modifyStore (Store.keeps_assign _ _ _ _) (hau.assign hr hg hslot keeps same agrees))
      fun _ x _ hax => .pure ⟨e ▸ hvf, hax⟩
  rw [hs]
  dsimp only at h ⊢
  rw [holds.declared]
  cases hd : b.declared with
  | none =>
    rw [hd] at h
    cases h
    refine assigned (s₁.widens_modify i (fun _ => rfl) fun _ _ hv => hv.join_left) rfl ?_ rfl
    refine ⟨{ b with type := Ty.join [b.type, t] }, ?_, holds.declared, hvf.join_right, ?_⟩
    · rw [Scopes.binding?] at hb
      simp [Scopes.binding?, Scopes.modify, Array.getElem?_modify, hb]
    · intro d e
      cases hd.symm.trans e
  | some d =>
    rw [hd] at h
    dsimp only at h
    split_ifs at h with accepted
    cases h
    have wide : v.Of d := hvf.widen static accepted
    dsimp only
    rw [wide.fits, Bool.not_true, if_neg Bool.false_ne_true]
    exact assigned (.refl _) rfl ⟨b, hb, holds.declared, holds.wide d hd v wide, holds.wide⟩ rfl

/-! ## Evaluation -/

/-- One step of evaluation, by what is known of the evaluations below. -/
theorem evaluateWith_types {n : Node} (hp : n.skipsNoDefinition)
    (h : ∀ m ∈ n.children, Types deep eval m) : Types deep (evaluateWith host eval) n := by
  intro f w s s' t hi ha
  have inferred := hi
  rw [Node.infer?.eq_def, Option.filter_eq_some_iff] at hi
  obtain ⟨hi, static⟩ := hi
  rw [Bool.not_eq_true'] at static
  cases n with
  | literal span value =>
    cases hi
    exact .pure ⟨Value.of_datumType static, ha⟩
  | reference => exact reference_computes hi ha
  | interpolation span parts =>
    obtain ⟨s₁, hparts, e⟩ := Option.map_eq_some_iff.mp hi
    cases e
    have types := fun n (hn : .node n ∈ parts) => h n (List.mem_filterMap.mpr ⟨_, hn, rfl⟩)
    exact (parts_computes types hparts ha).bind fun texts u _ hau =>
      .pure ⟨Value.of_string _, hau⟩
  | substitution span body =>
    obtain ⟨⟨ts, s₁⟩, hbody, e⟩ := Option.map_eq_some_iff.mp hi
    cases e
    have last : Computes deep (newFrame f >>= entries eval body) w _ :=
      newEntries_computes h hbody ha
    unfold evaluateWith
    dsimp only
    rw [← bind_assoc]
    refine last.bind fun v u _ ⟨_, hau⟩ => ?_
    split
    · exact .pure ⟨Value.of_string _, hau⟩
    · exact argumentText_computes.bind fun text x _ e => .pure ⟨Value.of_string _, e ▸ hau⟩
  | block span body =>
    obtain ⟨⟨ts, s₁⟩, hbody, e⟩ := Option.map_eq_some_iff.mp hi
    cases e
    exact newEntries_computes h hbody ha
  | program span body =>
    obtain ⟨⟨ts, s₁⟩, hbody, e⟩ := Option.map_eq_some_iff.mp hi
    cases e
    exact entries_computes h hbody ha
  | conditional span condition thenBranch elseBranch =>
    refine conditional_computes (h _ List.mem_cons_self)
      (h _ (List.mem_cons_of_mem _ List.mem_cons_self)) (fun n hn => ?_) hp inferred ha
    exact h n (List.mem_cons_of_mem _ (List.mem_cons_of_mem _ (Option.mem_toList.mpr hn)))
  | binary span op left right =>
    obtain ⟨⟨l, s₁⟩, hl, hi⟩ := Option.bind_eq_some_iff.mp hi
    obtain ⟨⟨r, s₂⟩, hr, hi⟩ := Option.bind_eq_some_iff.mp hi
    obtain ⟨t, ht, e⟩ := Option.map_eq_some_iff.mp hi
    cases e
    exact binary_computes (h _ List.mem_cons_self)
      (h _ (List.mem_cons_of_mem _ List.mem_cons_self)) hp hl hr ht ha
  | unary span op operand =>
    obtain ⟨⟨u, s₁⟩, hu, hi⟩ := Option.bind_eq_some_iff.mp hi
    obtain ⟨t, ht, e⟩ := Option.map_eq_some_iff.mp hi
    cases e
    exact unary_computes (h _ (List.mem_singleton_self _)) hu ht ha
  | define => exact define_computes (h _ (List.mem_singleton_self _)) inferred ha
  | assign => exact assign_computes (h _ (List.mem_singleton_self _)) inferred ha
  | binding | command | call | parameter | function | ret | blank => cases hi

end

/-- A tree of inferred types is evaluated to a value of its type, or fails for what its numbers
are. -/
theorem evaluate_types (host : Option Host) (depth : Nat) :
    ∀ n : Node, n.definesPlainly → Types (depth < n.height) (evaluate host depth) n := by
  induction depth with
  | zero => exact fun n _ _ _ _ _ _ _ _ => WP.throw (.refl _) n.height_pos
  | succ depth ih =>
    refine fun n hp => evaluateWith_types (Node.definesPlainly_iff.mp hp n n.mem_walk_self)
      fun m hm f w s s' t hi ha => ?_
    refine (ih m (Node.definesPlainly_child hp hm) f w s s' t hi ha).deepen fun low => ?_
    exact Nat.lt_of_le_of_lt low (Node.height_lt hm)

end Eval

theorem World.agrees_initial : World.initial.store.Agrees rootFrame Scopes.empty := by
  have alone : World.initial.store.chain rootFrame = [rootFrame] := Store.chain_of_none rfl
  refine ⟨Nat.zero_lt_one, ?_⟩
  rw [alone]
  exact .cons ⟨fun _ => rfl, fun _ _ _ => nofun⟩ .nil

/-- A tree without functions and commands, of which every node was given a static type without the
report of a type or a name, has a value of its type, or fails for what the numbers in it are; no
definition in it may be skipped. -/
theorem evaluate_typed (host : Option Host) (depth : Nat) {p : Node} {t : Ty} (hf : p.isCallFree)
    (hp : p.definesPlainly)
    (hc : (check p Scopes.empty p.blankNotes).outcome = .ok t)
    (hd : ∀ d ∈ (check p Scopes.empty p.blankNotes).diagnostics,
      d.code ≠ .typeMismatch ∧ d.code ≠ .unboundName)
    (hn : ∀ note ∈ (check p Scopes.empty p.blankNotes).notes,
      note.type ≠ some .dynamic ∧ note.type ≠ some .unknown) :
    match ((Eval.evaluate host depth p rootFrame).run World.initial).1 with
    | .ok v => t.accepts v.type
    | .error (.error e) => e.fault.isNumeric
    | .error (.returned _) => False
    | .error .tooDeep => depth < p.height := by
  obtain ⟨scopes, hi⟩ := infer?_of_check hf hc hd hn
  have ends := (Eval.wp_iff.mp (Eval.evaluate_types host depth p hp rootFrame World.initial
    Scopes.empty scopes t hi World.agrees_initial)).2
  split <;> rename_i e <;> rw [e] at ends
  · exact ends.1.accepted
  · exact ends
  · exact ends
  · exact ends

/-- `let $x: Float = 1; if ($x < 2) { $x = 3 } else 0; "x is $x"; $x / 2` -/
def floatSample : Node :=
  .program none [
    .define none "x" (some .float) (.literal none (.int 1)),
    .conditional none (.binary none .less (.reference none "x" none) (.literal none (.int 2)))
      (.block none [.assign none "x" (.literal none (.int 3))])
      (some (.literal none (.int 0))),
    .interpolation none [.text "x is ", .node (.reference none "x" none)],
    .binary none .div (.reference none "x" none) (.literal none (.int 2))]

/-- A value of a type for floats may be an integer. -/
theorem evaluate_typed_floatSample :
    floatSample.isCallFree ∧ floatSample.definesPlainly ∧
    (check floatSample Scopes.empty floatSample.blankNotes).outcome = .ok .float ∧
    (∀ d ∈ (check floatSample Scopes.empty floatSample.blankNotes).diagnostics,
      d.code ≠ .typeMismatch ∧ d.code ≠ .unboundName) ∧
    (∀ note ∈ (check floatSample Scopes.empty floatSample.blankNotes).notes,
      note.type ≠ some .dynamic ∧ note.type ≠ some .unknown) ∧
    ∃ v, ((Eval.evaluate none 10 floatSample rootFrame).run World.initial).1 = .ok v ∧
      v.type = .int ∧ Ty.float.accepts v.type := by
  have callFree : floatSample.isCallFree := by decide +kernel
  have plain : floatSample.definesPlainly := by decide +kernel
  have accepted : (check floatSample Scopes.empty floatSample.blankNotes).outcome.toOption =
      some .float := by
    decide +kernel
  have reports : ∀ d ∈ (check floatSample Scopes.empty floatSample.blankNotes).diagnostics,
      d.code ≠ .typeMismatch ∧ d.code ≠ .unboundName := by
    decide +kernel
  have static : ∀ note ∈ (check floatSample Scopes.empty floatSample.blankNotes).notes,
      note.type ≠ some .dynamic ∧ note.type ≠ some .unknown := by
    decide +kernel
  have ends : ((Eval.evaluate none 10 floatSample rootFrame).run World.initial).1.toOption.map
      Value.type = some .int := by
    decide +kernel
  cases outcome : (check floatSample Scopes.empty floatSample.blankNotes).outcome with
  | error => simp [outcome, Except.toOption] at accepted
  | ok t =>
    obtain rfl : t = .float := by simpa [outcome, Except.toOption] using accepted
    have typed := evaluate_typed none 10 callFree plain outcome reports static
    refine ⟨callFree, plain, rfl, reports, static, ?_⟩
    cases value : ((Eval.evaluate none 10 floatSample rootFrame).run World.initial).1 with
    | error => simp [value, Except.toOption] at ends
    | ok v =>
      rw [value] at ends typed
      exact ⟨v, rfl, Option.some.inj ends, typed⟩

end Sigil
