import Mathlib.Tactic.SplitIfs
import Sigil.Node.Parser

/-!
# Precedence and associativity

Operands with operators between them are a first operand and the links behind
it, each an operator with its right operand. They are meant as a tree: the
rightmost operator that binds loosest is its root, and so on at both sides
(`Chain.tree`). A reader that knows one level of operators at a time joins the
links of a level from left to right and leaves the others (`Chain.join`). After
all levels, from the tightest to the loosest, this is the same tree
(`Chain.settle_levels`).
-/

namespace Sigil

/-- How tightly an operator binds. -/
def BinaryOperator.level : BinaryOperator → Nat
  | or => 0
  | and => 1
  | equal | unequal | less | lessEqual | greater | greaterEqual => 2
  | add | sub => 3
  | mul | div | mod | other _ => 4

namespace Chain

/-- An operator and the operand to its right. -/
abbrev Link := BinaryOperator × Node

/-! ## The tree -/

/-- The rightmost link of those that bind loosest, with the links before and behind it. -/
def loosest : List Link → Option (List Link × Link × List Link)
  | [] => none
  | x :: xs =>
    match loosest xs with
    | none => some ([], x, [])
    | some (before, y, after) =>
      if x.1.level < y.1.level then some ([], x, xs) else some (x :: before, y, after)

theorem loosest_eq_none {links : List Link} (h : loosest links = none) : links = [] := by
  cases links with
  | nil => rfl
  | cons x xs =>
    rw [loosest] at h
    split at h
    · cases h
    · split_ifs at h

/-- No link before the one that is found binds looser, and those behind it bind tighter. -/
theorem loosest_spec {links before after : List Link} {x : Link}
    (h : loosest links = some (before, x, after)) : links = before ++ x :: after ∧
      (∀ y ∈ before, x.1.level ≤ y.1.level) ∧ ∀ y ∈ after, x.1.level < y.1.level := by
  induction links generalizing before after x with
  | nil => cases h
  | cons z zs ih =>
    rw [loosest] at h
    split at h
    · next none =>
      cases h
      cases loosest_eq_none none
      exact ⟨rfl, List.forall_mem_nil _, List.forall_mem_nil _⟩
    · next before' y after' found =>
      obtain ⟨split, least, tighter⟩ := ih found
      split_ifs at h with looser
      · cases h
        refine ⟨rfl, List.forall_mem_nil _, fun w hw => ?_⟩
        rw [split, List.mem_append, List.mem_cons] at hw
        rcases hw with hw | rfl | hw
        · exact Nat.lt_of_lt_of_le looser (least w hw)
        · exact looser
        · exact Nat.lt_trans looser (tighter w hw)
      · cases h
        refine ⟨by rw [split, List.cons_append], List.forall_mem_cons.mpr ⟨?_, least⟩, tighter⟩
        exact Nat.le_of_not_lt looser

/-- The tree that a chain of operands is meant as. -/
def tree (first : Node) (links : List Link) : Node :=
  match _h : loosest links with
  | none => first
  | some (before, (op, operand), after) =>
    .binary none op (tree first before) (tree operand after)
termination_by links.length
decreasing_by
  all_goals
    rw [(loosest_spec _h).1, List.length_append, List.length_cons]
    omega

@[simp] theorem tree_nil (first : Node) : tree first [] = first := by
  rw [tree]
  rfl

/-! ## Level by level -/

/-- Joins the operands of the operators of one level, from left to right. -/
def join (ops : List BinaryOperator) (first : Node) : List Link → Node × List Link
  | [] => (first, [])
  | (op, operand) :: links =>
    if op ∈ ops then join ops (.binary none op first operand) links
    else (first, (op, (join ops operand links).1) :: (join ops operand links).2)

/-- Joins the operands of the operators of several levels, one after the other. -/
def settle (levels : List (List BinaryOperator)) (first : Node) (links : List Link) :
    Node × List Link :=
  levels.foldl (fun chain ops => join ops chain.1 chain.2) (first, links)

/-- The levels, the tightest first. -/
def levels : List (List BinaryOperator) :=
  [[.mul, .div, .mod], [.add, .sub], Parser.comparisons, [.and], [.or]]

section

variable {ops : List BinaryOperator} {tight loose : List (List BinaryOperator)} {q : BinaryOperator}
  {first operand : Node} {links before after : List Link}

/-- An operator of another level separates what is joined. -/
theorem join_append (h : q ∉ ops) : join ops first (before ++ (q, operand) :: after) =
    ((join ops first before).1, (join ops first before).2 ++
      (q, (join ops operand after).1) :: (join ops operand after).2) := by
  induction before generalizing first with
  | nil => exact if_neg h
  | cons x before ih =>
    rw [List.cons_append, join, join]
    split_ifs
    · exact ih
    · rw [ih]
      rfl

/-- The operators that are left are those of other levels. -/
theorem ops_join : (join ops first links).2.map Prod.fst =
    (links.map Prod.fst).filter (· ∉ ops) := by
  induction links generalizing first with
  | nil => rfl
  | cons x links ih =>
    rw [join, List.map_cons, List.filter_cons]
    by_cases h : x.1 ∈ ops
    · simp [h, ih]
    · simp [h, ih]

theorem join_all (all : ∀ x ∈ links, x.1 ∈ ops) : (join ops first links).2 = [] := by
  rw [← List.map_eq_nil_iff (f := Prod.fst), ops_join, List.filter_eq_nil_iff]
  intro op hop
  obtain ⟨x, hx, rfl⟩ := List.mem_map.mp hop
  simpa using all x hx

/-- Where all operators are of the level, the last one is the root. -/
theorem join_snoc (all : ∀ x ∈ links, x.1 ∈ ops) (h : q ∈ ops) :
    join ops first (links ++ [(q, operand)]) =
      (.binary none q (join ops first links).1 operand, []) := by
  induction links generalizing first with
  | nil => exact if_pos h
  | cons x links ih =>
    obtain ⟨hx, rest⟩ := List.forall_mem_cons.mp all
    rw [List.cons_append, join, if_pos hx, join, if_pos hx, ih rest]

theorem settle_nil : settle tight first [] = (first, []) := by
  induction tight with
  | nil => rfl
  | cons ops tight ih => exact ih

theorem settle_append_levels : settle (tight ++ loose) first links =
    settle loose (settle tight first links).1 (settle tight first links).2 :=
  List.foldl_append

theorem settle_append (h : ∀ ops ∈ tight, q ∉ ops) :
    settle tight first (before ++ (q, operand) :: after) =
      ((settle tight first before).1, (settle tight first before).2 ++
        (q, (settle tight operand after).1) :: (settle tight operand after).2) := by
  induction tight generalizing first operand before after with
  | nil => rfl
  | cons ops tight ih =>
    obtain ⟨here, rest⟩ := List.forall_mem_cons.mp h
    show settle tight _ _ = _
    rw [join_append here]
    exact ih rest

theorem ops_settle : (settle tight first links).2.map Prod.fst =
    (links.map Prod.fst).filter fun op => ∀ ops ∈ tight, op ∉ ops := by
  induction tight generalizing first links with
  | nil => exact (List.filter_eq_self.mpr fun op _ => decide_eq_true (List.forall_mem_nil _)).symm
  | cons ops tight ih =>
    show (settle tight _ _).2.map Prod.fst = _
    rw [ih, ops_join, List.filter_filter]
    exact List.filter_congr fun op _ => by simp [Bool.and_comm]

/-- A level joins two chains at an operator of its own, where the operators behind it are of tighter
levels and those before it of no looser one. -/
theorem settle_split (mem : q ∈ ops) (own : ∀ ops ∈ tight, q ∉ ops)
    (least : ∀ x ∈ before, x.1 ∈ ops ∨ ∃ ops ∈ tight, x.1 ∈ ops)
    (tighter : ∀ x ∈ after, ∃ ops ∈ tight, x.1 ∈ ops) :
    settle (tight ++ ops :: loose) first (before ++ (q, operand) :: after) =
      (.binary none q (settle (tight ++ ops :: loose) first before).1
        (settle (tight ++ ops :: loose) operand after).1, []) := by
  have left : ∀ x ∈ (settle tight first before).2, x.1 ∈ ops := by
    intro x hx
    have op : x.1 ∈ (settle tight first before).2.map Prod.fst := List.mem_map_of_mem hx
    rw [ops_settle, List.mem_filter] at op
    obtain ⟨y, hy, same⟩ := List.mem_map.mp op.1
    have other : ∀ ops ∈ tight, x.1 ∉ ops := of_decide_eq_true op.2
    refine (same ▸ least y hy).resolve_right ?_
    rintro ⟨ops, hops, inside⟩
    exact other ops hops inside
  have right : (settle tight operand after).2 = [] := by
    rw [← List.map_eq_nil_iff (f := Prod.fst), ops_settle, List.filter_eq_nil_iff]
    intro op hop
    obtain ⟨x, hx, rfl⟩ := List.mem_map.mp hop
    obtain ⟨ops, hops, inside⟩ := tighter x hx
    exact fun other => of_decide_eq_true other ops hops inside
  have whole (first : Node) (links : List Link) : settle (tight ++ ops :: loose) first links =
      settle loose (join ops (settle tight first links).1 (settle tight first links).2).1
        (join ops (settle tight first links).1 (settle tight first links).2).2 :=
    settle_append_levels
  rw [whole first (before ++ _), settle_append own, right, join_snoc left mem, settle_nil,
    whole first before, join_all left, settle_nil, whole operand after, right, join, settle_nil]

/-- The levels up to that of an operator, this one, and the looser ones. -/
theorem levels_split (known : q ∈ BinaryOperator.all) : ∃ tight ops loose,
    levels = tight ++ ops :: loose ∧ (∀ ops ∈ tight, q ∉ ops) ∧ (∀ x ∈ BinaryOperator.all,
      (q.level = x.level → x ∈ ops) ∧ (q.level < x.level → ∃ ops ∈ tight, x ∈ ops)) := by
  refine ⟨levels.take (4 - q.level), levels.getD (4 - q.level) [], levels.drop (5 - q.level), ?_⟩
  revert q
  decide

/-- After all levels, a chain is joined to the tree that it is meant as. -/
theorem settle_levels (known : ∀ x ∈ links, x.1 ∈ BinaryOperator.all) :
    settle levels first links = (tree first links, []) := by
  fun_induction tree first links with
  | case1 first links none =>
    rw [loosest_eq_none none, settle_nil]
  | case2 first links before op operand after found left right =>
    obtain ⟨rfl, least, tighter⟩ := loosest_spec found
    obtain ⟨hb, hop, ha⟩ : (∀ x ∈ before, x.1 ∈ BinaryOperator.all) ∧ op ∈ BinaryOperator.all ∧
        ∀ x ∈ after, x.1 ∈ BinaryOperator.all := by
      simpa [or_imp, forall_and] using known
    obtain ⟨tight, ops, loose, split, own, at_⟩ := levels_split hop
    have least (x : Link) (hx : x ∈ before) : x.1 ∈ ops ∨ ∃ ops ∈ tight, x.1 ∈ ops :=
      (Nat.eq_or_lt_of_le (least x hx)).imp (at_ x.1 (hb x hx)).1 (at_ x.1 (hb x hx)).2
    rw [split, settle_split ((at_ op hop).1 rfl) own least
      fun x hx => (at_ x.1 (ha x hx)).2 (tighter x hx), ← split, left hb, right ha]

end

/-! ## Comparisons -/

/-- The operators of a chain, split at every `||` and then at every `&&`. -/
def pieces (ops : List BinaryOperator) : List (List BinaryOperator) :=
  (ops.splitOn .or).flatMap (·.splitOn .and)

/-- Whether each piece of a chain has at most one comparison. -/
def comparable (ops : List BinaryOperator) : Bool :=
  (pieces ops).all fun piece => piece.countP (· ∈ Parser.comparisons) ≤ 1

/-- Whether a comparison comes right after another. -/
def crowded : List BinaryOperator → Bool
  | op :: other :: ops =>
    decide (op ∈ Parser.comparisons) && decide (other ∈ Parser.comparisons) || crowded (other :: ops)
  | _ => false

theorem pieces_cons (op : BinaryOperator) (ops : List BinaryOperator) :
    pieces (op :: ops) = if op = .or ∨ op = .and then [] :: pieces ops
      else (pieces ops).modifyHead (op :: ·) := by
  obtain ⟨first, rest, hor⟩ := List.exists_cons_of_ne_nil (List.splitOn_ne_nil .or ops)
  obtain ⟨piece, more, hand⟩ := List.exists_cons_of_ne_nil (List.splitOn_ne_nil .and first)
  have here : pieces ops = piece :: (more ++ rest.flatMap (·.splitOn .and)) := by
    rw [pieces, hor, List.flatMap_cons, hand, List.cons_append]
  rw [here, pieces, List.splitOn_cons_eq_if_modifyHead, hor]
  by_cases or : op = .or
  · simp [or, hand]
  · by_cases and : op = .and
    · simp [and, List.splitOn_cons_eq_if_modifyHead, hand]
    · simp [or, and, List.splitOn_cons_eq_if_modifyHead, hand]

theorem crowded_cons (op : BinaryOperator) (ops : List BinaryOperator) :
    crowded (op :: ops) = (decide (op ∈ Parser.comparisons) &&
      ops.head?.any (fun other => other ∈ Parser.comparisons) || crowded ops) := by
  cases ops with
  | nil => simp [crowded]
  | cons => rfl

/-- The operators that bind as loosely as comparisons, or looser. -/
def loose (ops : List BinaryOperator) : List BinaryOperator :=
  ops.filter fun op => op.level ≤ 2

theorem loose_cons (op : BinaryOperator) (ops : List BinaryOperator) :
    loose (op :: ops) = if op.level ≤ 2 then op :: loose ops else loose ops := by
  rw [loose, List.filter_cons, ← loose]
  simp only [decide_eq_true_eq]

/-- Without the operators that bind tighter, a comparison comes right after another where a piece
has several. The first piece has one if a comparison comes first. -/
theorem pieces_crowded {ops : List BinaryOperator} (known : ∀ op ∈ ops, op ∈ BinaryOperator.all) :
    ∃ piece more, pieces ops = piece :: more ∧
      ((loose ops).head?.any (fun op => op ∈ Parser.comparisons) ↔
        0 < piece.countP (· ∈ Parser.comparisons)) ∧
      (crowded (loose ops) = false ↔
        ∀ p ∈ piece :: more, p.countP (· ∈ Parser.comparisons) ≤ 1) := by
  induction ops with
  | nil => exact ⟨[], [], rfl, by decide, by decide⟩
  | cons op ops ih =>
    obtain ⟨hop, rest⟩ := List.forall_mem_cons.mp known
    obtain ⟨piece, more, cut, first, all⟩ := ih rest
    have kinds : ∀ op ∈ BinaryOperator.all,
        ((op = .or ∨ op = .and) ∧ op.level ≤ 2 ∧ op ∉ Parser.comparisons) ∨
        (¬ (op = .or ∨ op = .and) ∧ op.level ≤ 2 ∧ op ∈ Parser.comparisons) ∨
        (¬ (op = .or ∨ op = .and) ∧ ¬ op.level ≤ 2 ∧ op ∉ Parser.comparisons) := by decide
    rw [loose_cons, pieces_cons, cut]
    rcases kinds op hop with ⟨logical, low, other⟩ | ⟨logical, low, compares⟩ | ⟨logical, low, other⟩
    · rw [if_pos logical, if_pos low]
      refine ⟨[], piece :: more, rfl, by simp [other], ?_⟩
      rw [crowded_cons, decide_eq_false other, Bool.false_and, Bool.false_or]
      exact all.trans (by simp)
    · rw [if_neg logical, if_pos low]
      refine ⟨op :: piece, more, rfl, by simp [compares], ?_⟩
      rw [crowded_cons, decide_eq_true compares, Bool.true_and, Bool.or_eq_false_iff]
      rw [all, ← Bool.not_eq_true, first]
      simp only [List.forall_mem_cons, List.countP_cons, compares, decide_true, if_true]
      constructor
      · rintro ⟨none, -, few⟩
        exact ⟨by omega, few⟩
      · rintro ⟨few, rest⟩
        exact ⟨by omega, by omega, rest⟩
    · rw [if_neg logical, if_neg low]
      refine ⟨op :: piece, more, rfl, first.trans (by simp [other]), all.trans ?_⟩
      simp [other]

theorem comparable_iff {ops : List BinaryOperator} (known : ∀ op ∈ ops, op ∈ BinaryOperator.all) :
    comparable ops ↔ crowded (loose ops) = false := by
  obtain ⟨piece, more, cut, -, all⟩ := pieces_crowded known
  rw [all, comparable, cut, List.all_eq_true]
  simp only [decide_eq_true_eq]

end Chain

end Sigil
