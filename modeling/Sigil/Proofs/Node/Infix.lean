import Sigil.Proofs.Node.Alone
import Sigil.Proofs.Node.Precedence

/-!
# Reading operations

Each level of operators is a reader of its own, which is made of the reader of
the tighter levels. If that one finds a first operand and links behind it
(`Parser.Gets`, `Parser.Links`), the level finds the operands that are joined at
its operators, and links between these (`Parser.gets_chain`). Comparisons are
joined too where none comes right behind another; where one does, the level
stops there, and so do the looser levels (`Parser.Breaks`). All levels together
read the tree that the operands and operators are meant as
(`Parser.run_operation`).
-/

namespace Sigil

/-- An operator is next. -/
structure Stream.Meets (s : Stream) (op : BinaryOperator) (o : Token) : Prop where
  next : s.Next o
  content : o.content = .operator
  lexeme : o.lexeme = op.symbol
  known : op ∈ BinaryOperator.all

/-- The tree that is made with the operator that is next. -/
theorem Stream.Meets.erase_binary {s : Stream} {op : BinaryOperator} {o : Token} (h : s.Meets op o)
    {left right l r : Node} (hl : left.erase = l.erase) (hr : right.erase = r.erase)
    {span : Option Span} : (Node.binary span (.ofSymbol o.lexeme) left right).erase =
      (Node.binary none op l r).erase := by
  simp only [Node.erase, hl, hr, h.lexeme, BinaryOperator.ofSymbol_symbol h.known]

namespace Parser

open Chain

section

variable {ops : List BinaryOperator} {op : BinaryOperator} {o : Token} {s : Stream}

theorem symbol_inj : ∀ op ∈ BinaryOperator.all, ∀ other ∈ BinaryOperator.all,
    op.symbol = other.symbol → op = other := by
  decide

theorem isOneOf_meets (h : s.Meets op o) (known : ∀ op ∈ ops, op ∈ BinaryOperator.all) :
    isOneOf ops o = decide (op ∈ ops) := by
  rw [Bool.eq_iff_iff, isOneOf, List.any_eq_true, decide_eq_true_eq]
  simp only [Token.isOperator, h.content, h.lexeme, decide_true, Bool.true_and, decide_eq_true_eq]
  constructor
  · rintro ⟨other, hother, same⟩
    rwa [symbol_inj op h.known other (known other hother) same]
  · exact fun mem => ⟨op, mem, rfl⟩

/-! ## Loops -/

/-- How a loop goes on: a round fails, or there is none, or the loop goes on from what a round
gives. -/
inductive Loops {α : Type} (step : α → Parser (Option α)) :
    α → Stream → Except Stop (α × Stream) → Prop
  | fails {a : α} {s : Stream} {e : Stop} (h : (step a).run s = .error e) : Loops step a s (.error e)
  | ends {a : α} {s t : Stream} (h : (step a).run s = .ok (none, t)) : Loops step a s (.ok (a, t))
  | round {a b : α} {s t : Stream} {r : Except Stop (α × Stream)}
      (h : (step a).run s = .ok (some b, t)) (shorter : t.ahead.length < s.ahead.length)
      (later : Loops step b t r) : Loops step a s r

theorem Loops.run {α : Type} {step : α → Parser (Option α)} {a : α} {s : Stream}
    {r : Except Stop (α × Stream)} (h : Loops step a s r) : (iterate step a).run s = r := by
  have run : ∀ bound, s.ahead.length ≤ bound → (iterateUpTo step (bound + 1) a).run s = r := by
    induction h with
    | fails h | ends h =>
      intro bound _
      rw [run_iterateUpTo_succ, h]
      rfl
    | round h shorter _ ih =>
      intro bound enough
      obtain ⟨k, rfl⟩ : ∃ k, bound = k + 1 := ⟨bound - 1, by omega⟩
      rw [run_iterateUpTo_succ, h]
      exact ih k (by omega)
  exact run _ le_rfl

/-! ## Operands and links -/

/-- A reader gives a tree, but for its labels, and leaves a stream. -/
def Gets (p : Parser Node) (s : Stream) (n : Node) (t : Stream) : Prop :=
  (∃ x, s.Next x) ∧ ∃ m, p.run s = .ok (m, t) ∧ m.erase = n.erase

/-- Links are ahead, of which a reader gives the operands, and nothing that would be one comes
behind them. -/
def Links (p : Parser Node) : Stream → List Link → Stream → Prop
  | s, [], t => s = t ∧ ∃ y, s.Next y ∧ isOneOf BinaryOperator.all y = false
  | s, (op, n) :: links, t => ∃ o u, s.Meets op o ∧ Gets p (s.pop o) n u ∧
      u.ahead.length < s.ahead.length ∧ Links p u links t

/-- Links are ahead of which a reader cannot give the last operand. -/
inductive Breaks (p : Parser Node) (e : Stop) (ops : List BinaryOperator) : Stream → Prop
  | here {s : Stream} {op : BinaryOperator} {o : Token} (meets : s.Meets op o) (mem : op ∈ ops)
      (some : ∃ x, (s.pop o).Next x) (fails : p.run (s.pop o) = .error e) : Breaks p e ops s
  | later {s u : Stream} {op : BinaryOperator} {o : Token} {n : Node} (meets : s.Meets op o)
      (mem : op ∈ ops) (gets : Gets p (s.pop o) n u) (shorter : u.ahead.length < s.ahead.length)
      (breaks : Breaks p e ops u) : Breaks p e ops s

/-- The next token is the operator of the first link, or none. -/
theorem Links.next {p : Parser Node} {links : List Link} {t : Stream} (h : Links p s links t) :
    ∃ y, s.Next y ∧ ∀ ops : List BinaryOperator, (∀ op ∈ ops, op ∈ BinaryOperator.all) →
      isOneOf ops y = (links.map Prod.fst).head?.any (fun op => op ∈ ops) := by
  cases links with
  | nil =>
    obtain ⟨rfl, y, hy, none⟩ := h
    refine ⟨y, hy, fun ops known => ?_⟩
    rw [isOneOf, List.any_eq_false] at none
    exact List.any_eq_false.mpr fun op hop => none op (known op hop)
  | cons x links =>
    obtain ⟨o, u, meets, -⟩ := h
    exact ⟨o, meets.next, fun ops known => isOneOf_meets meets known⟩

/-! ## Levels that join -/

section

variable {operand : Parser Node} {start : Token} {left l n : Node} {t u : Stream} {e : Stop}
  {links : List Link} {allowed : List BinaryOperator}

/-- Joins the next operand, if an operator of the level is next. -/
def nextOperand (ops : List BinaryOperator) (operand : Parser Node) (start : Token) (left : Node) :
    Parser (Option Node) := do
  if ← atOneOf ops then
    let op ← advance
    let right ← operand
    return some (.binary (← spanFrom start) (.ofSymbol op.lexeme) left right)
  else return none

theorem chain_eq (ops : List BinaryOperator) (operand : Parser Node) : chain ops operand = (do
    let start ← peek 0
    let first ← operand
    iterate (nextOperand ops operand start) first) := rfl

theorem run_nextOperand_stop {x : Token} (hx : s.Next x) (other : isOneOf ops x = false) :
    (nextOperand ops operand start left).run s = .ok (none, s) := by
  rw [nextOperand, run_tested (looks_atOneOf ops) hx, other]
  rfl

theorem run_nextOperand (operand : Parser Node) (start : Token) (left : Node) {x : Token} (hx : s.Next x)
    (mem : isOneOf ops x) : (nextOperand ops operand start left).run s = operand.run (s.pop x) >>= fun r =>
      .ok (some (.binary (some ⟨start.span.start, (r.2.previous.getD start).span.stop⟩)
        (.ofSymbol x.lexeme) left r.1), r.2) := by
  rw [nextOperand, run_tested (looks_atOneOf ops) hx, if_pos mem, StateT.run_bind, run_advance, hx,
    ok_bind, ok_bind, StateT.run_bind]
  rfl

theorem run_chain {x : Token} (hx : s.Next x) {first : Node} (run : operand.run s = .ok (first, u))
    {r : Except Stop (Node × Stream)} (h : Loops (nextOperand ops operand x) first u r) :
    (chain ops operand).run s = r := by
  rw [chain_eq, run_peek_bind hx, StateT.run_bind, run]
  exact h.run

variable (known : ∀ op ∈ ops, op ∈ BinaryOperator.all)
include known

/-- The loop of a level joins the operands at its operators, and the links between them are left. -/
theorem links_chain (start : Token) (same : left.erase = l.erase) (h : Links operand s links t) :
    ∃ n u, Loops (nextOperand ops operand start) left s (.ok (n, u)) ∧
      n.erase = (join ops l links).1.erase ∧ u.ahead.length ≤ s.ahead.length ∧
      Links (chain ops operand) u (join ops l links).2 t := by
  induction links generalizing s left l start with
  | nil =>
    obtain ⟨y, hy, next⟩ := h.next
    exact ⟨left, s, .ends (run_nextOperand_stop hy (next ops known)), same, le_rfl, h⟩
  | cons x links ih =>
    obtain ⟨op, m⟩ := x
    obtain ⟨o, w, meets, ⟨⟨first, hfirst⟩, m', run, hm⟩, shorter, rest⟩ := h
    have asked := isOneOf_meets meets known
    rw [join]
    split_ifs with mem
    · have step := run_nextOperand operand start left meets.next
        (asked.trans (decide_eq_true mem))
      rw [run, ok_bind] at step
      obtain ⟨n, u, loops, hn, le, after⟩ := ih start (meets.erase_binary same hm) rest
      exact ⟨n, u, .round step shorter loops, hn, le.trans shorter.le, after⟩
    · obtain ⟨n, u, loops, hn, le, after⟩ := ih first hm rest
      refine ⟨left, s, .ends (run_nextOperand_stop meets.next (asked.trans (decide_eq_false mem))),
        same, le_rfl, o, u, meets, ⟨⟨first, hfirst⟩, n, run_chain hfirst run loops, hn⟩, ?_, after⟩
      exact le.trans_lt shorter

theorem gets_chain (h : Gets operand s n u) (after : Links operand u links t) :
    ∃ v, Gets (chain ops operand) s (join ops n links).1 v ∧
      Links (chain ops operand) v (join ops n links).2 t := by
  obtain ⟨⟨x, hx⟩, m, run, hm⟩ := h
  obtain ⟨k, v, loops, hk, -, rest⟩ := links_chain known x hm after
  exact ⟨v, ⟨⟨x, hx⟩, k, run_chain hx run loops, hk⟩, rest⟩

/-- Where an operand cannot be read, the loop of a level stops there, or ends before it. -/
theorem breaks_chain (start : Token) (left : Node) (h : Breaks operand e allowed s) :
    Loops (nextOperand ops operand start) left s (.error e) ∨
      ∃ n u, Loops (nextOperand ops operand start) left s (.ok (n, u)) ∧
        u.ahead.length ≤ s.ahead.length ∧
        Breaks (chain ops operand) e (allowed.filter (· ∉ ops)) u := by
  induction h generalizing left start with
  | @here s op o meets inside some fails =>
    have asked := isOneOf_meets meets known
    by_cases mem : op ∈ ops
    · refine .inl (.fails ?_)
      rw [run_nextOperand operand start left meets.next (asked.trans (decide_eq_true mem)), fails]
      rfl
    · obtain ⟨x, hx⟩ := some
      refine .inr ⟨left, s, .ends (run_nextOperand_stop meets.next
        (asked.trans (decide_eq_false mem))), le_rfl, .here meets ?_ ⟨x, hx⟩ ?_⟩
      · exact List.mem_filter.mpr ⟨inside, by simpa using mem⟩
      · rw [chain_eq, run_peek_bind hx, StateT.run_bind, fails]
        rfl
  | @later s w op o m meets inside gets shorter _ ih =>
    obtain ⟨⟨x, hx⟩, m', run, -⟩ := gets
    have asked := isOneOf_meets meets known
    by_cases mem : op ∈ ops
    · have step := run_nextOperand operand start left meets.next
        (asked.trans (decide_eq_true mem))
      rw [run, ok_bind] at step
      refine (ih start _).imp (.round step shorter) ?_
      rintro ⟨n, u, loops, le, breaks⟩
      exact ⟨n, u, .round step shorter loops, le.trans shorter.le, breaks⟩
    · refine .inr ⟨left, s, .ends (run_nextOperand_stop meets.next
        (asked.trans (decide_eq_false mem))), le_rfl, ?_⟩
      have inside : op ∈ allowed.filter (· ∉ ops) := List.mem_filter.mpr ⟨inside, by simpa using mem⟩
      rcases ih x m' with loops | ⟨n, u, loops, le, breaks⟩
      · exact .here meets inside ⟨x, hx⟩ (run_chain hx run loops)
      · exact .later meets inside ⟨⟨x, hx⟩, n, run_chain hx run loops, rfl⟩ (le.trans_lt shorter)
          breaks

end

end

/-- A reader fails, or it reads an operand before links of which the last cannot be read. -/
def Broken (p : Parser Node) (e : Stop) (ops : List BinaryOperator) (s : Stream) : Prop :=
  p.run s = .error e ∨ ∃ n u, p.run s = .ok (n, u) ∧ Breaks p e ops u

/-- Then it is so for the level that joins. -/
theorem Broken.chain {operand : Parser Node} {s : Stream} {e : Stop}
    {allowed ops : List BinaryOperator} (h : Broken operand e allowed s)
    (known : ∀ op ∈ ops, op ∈ BinaryOperator.all) {x : Token} (hx : s.Next x) :
    Broken (Parser.chain ops operand) e (allowed.filter (· ∉ ops)) s := by
  rcases h with fails | ⟨n, u, run, breaks⟩
  · refine .inl ?_
    rw [chain_eq, run_peek_bind hx, StateT.run_bind, fails]
    rfl
  · rcases breaks_chain known x n breaks with loops | ⟨m, v, loops, -, breaks⟩
    · exact .inl (run_chain hx run loops)
    · exact .inr ⟨m, v, run_chain hx run loops, breaks⟩

/-- With no operators left for links, the reader fails. -/
theorem Broken.run {p : Parser Node} {e : Stop} {s : Stream} (h : Broken p e [] s) :
    p.run s = .error e := by
  refine h.resolve_right ?_
  rintro ⟨n, u, -, breaks⟩
  cases breaks with
  | here _ mem | later _ mem => cases mem

/-! ## The level that compares -/

section

variable {operand : Parser Node} {s t u : Stream} {left l n : Node} {links : List Link}

/-- Reads a comparison from behind its first operand on. -/
def compareWith (operand : Parser Node) (start : Token) (left : Node) : Parser Node := do
  if ← atOneOf comparisons then
    let op ← advance
    let right ← operand
    let n := .binary (← spanFrom start) (.ofSymbol op.lexeme) left right
    if ← atOneOf comparisons then throw (.parse ⟨.betweenComparisons, ← peek 0⟩)
    else return n
  else return left

theorem run_comparison {x : Token} (hx : s.Next x) {first : Node}
    (run : operand.run s = .ok (first, u)) :
    (comparison operand).run s = (compareWith operand x first).run u := by
  rw [comparison, run_peek_bind hx, StateT.run_bind, run]
  rfl

theorem run_compareWith_stop (start : Token) (left : Node) {x : Token} (hx : s.Next x)
    (other : isOneOf comparisons x = false) :
    (compareWith operand start left).run s = .ok (left, s) := by
  rw [compareWith, run_tested (looks_atOneOf _) hx, other]
  rfl

theorem known_comparisons : ∀ op ∈ comparisons, op ∈ BinaryOperator.all := by
  decide

/-- A comparison is read, and then another one must not come. -/
theorem run_compareWith (start : Token) (left : Node) {x y : Token} (hx : s.Next x)
    (mem : isOneOf comparisons x) {right : Node} (run : operand.run (s.pop x) = .ok (right, u))
    (hy : u.Next y) : (compareWith operand start left).run s =
      if isOneOf comparisons y then .error (.parse ⟨.betweenComparisons, y⟩)
      else .ok (.binary (some ⟨start.span.start, (u.previous.getD start).span.stop⟩)
        (.ofSymbol x.lexeme) left right, u) := by
  have span : (spanFrom start).run u =
      .ok (some ⟨start.span.start, (u.previous.getD start).span.stop⟩, u) := rfl
  rw [compareWith, run_tested (looks_atOneOf _) hx, if_pos mem, StateT.run_bind, run_advance, hx,
    ok_bind, ok_bind, StateT.run_bind, run, ok_bind, StateT.run_bind, span, ok_bind]
  dsimp only
  rw [run_tested (looks_atOneOf _) hy]
  split_ifs
  · exact run_peek_bind hy
  · rfl

/-- Where no comparison comes right behind another, they are joined, and the links between them are
left. -/
theorem links_comparison (start : Token) (same : left.erase = l.erase)
    (h : Links operand s links t) (sparse : crowded (links.map Prod.fst) = false) :
    ∃ n u, (compareWith operand start left).run s = .ok (n, u) ∧
      n.erase = (join comparisons l links).1.erase ∧ u.ahead.length ≤ s.ahead.length ∧
      Links (comparison operand) u (join comparisons l links).2 t := by
  induction links generalizing s left l start with
  | nil =>
    obtain ⟨y, hy, next⟩ := h.next
    have stop : (compareWith operand start left).run s = .ok (left, s) :=
      run_compareWith_stop start left hy (next _ known_comparisons)
    exact ⟨left, s, stop, same, le_rfl, h⟩
  | cons x links ih =>
    obtain ⟨op, m⟩ := x
    obtain ⟨o, w, meets, ⟨⟨first, hfirst⟩, m', run, hm⟩, shorter, rest⟩ := h
    have asked := isOneOf_meets meets known_comparisons
    rw [List.map_cons, crowded_cons, Bool.or_eq_false_iff] at sparse
    obtain ⟨single, sparse⟩ := sparse
    rw [join]
    split_ifs with mem
    · -- what comes behind the second operand is no comparison, so that it is left for later
      obtain ⟨y, hy, next⟩ := rest.next
      have stop : isOneOf comparisons y = false := by
        rw [next _ known_comparisons]
        simpa [mem] using single
      have step := run_compareWith start left meets.next (asked.trans (decide_eq_true mem)) run hy
      rw [stop, if_neg Bool.false_ne_true] at step
      obtain ⟨n, u, compared, hn, le, after⟩ := ih start (meets.erase_binary same hm) rest sparse
      rw [run_compareWith_stop start _ hy stop] at compared
      cases compared
      exact ⟨_, _, step, hn, shorter.le, after⟩
    · obtain ⟨n, u, compared, hn, le, after⟩ := ih first hm rest sparse
      refine ⟨left, s, run_compareWith_stop start left meets.next (asked.trans (decide_eq_false mem)),
        same, le_rfl, o, u, meets, ⟨⟨first, hfirst⟩, n, ?_, hn⟩, le.trans_lt shorter, after⟩
      exact (run_comparison hfirst run).trans compared

/-- Where a comparison comes right behind another, it is refused. -/
theorem breaks_comparison (start : Token) (left : Node) (h : Links operand s links t)
    (low : ∀ x ∈ links, x.1.level ≤ 2) (dense : crowded (links.map Prod.fst)) :
    ∃ found, (compareWith operand start left).run s =
        .error (.parse ⟨.betweenComparisons, found⟩) ∨
      ∃ n u, (compareWith operand start left).run s = .ok (n, u) ∧
        u.ahead.length ≤ s.ahead.length ∧
        Breaks (comparison operand) (.parse ⟨.betweenComparisons, found⟩) [.and, .or] u := by
  induction links generalizing s left start with
  | nil => cases dense
  | cons x links ih =>
    obtain ⟨op, m⟩ := x
    obtain ⟨o, w, meets, ⟨⟨first, hfirst⟩, m', run, hm⟩, shorter, rest⟩ := h
    obtain ⟨here, low⟩ := List.forall_mem_cons.mp low
    have asked := isOneOf_meets meets known_comparisons
    rw [List.map_cons, crowded_cons, Bool.or_eq_true] at dense
    by_cases mem : op ∈ comparisons
    · obtain ⟨y, hy, next⟩ := rest.next
      have step := run_compareWith start left meets.next (asked.trans (decide_eq_true mem)) run hy
      cases stop : isOneOf comparisons y with
      | true =>
        rw [stop, if_pos rfl] at step
        exact ⟨y, .inl step⟩
      | false =>
        rw [stop, if_neg Bool.false_ne_true] at step
        have dense := dense.resolve_left (by
          rw [← next _ known_comparisons, stop, Bool.and_false]
          exact Bool.false_ne_true)
        obtain ⟨found, fails | ⟨n, u, compared, -, breaks⟩⟩ := ih start
          (.binary (some ⟨start.span.start, (w.previous.getD start).span.stop⟩)
            (.ofSymbol o.lexeme) left m') rest low dense
        · rw [run_compareWith_stop start _ hy stop] at fails
          cases fails
        · rw [run_compareWith_stop start _ hy stop] at compared
          cases compared
          exact ⟨found, .inr ⟨_, _, step, shorter.le, breaks⟩⟩
    · have dense := dense.resolve_left (by simp [mem])
      have logical : ∀ op ∈ BinaryOperator.all, op.level ≤ 2 → op ∉ comparisons →
          op ∈ [BinaryOperator.and, .or] := by decide
      have inside := logical op meets.known here mem
      have stop : (compareWith operand start left).run s = .ok (left, s) :=
        run_compareWith_stop start left meets.next (asked.trans (decide_eq_false mem))
      obtain ⟨found, fails | ⟨n, u, compared, le, breaks⟩⟩ := ih first m' rest low dense
      · refine ⟨found, .inr ⟨left, s, stop, le_rfl, .here meets inside ⟨first, hfirst⟩ ?_⟩⟩
        exact (run_comparison hfirst run).trans fails
      · have gets : Gets (comparison operand) (s.pop o) n u :=
          ⟨⟨first, hfirst⟩, n, (run_comparison hfirst run).trans compared, rfl⟩
        exact ⟨found, .inr ⟨left, s, stop, le_rfl,
          .later meets inside gets (le.trans_lt shorter) breaks⟩⟩

end

/-! ## All levels -/

section

variable {operand : Parser Node} {s t u : Stream} {n : Node} {links : List Link}

theorem Links.known {s : Stream} (h : Links operand s links t) :
    ∀ x ∈ links, x.1 ∈ BinaryOperator.all := by
  induction links generalizing s with
  | nil => exact List.forall_mem_nil _
  | cons x links ih =>
    obtain ⟨o, w, meets, -, -, rest⟩ := h
    exact List.forall_mem_cons.mpr ⟨meets.known, ih rest⟩

/-- The operators that are left by the levels that bind tighter than comparisons. -/
theorem ops_terms (known : ∀ x ∈ links, x.1 ∈ BinaryOperator.all) :
    (join [.add, .sub] (join [.mul, .div, .mod] n links).1
      (join [.mul, .div, .mod] n links).2).2.map Prod.fst = loose (links.map Prod.fst) := by
  rw [ops_join, ops_join, List.filter_filter, loose]
  refine List.filter_congr fun op hop => ?_
  obtain ⟨x, hx, rfl⟩ := List.mem_map.mp hop
  have same : ∀ op ∈ BinaryOperator.all,
      (decide (op ∉ [BinaryOperator.add, .sub]) && decide (op ∉ [BinaryOperator.mul, .div, .mod])) =
        decide (op.level ≤ 2) := by decide
  exact same x.1 (known x hx)

/-- Operands and operators are read as the tree that they are meant as, unless one piece of them has
several comparisons, of which one is then refused. -/
theorem run_operation (h : Gets operand s n u) (after : Links operand u links t) :
    if comparable (links.map Prod.fst) then Gets (operation operand) s (tree n links) t
    else ∃ found, (operation operand).run s = .error (.parse ⟨.betweenComparisons, found⟩) := by
  have known := after.known
  have muls : ∀ op ∈ [BinaryOperator.mul, .div, .mod], op ∈ BinaryOperator.all := by decide
  have adds : ∀ op ∈ [BinaryOperator.add, .sub], op ∈ BinaryOperator.all := by decide
  have ands : ∀ op ∈ [BinaryOperator.and], op ∈ BinaryOperator.all := by decide
  have ors : ∀ op ∈ [BinaryOperator.or], op ∈ BinaryOperator.all := by decide
  obtain ⟨v₁, factors, after₁⟩ := gets_chain muls h after
  obtain ⟨v₂, ⟨⟨x, hx⟩, m, run, hm⟩, after₂⟩ := gets_chain adds factors after₁
  have left := ops_terms (n := n) known
  have ops : ∀ op ∈ links.map Prod.fst, op ∈ BinaryOperator.all := by
    simpa using fun op n hx => known (op, n) hx
  split_ifs with good
  · have sparse := (comparable_iff ops).mp good
    rw [← left] at sparse
    obtain ⟨k, v₃, compared, hk, -, after₃⟩ := links_comparison x hm after₂ sparse
    have gets : Gets (comparison _) s _ v₃ := ⟨⟨x, hx⟩, k, (run_comparison hx run).trans compared, hk⟩
    obtain ⟨v₄, conjunctions, after₄⟩ := gets_chain ands gets after₃
    obtain ⟨v₅, disjunctions, after₅⟩ := gets_chain ors conjunctions after₄
    have settled : settle levels n links = _ := settle_levels known
    have whole : Gets (operation operand) s (settle levels n links).1 v₅ := disjunctions
    have ended : Links (operation operand) v₅ (settle levels n links).2 t := after₅
    rw [settled] at whole ended
    obtain ⟨rfl, -⟩ := ended
    exact whole
  · have dense : crowded (loose (links.map Prod.fst)) := by
      by_contra sparse
      exact good ((comparable_iff ops).mpr (Bool.eq_false_iff.mpr sparse))
    rw [← left] at dense
    obtain ⟨found, broken⟩ := breaks_comparison x m after₂ (fun y hy => by
      have op := List.mem_map_of_mem (f := Prod.fst) hy
      rw [left, loose, List.mem_filter] at op
      exact of_decide_eq_true op.2) dense
    have compared : Broken (comparison (chain [.add, .sub] (chain [.mul, .div, .mod] operand)))
        (.parse ⟨.betweenComparisons, found⟩) [.and, .or] s := by
      rw [Broken, run_comparison hx run]
      refine broken.imp_right ?_
      rintro ⟨k, w, ran, -, breaks⟩
      exact ⟨k, w, ran, breaks⟩
    exact ⟨found, ((compared.chain ands hx).chain ors hx).run⟩

end

end Parser

end Sigil
