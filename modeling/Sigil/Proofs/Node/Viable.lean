import Sigil.Proofs.Node.OpenEnded
import Sigil.Proofs.Node.Resumed

/-!
# Finishing what was begun

A reader of a text that ends somewhere in a construct, and a reader of a longer
text with more behind it (`Stream.Resumed`). What the first reads the second
reads too, and where the first needs more there are tokens with which the second
succeeds (`Parser.Viable`). These depend only on where the first was stopped, and
not on the bounds of the second, nor on what comes after them: this may be all
that cannot be taken for a part of what was read, which is what the condition
`F` says. A reader that may be reached at the end of the text has to be finished
from there, so it comes with tokens that it reads from scratch
(`Parser.Finishable`). There is a rule for each way of putting readers together
and for the pieces that all readers are made of.
-/

namespace Sigil

namespace Parser

open Filler

/-! ## Two readers -/

section

variable {α β ι κ : Type} {s : Stream} {F G : List Filler → Prop} {c d : List Filler}

/-- How a reader of a text goes on where the text goes on in a new line: what it reads is read of
the longer text, if it ends before the text does or what follows is as `F` says; and if it needs
more, some tokens are enough, with whatever follows that is as `F` says. There are readers of the
longer text for each index, and the tokens are the same for all. -/
structure Viable (p : Parser α) (q : ι → Parser α) (F : List Filler → Prop) (s : Stream) :
    Prop where
  leaves : ∀ {a u}, p.run s = .ok (a, u) → u.Ends ∧ (s.Over → u.Over)
  passes : ∀ {a u}, p.run s = .ok (a, u) → ∀ {line fs t}, s.Resumed line fs t → (u.Over → F fs) →
    ∀ i, Gives (q i) t fun b v => b = a ∧ u.Resumed line fs v
  completes : ∀ {missing}, p.run s = .error (.needsMore missing) → ∃ c, ∀ {line fs t}, F fs →
    s.Resumed line (c ++ fs) t → ∀ i, Gives (q i) t fun _ v => v.Says (chunks fs)

/-- What is viable wherever a text ends, and reads some tokens from scratch. If these are any then
it cannot succeed at the end of the text. -/
structure Finishable (p : Parser α) (q : ι → Parser α) (c : List Filler)
    (F : List Filler → Prop) : Prop where
  fresh : ∀ i {fs t}, F fs → t.Says (chunks (c ++ fs)) → Gives (q i) t fun _ v => v.Says (chunks fs)
  stalls : ∀ {s}, s.Ends → s.Over → c = [] ∨ ∀ r, p.run s ≠ .ok r
  viable : ∀ {s}, s.Ends → Viable p q F s

variable {p : Parser α} {q : ι → Parser α}

theorem Viable.mono (h : Viable p q G s) (hFG : ∀ fs, F fs → G fs) : Viable p q F s where
  leaves := h.leaves
  passes hp _ _ _ resumed follows := h.passes hp resumed fun ended => hFG _ (follows ended)
  completes hp :=
    let ⟨c, hc⟩ := h.completes hp
    ⟨c, fun follows => hc (hFG _ follows)⟩

/-- Fewer readers of the longer text. -/
theorem Viable.reindex (h : Viable p q F s) (φ : κ → ι) : Viable p (fun k => q (φ k)) F s where
  leaves := h.leaves
  passes hp _ _ _ resumed follows k := h.passes hp resumed follows (φ k)
  completes hp :=
    let ⟨c, hc⟩ := h.completes hp
    ⟨c, fun follows resumed k => hc follows resumed (φ k)⟩

theorem Viable.pure (hs : s.Ends) (a : α) :
    Viable (Pure.pure a) (fun _ : ι => Pure.pure a) F s where
  leaves := by
    rintro _ _ ⟨⟩
    exact ⟨hs, id⟩
  passes := by
    rintro _ _ ⟨⟩ _ _ _ resumed - i
    exact Gives.pure ⟨rfl, resumed⟩
  completes := nofun

/-- Where a reader fails for good, nothing is to be shown. -/
theorem Viable.fails {e : Stop} (h : p.run s = .error e)
    (reason : ∀ missing, e ≠ .needsMore missing) : Viable p q F s where
  leaves hp := by
    rw [h] at hp
    cases hp
  passes hp := by
    rw [h] at hp
    cases hp
  completes hp := by
    rw [h] at hp
    cases hp
    exact absurd rfl (reason _)

theorem Viable.throw {e : Stop} (reason : ∀ missing, e ≠ .needsMore missing) :
    Viable (MonadExcept.throw e) q F s :=
  .fails rfl reason

/-- At the end of the text a reader gives nothing or one result, and from scratch it gives this
too. -/
theorem Viable.ended {a : α} (ended : s.Over) (hs : s.Ends) (here : ∀ r, p.run s = .ok r → r = (a, s))
    (there : ∀ i {fs t}, F fs → t.Says (chunks fs) → Gives (q i) t fun b v => b = a ∧ v = t) :
    Viable p q F s where
  leaves hp := by
    cases here _ hp
    exact ⟨hs, id⟩
  passes hp _ _ t resumed follows i := by
    cases here _ hp
    refine (there i (follows ended) (resumed.said ended)).mono fun b v ⟨hb, hv⟩ => ⟨hb, ?_⟩
    rwa [hv]
  completes _ := ⟨[], fun {_ _ t} follows resumed i =>
    (there i follows (resumed.said ended)).mono fun _ _ ⟨_, hv⟩ => hv ▸ resumed.said ended⟩

/-- At the end of the text a reader gives nothing. -/
theorem Viable.stalled (ended : s.Over) (stalls : ∀ r, p.run s ≠ .ok r)
    (fresh : ∀ i {fs t}, F fs → t.Says (chunks (c ++ fs)) →
      Gives (q i) t fun _ v => v.Says (chunks fs)) : Viable p q F s where
  leaves hp := absurd hp (stalls _)
  passes hp := absurd hp (stalls _)
  completes _ := ⟨c, fun follows resumed i => fresh i follows (resumed.said ended)⟩

/-- One reader after the other. The second is finished from scratch if the first was stopped. -/
theorem Viable.then {f : α → Parser β} {g : ι → α → Parser β} (hp : Viable p q G s)
    (hf : ∀ a u, p.run s = .ok (a, u) → Viable (f a) (fun i => g i a) F u)
    (fresh : ∀ i a {fs t}, F fs → t.Says (chunks (c ++ fs)) →
      Gives (g i a) t fun _ v => v.Says (chunks fs))
    (link : ∀ fs, F fs → G (c ++ fs))
    (quiet : ∀ a u, p.run s = .ok (a, u) → u.Over → c = [] ∨ ∀ r, (f a).run u ≠ .ok r) :
    Viable (p >>= f) (fun i => q i >>= g i) F s where
  leaves h := by
    rw [StateT.run_bind] at h
    obtain ⟨⟨a, u⟩, ha, hb⟩ := bind_eq_ok h
    have first := hp.leaves ha
    have second := (hf a u ha).leaves hb
    exact ⟨second.1, fun ended => second.2 (first.2 ended)⟩
  passes h _ fs t resumed follows i := by
    rw [StateT.run_bind] at h
    obtain ⟨⟨a, u⟩, ha, hb⟩ := bind_eq_ok h
    have second := hf a u ha
    refine Gives.bind ((hp.passes ha resumed (fun ended => ?_) i).mono ?_)
    · obtain rfl := (quiet a u ha ended).resolve_right fun no => no _ hb
      exact link fs (follows ((second.leaves hb).2 ended))
    · rintro _ v ⟨rfl, huv⟩
      exact second.passes hb huv follows i
  completes h := by
    rw [StateT.run_bind] at h
    cases ha : p.run s with
    | error e =>
      rw [ha] at h
      cases h
      obtain ⟨d, hd⟩ := hp.completes ha
      refine ⟨d ++ c, fun {line fs t} follows resumed i => Gives.bind ?_⟩
      rw [List.append_assoc] at resumed
      exact (hd (link fs follows) resumed i).mono fun a v hv => fresh i a follows hv
    | ok r =>
      obtain ⟨a, u⟩ := r
      rw [ha] at h
      replace h : (f a).run u = .error (.needsMore _) := h
      by_cases ended : u.Over
      · refine ⟨c, fun {line fs t} follows resumed i => Gives.bind ?_⟩
        refine (hp.passes ha resumed (fun _ => link fs follows) i).mono ?_
        exact fun b v ⟨_, huv⟩ => fresh i b follows (huv.said ended)
      · obtain ⟨d, hd⟩ := (hf a u ha).completes h
        refine ⟨d, fun {line fs t} follows resumed i => Gives.bind ?_⟩
        refine (hp.passes ha resumed (fun h => absurd h ended) i).mono ?_
        rintro _ v ⟨rfl, huv⟩
        exact hd follows huv i

theorem Viable.bind {f : α → Parser β} {g : ι → α → Parser β} (hp : Viable p q G s)
    (hf : ∀ a, Finishable (f a) (fun i => g i a) c F) (link : ∀ fs, F fs → G (c ++ fs)) :
    Viable (p >>= f) (fun i => q i >>= g i) F s :=
  .then hp (fun a _ ha => (hf a).viable (hp.leaves ha).1) (fun i a _ _ => (hf a).fresh i) link
    fun a _ ha ended => (hf a).stalls (hp.leaves ha).1 ended

/-- One reader after the other, where the second has nothing to add. -/
theorem Viable.post {f : α → Parser β} {g : ι → α → Parser β} (hp : Viable p q F s)
    (hf : ∀ a, Finishable (f a) (fun i => g i a) [] F) :
    Viable (p >>= f) (fun i => q i >>= g i) F s :=
  hp.bind hf fun _ h => h

/-- One reader after another that ends by itself, whatever follows. -/
theorem Viable.closed {f : α → Parser β} {g : ι → α → Parser β}
    (hp : Viable p q (fun _ => True) s) (hf : ∀ a, Finishable (f a) (fun i => g i a) c F) :
    Viable (p >>= f) (fun i => q i >>= g i) F s :=
  hp.bind hf fun _ _ => trivial

/-- A reader that is reached only before a token of the text is viable there, and at the end of the
text it gives nothing. -/
theorem Finishable.inside (fresh : ∀ i {fs t}, F fs → t.Says (chunks (c ++ fs)) →
      Gives (q i) t fun _ v => v.Says (chunks fs))
    (stalls : ∀ {s}, s.Ends → s.Over → ∀ r, p.run s ≠ .ok r)
    (viable : ∀ {s x}, s.Ends → s.Next x → x.content ≠ .endOfInput → Viable p q F s) :
    Finishable p q c F where
  fresh := fresh
  stalls hs ended := .inr (stalls hs ended)
  viable hs := hs.cases.elim (fun ended => .stalled ended (stalls hs ended) fresh) fun ⟨_, hx, real⟩ =>
    viable hs hx real

/-- A reader of what may be left out. -/
theorem Finishable.optional {a : α} (here : ∀ s r, s.Over → p.run s = .ok r → r = (a, s))
    (there : ∀ i {fs t}, F fs → t.Says (chunks fs) → Gives (q i) t fun b v => b = a ∧ v = t)
    (viable : ∀ {s x}, s.Ends → s.Next x → x.content ≠ .endOfInput → Viable p q F s) :
    Finishable p q [] F where
  fresh i _ _ follows ht := (there i follows ht).mono fun _ _ ⟨_, hv⟩ => hv ▸ ht
  stalls _ _ := .inl rfl
  viable {s} hs := hs.cases.elim (fun ended => .ended ended hs (here s · ended) there)
    fun ⟨_, hx, real⟩ => viable hs hx real

theorem Finishable.mono (h : Finishable p q c G) (hFG : ∀ fs, F fs → G fs) :
    Finishable p q c F where
  fresh i _ _ follows := h.fresh i (hFG _ follows)
  stalls := h.stalls
  viable hs := (h.viable hs).mono hFG

theorem Finishable.cast (h : Finishable p q c F) (same : c = d) : Finishable p q d F :=
  same ▸ h

theorem Finishable.reindex (h : Finishable p q c F) (φ : κ → ι) :
    Finishable p (fun k => q (φ k)) c F where
  fresh k := h.fresh (φ k)
  stalls := h.stalls
  viable hs := (h.viable hs).reindex φ

theorem Finishable.pure (a : α) : Finishable (Pure.pure a) (fun _ : ι => Pure.pure a) [] F where
  fresh _ _ _ _ ht := Gives.pure ht
  stalls _ _ := .inl rfl
  viable hs := .pure hs a

theorem Finishable.bind {f : α → Parser β} {g : ι → α → Parser β} (hp : Finishable p q c G)
    (hf : ∀ a, Finishable (f a) (fun i => g i a) d F) (link : ∀ fs, F fs → G (d ++ fs)) :
    Finishable (p >>= f) (fun i => q i >>= g i) (c ++ d) F where
  fresh i fs t follows ht := by
    rw [List.append_assoc] at ht
    refine Gives.bind ((hp.fresh i (link fs follows) ht).mono fun a v hv => ?_)
    exact (hf a).fresh i follows hv
  stalls {s} hs ended := by
    rcases hp.stalls hs ended with rfl | no
    · cases ha : p.run s with
      | error e =>
        refine .inr fun r hr => ?_
        rw [StateT.run_bind, ha] at hr
        cases hr
      | ok r =>
        obtain ⟨a, u⟩ := r
        have left := (hp.viable hs).leaves ha
        refine ((hf a).stalls left.1 (left.2 ended)).imp_right fun no r hr => no r ?_
        rwa [StateT.run_bind, ha] at hr
    · refine .inr fun r hr => ?_
      rw [StateT.run_bind] at hr
      obtain ⟨a, ha, -⟩ := bind_eq_ok hr
      exact no a ha
  viable hs := .bind (hp.viable hs) hf link

theorem Finishable.post {f : α → Parser β} {g : ι → α → Parser β} (hp : Finishable p q c F)
    (hf : ∀ a, Finishable (f a) (fun i => g i a) [] F) :
    Finishable (p >>= f) (fun i => q i >>= g i) c F := by
  rw [← List.append_nil c]
  exact hp.bind hf fun _ h => h

theorem Finishable.closed {f : α → Parser β} {g : ι → α → Parser β}
    (hp : Finishable p q c fun _ => True) (hf : ∀ a, Finishable (f a) (fun i => g i a) d F) :
    Finishable (p >>= f) (fun i => q i >>= g i) (c ++ d) F :=
  hp.bind hf fun _ _ => trivial

/-! ## Tokens -/

/-- A look at what comes next that gives the same in both texts. -/
structure Sees (p : Parser α) (q : ι → Parser α) (a : α) (s : Stream) : Prop where
  here : p.run s = .ok (a, s)
  there : ∀ i {line fs t}, s.Resumed line fs t → (q i).run t = .ok (a, t)

theorem Sees.run_bind {a : α} (h : Sees p q a s) (f : α → Parser β) :
    (p >>= f).run s = (f a).run s := by
  rw [StateT.run_bind, h.here]
  rfl

theorem Viable.looked {a : α} {f : α → Parser β} {g : ι → α → Parser β} (h : Sees p q a s)
    (hf : Viable (f a) (fun i => g i a) F s) : Viable (p >>= f) (fun i => q i >>= g i) F s := by
  have run := h.run_bind f
  refine ⟨fun hp => hf.leaves (run ▸ hp), fun hp _ _ t resumed follows i => ?_, fun hp => ?_⟩
  · exact Gives.bind ⟨a, t, h.there i resumed, hf.passes (run ▸ hp) resumed follows i⟩
  · obtain ⟨c, hc⟩ := hf.completes (run ▸ hp)
    exact ⟨c, fun {_ _ t} follows resumed i =>
      Gives.bind ⟨a, t, h.there i resumed, hc follows resumed i⟩⟩

section

variable {x : Token} {k : Nat} {f : Token → Parser β} {g : ι → Token → Parser β}

/-- A token of the text is seen in both. -/
theorem Viable.peeked (hs : s.Ends) (hx : s.peek k = .ok x) (real : x.content ≠ .endOfInput)
    (hf : Viable (f x) (fun il : ι × List Char => g il.1 (x.moved (.newLine il.2))) F s) :
    Viable (peek k >>= f) (fun i => peek k >>= g i) F s := by
  have run : (peek k >>= f).run s = (f x).run s := by
    rw [StateT.run_bind, run_peek, hx]
    rfl
  refine ⟨fun hp => hf.leaves (run ▸ hp), fun hp line _ _ resumed follows i => ?_, fun hp => ?_⟩
  · exact Gives.bind (gives_peek (resumed.peek hs hx real)
      (hf.passes (run ▸ hp) resumed follows (i, line)))
  · obtain ⟨c, hc⟩ := hf.completes (run ▸ hp)
    exact ⟨c, fun {line _ _} follows resumed i =>
      Gives.bind (gives_peek (resumed.peek hs hx real) (hc follows resumed (i, line)))⟩

/-- A token of the text is read from both. -/
theorem Viable.popped (hs : s.Ends) (hx : s.Next x) (real : x.content ≠ .endOfInput)
    (hf : Viable (f x) (fun il : ι × List Char => g il.1 (x.moved (.newLine il.2))) F (s.pop x)) :
    Viable (advance >>= f) (fun i => advance >>= g i) F s := by
  have run : (advance >>= f).run s = (f x).run (s.pop x) := by
    rw [StateT.run_bind, run_advance, hx]
    rfl
  have run' {line : List Char} {fs : List Filler} {t : Stream} (resumed : s.Resumed line fs t) :
      advance.run t = .ok (x.moved (.newLine line), t.pop (x.moved (.newLine line))) := by
    rw [run_advance, resumed.peek hs hx real]
    rfl
  refine ⟨fun hp => ?_, fun hp line _ _ resumed follows i => ?_, fun hp => ?_⟩
  · exact ⟨(hf.leaves (run ▸ hp)).1, fun ended => absurd (ended.not_real hx) real⟩
  · exact Gives.bind ⟨_, _, run' resumed,
      hf.passes (run ▸ hp) (resumed.pop hx real) follows (i, line)⟩
  · obtain ⟨c, hc⟩ := hf.completes (run ▸ hp)
    exact ⟨c, fun {line _ _} follows resumed i => Gives.bind
      ⟨_, _, run' resumed, hc follows (resumed.pop hx real) (i, line)⟩⟩

variable (hs : s.Ends) (same : ∀ i line, g i (x.moved (.newLine line)) = g i x)
include hs same

/-- A token of the text is seen of which nothing is used that depends on what follows the text. -/
theorem Viable.seen (hx : s.peek k = .ok x) (real : x.content ≠ .endOfInput)
    (hf : Viable (f x) (fun i => g i x) F s) :
    Viable (peek k >>= f) (fun i => peek k >>= g i) F s :=
  .peeked hs hx real (by simpa only [same] using hf.reindex Prod.fst)

/-- Such a token is read. -/
theorem Viable.taken (hx : s.Next x) (real : x.content ≠ .endOfInput)
    (hf : Viable (f x) (fun i => g i x) F (s.pop x)) :
    Viable (advance >>= f) (fun i => advance >>= g i) F s :=
  .popped hs hx real (by simpa only [same] using hf.reindex Prod.fst)

end

theorem run_unexpected {expected : Expected} {x : Token} (hx : s.Next x)
    (real : x.content ≠ .endOfInput) :
    (unexpected expected : Parser α).run s = .error (.parse ⟨expected, x⟩) := by
  rw [Parser.unexpected, StateT.run_bind, run_peek, hx]
  show (if x.content = .endOfInput && s.openEnded then _ else _ : Parser α).run s = _
  rw [decide_eq_false real, Bool.false_and, if_neg Bool.false_ne_true]
  rfl

theorem Viable.unexpected {expected : Expected} {x : Token} (hx : s.Next x)
    (real : x.content ≠ .endOfInput) : Viable (unexpected expected) q F s :=
  .fails (run_unexpected hx real) nofun

theorem stalls_unexpected {expected : Expected} : Stalls (unexpected expected : Parser α) := by
  intro s _ ⟨a, u⟩ h
  obtain ⟨-, -, -, no⟩ := Follows.unexpected (q := Parser.unexpected expected) (t := s)
    (Q := fun _ (_ : α) _ _ => False) a u h
  exact no

theorem stalls_peek {f : Token → Parser α} (h : ∀ x, x.content = .endOfInput → Stalls (f x)) :
    Stalls (peek 0 >>= f) := by
  intro s ended r
  obtain ⟨x, hx, spent⟩ := ended.next
  rw [run_peek_bind hx]
  exact h x spent s ended r

theorem Stalls.bind {f : α → Parser β} (h : Stalls p) : Stalls (p >>= f) := by
  intro s ended r hr
  rw [StateT.run_bind] at hr
  obtain ⟨a, ha, -⟩ := bind_eq_ok hr
  exact h s ended a ha

section

variable {test : Token → Bool}

/-- A test that comes out alike in both texts, and which the end of the text does not pass. -/
structure Tests (test : Token → Bool) : Prop where
  plain : Token.Test test
  moved : ∀ m x, test (x.moved m) = test x
  ends : ∀ x : Token, x.content = .endOfInput → test x = false

/-- A test that finds a word or a mark. -/
structure Finds (test : Token → Bool) : Prop extends Tests test where
  content : ∀ x, test x → x.content ∈ [.word, .operator, .delimiter]

theorem Finds.of_content (plain : Token.Test test) (moved : ∀ m x, test (x.moved m) = test x)
    (content : ∀ x, test x → x.content ∈ [.word, .operator, .delimiter]) : Finds test where
  plain := plain
  moved := moved
  ends x spent := by
    by_contra found
    have content := content x (Bool.eq_true_of_not_eq_false found)
    simp [spent] at content
  content := content

theorem Finds.moved_newLine (ht : Finds test) {x : Token} (hx : test x) (line : List Char) :
    x.moved (.newLine line) = x := by
  refine Token.moved_newLine (fun parts string => ?_) line
  have content := ht.content x hx
  simp [string] at content

theorem finds_isDelimiter (d : String) : Finds (·.isDelimiter d) :=
  .of_content Token.isDelimiter_plain (fun _ x => Token.isDelimiter_moved x d) fun x hx => by
    simp only [Token.isDelimiter, Bool.and_eq_true, decide_eq_true_eq] at hx
    simp [hx]

theorem finds_isOperator (o : String) : Finds (·.isOperator o) :=
  .of_content Token.isOperator_plain (fun _ x => Token.isOperator_moved x o) fun x hx => by
    simp only [Token.isOperator, Bool.and_eq_true, decide_eq_true_eq] at hx
    simp [hx]

theorem finds_isKeyword (w : String) : Finds (·.isKeyword w) :=
  .of_content Token.isKeyword_plain (fun _ x => Token.isKeyword_moved x w) fun x hx => by
    simp only [Token.isKeyword, Bool.and_eq_true, decide_eq_true_eq] at hx
    simp [hx]

theorem finds_isPlainWord : Finds Token.isPlainWord :=
  .of_content Token.isPlainWord_plain (fun _ x => Token.isPlainWord_moved x) fun x hx => by
    simp [Token.isPlainWord_content hx]

theorem Tests.sees (ht : Tests test) (hs : s.Ends) {x : Token} (hx : s.Next x)
    (real : x.content ≠ .endOfInput) : Sees (do return test (← peek 0))
      (fun _ : ι => do return test (← peek 0)) (test x) s where
  here := run_peek_bind hx
  there _ line _ _ resumed := by
    rw [run_peek_bind (resumed.peek hs hx real), ht.moved]
    rfl

theorem Tests.run_over (ht : Tests test) (ended : s.Over) :
    (do return test (← peek 0) : Parser Bool).run s = .ok (false, s) := by
  obtain ⟨x, hx, spent⟩ := ended.next
  rw [run_peek_bind hx, ht.ends x spent]
  rfl

/-- A reader that tests what comes next goes on as it does where the test fails. -/
theorem Tests.run_bind_over (ht : Tests test) (ended : s.Over) (f : Bool → Parser α) :
    ((do return test (← peek 0)) >>= f).run s = (f false).run s := by
  rw [StateT.run_bind, ht.run_over ended]
  rfl

theorem Tests.stalls (ht : Tests test) {f : Bool → Parser α} (h : Stalls (f false)) :
    Stalls ((do return test (← peek 0)) >>= f) := by
  intro s ended r
  rw [ht.run_bind_over ended]
  exact h s ended r

/-- What is read if the next token passes a test, and else something that goes on where the text
ends. -/
theorem finishable_test {r : Parser α} {r' : ι → Parser α}
    (moved : ∀ line x, test (x.moved (.newLine line)) = test x)
    (ends : ∀ x : Token, x.content = .endOfInput → test x = false)
    (yes : ∀ {s x}, s.Ends → s.Next x → x.content ≠ .endOfInput → test x → Viable p q F s)
    (no : Finishable r r' c F)
    (skips : ∀ fs x, F fs → x.plain = nextToken (chunks (c ++ fs)) → test x = false) :
    Finishable (peek 0 >>= fun t => if test t then p else r)
      (fun i => peek 0 >>= fun t => if test t then q i else r' i) c F := by
  have skipped (i : ι) {fs : List Filler} {t : Stream} {Q : α → Stream → Prop} (follows : F fs)
      (ht : t.Says (chunks (c ++ fs))) (h : Gives (r' i) t Q) :
      Gives (peek 0 >>= fun t => if test t then q i else r' i) t Q := by
    refine Gives.bind (gives_next ht fun x _ look => ?_)
    rwa [if_neg (Bool.eq_false_iff.mp (skips fs x follows look))]
  have run {s : Stream} (ended : s.Over) :
      (peek 0 >>= fun t => if test t then p else r).run s = r.run s := by
    obtain ⟨x, hx, spent⟩ := ended.next
    rw [run_peek_bind hx, if_neg (Bool.eq_false_iff.mp (ends x spent))]
  refine ⟨fun i _ _ follows ht => skipped i follows ht (no.fresh i follows ht), fun hs ended => ?_,
    fun {s} hs => ?_⟩
  · rw [run ended]
    exact no.stalls hs ended
  rcases hs.cases with ended | ⟨x, hx, real⟩
  · refine ⟨fun hp => (no.viable hs).leaves (run ended ▸ hp), fun hp _ fs t resumed follows i => ?_,
      fun _ => ⟨c, fun follows resumed i => ?_⟩⟩
    · rw [run ended] at hp
      have left := (no.viable hs).leaves hp
      obtain rfl := (no.stalls hs ended).resolve_right fun stalls => stalls _ hp
      exact skipped i (follows (left.2 ended)) (resumed.said ended)
        ((no.viable hs).passes hp resumed follows i)
    · have ht := resumed.said ended
      exact skipped i follows ht (no.fresh i follows ht)
  · refine .seen hs (fun _ line => by rw [moved]) hx real ?_
    split_ifs with found
    · exact yes hs hx real found
    · exact no.viable hs

theorem Tests.finishable_peek (ht : Tests test) {r : Parser α} {r' : ι → Parser α}
    (yes : ∀ {s x}, s.Ends → s.Next x → x.content ≠ .endOfInput → test x → Viable p q F s)
    (no : Finishable r r' c F) (skips : ∀ fs, F fs → test (nextToken (chunks (c ++ fs))) = false) :
    Finishable (peek 0 >>= fun t => if test t then p else r)
      (fun i => peek 0 >>= fun t => if test t then q i else r' i) c F :=
  finishable_test (fun _ => ht.moved _) ht.ends yes no fun fs x follows look =>
    (ht.plain x).symm.trans (look ▸ skips fs follows)

theorem Tests.finishable_ite (ht : Tests test) {r : Parser α} {r' : ι → Parser α}
    (yes : ∀ {s x}, s.Ends → s.Next x → x.content ≠ .endOfInput → test x → Viable p q F s)
    (no : Finishable r r' c F) (skips : ∀ fs, F fs → test (nextToken (chunks (c ++ fs))) = false) :
    Finishable (do if ← (do return test (← peek 0)) then p else r)
      (fun i => do if ← (do return test (← peek 0)) then q i else r' i) c F := by
  have whole := ht.finishable_peek yes no skips
  simpa only [bind_assoc, pure_bind] using whole

/-- A token that has to be there. -/
theorem Finds.finishable_required (ht : Finds test) {expected : Expected} {c : Filler}
    (hc : test c.1.token) :
    Finishable (do if ← (do return test (← peek 0)) then advance else unexpected expected)
      (fun _ : ι => do if ← (do return test (← peek 0)) then advance else unexpected expected)
      [c] F := by
  refine .inside (fun i fs t _ hs => ?_) (fun _ ended => ht.stalls ?_ _ ended)
    fun {s x} hs hx real => ?_
  · exact Gives.yes (gives_test ht.plain hs) hc ((gives_advance hs).mono fun _ _ h => h.2.1)
  · exact stalls_unexpected
  · refine .looked (ht.sees hs hx real) ?_
    split_ifs with found
    · have taken := Viable.taken (F := F) (f := Pure.pure) (g := fun _ : ι => Pure.pure) hs
        (fun _ line => by rw [ht.moved_newLine found]) hx real
        (.pure (hs.pop hx real) x)
      simpa only [bind_pure] using taken
    · exact .unexpected hx real

end

theorem finishable_delimiter {d : String} (hd : d ∈ Mark.delimiters) :
    Finishable (delimiter d) (fun _ : ι => delimiter d) [⟨.delimiter d, hd⟩] F :=
  (finds_isDelimiter d).finishable_required (by simp [Mark.token, Token.isDelimiter])

theorem finishable_operator {o : String} (ho : o ∈ Lexer.operators) :
    Finishable (operator o) (fun _ : ι => operator o) [⟨.operator o, ho⟩] F :=
  (finds_isOperator o).finishable_required (by simp [Mark.token, Token.isOperator])

theorem finishable_keyword {w : String} (hw : w ∈ Token.keywords) (word : Lexer.isWord w) :
    Finishable (keyword w) (fun _ : ι => keyword w) [⟨.word w, word⟩] F :=
  (finds_isKeyword w).finishable_required (by simp [Mark.token, Token.isKeyword, hw])

/-- What is made of the streams themselves has to be the same for both, but for bounds. -/
theorem Viable.get {f : Stream → Parser α} {g : ι → Stream → Parser α} {q : κ → Parser α}
    (hf : Viable (f s) q F s)
    (hg : ∀ i {line fs t}, s.Resumed line fs t → ∃ k, g i t = q k) :
    Viable (MonadState.get >>= f) (fun i => MonadState.get >>= g i) F s where
  leaves hp := hf.leaves hp
  passes hp _ _ t resumed follows i := by
    obtain ⟨k, hk⟩ := hg i resumed
    exact Gives.bind (Gives.get (hk ▸ hf.passes hp resumed follows k))
  completes hp := by
    obtain ⟨c, hc⟩ := hf.completes hp
    refine ⟨c, fun follows resumed i => ?_⟩
    obtain ⟨k, hk⟩ := hg i resumed
    exact Gives.bind (Gives.get (hk ▸ hc follows resumed k))

/-- The token that was read last is the same in both. -/
theorem Viable.gets {f : Stream → Parser α} {g : ι → Stream → Parser α}
    (hf : Viable (f s) (fun i => g i s) F s)
    (same : ∀ i {line fs t}, s.Resumed line fs t → g i t = g i s) :
    Viable (MonadState.get >>= f) (fun i => MonadState.get >>= g i) F s :=
  .get hf fun i _ _ _ resumed => ⟨i, same i resumed⟩

theorem finishable_spanFrom (start : Token) :
    Finishable (spanFrom start) (fun _ : ι => spanFrom start) [] F where
  fresh _ _ _ _ ht := gives_spanFrom fun _ => ht
  stalls _ _ := .inl rfl
  viable {s} hs := by
    refine .get (.pure (ι := Unit) hs _) fun _ _ _ t resumed => ⟨(), ?_⟩
    rw [resumed.previous]
    cases s.previous <;> rfl

/-- A node with the span of what was read for it. -/
theorem finishable_made (start : Token) (f : Option Span → α) :
    Finishable (do return f (← spanFrom start)) (fun _ : ι => do return f (← spanFrom start)) []
      F :=
  (finishable_spanFrom start).post fun span => .pure (f span)

/-- The token that a node starts with may be one that is moved. -/
theorem spanFrom_newLine (start : Token) (line : List Char) :
    spanFrom (start.moved (.newLine line)) = spanFrom start := by
  unfold spanFrom
  congr 1
  funext s
  cases s.previous <;> rfl

/-- A token is looked at first, of which only the place is used. -/
theorem finishable_start {f : Token → Parser α} {g : ι → Token → Parser α}
    (h : ∀ x, Finishable (f x) (fun i => g i x) c F) (stalls : ∀ x, Stalls (f x))
    (same : ∀ i x line, g i (x.moved (.newLine line)) = g i x) :
    Finishable (peek 0 >>= f) (fun i => peek 0 >>= g i) c F := by
  refine .inside (fun i fs t follows ht => ?_) (fun _ => stalls_peek (fun x _ => stalls x) _)
    fun {s x} hs hx real => .seen hs (fun i => same i x) hx real ((h x).viable hs)
  exact Gives.bind (gives_next ht fun x _ _ => (h x).fresh i follows ht)

/-! ## Bounds -/

/-- The bound for what is one level further in, or one round later. -/
def below {j : Nat} (k : {k // j + 1 < k}) : {k // j < k} :=
  ⟨k - 1, Nat.lt_sub_of_add_lt k.2⟩

theorem upTo_succ {p : Nat → Parser α} {level : Parser α → Parser α}
    (h : ∀ k, p (k + 1) = level (p k)) (j : Nat) :
    (fun k : {k // j + 1 < k} => p k) = fun k => level (p (below k)) := by
  funext ⟨k, hk⟩
  obtain ⟨k, rfl⟩ : ∃ l, k = l + 1 := ⟨k - 1, by omega⟩
  exact h k

/-! ## Loops -/

/-- A loop without a result ended at once. -/
theorem run_many_nil {step : Parser (Option α)} {u : Stream} (h : (many step).run s = .ok ([], u)) :
    step.run s = .ok (none, u) := by
  replace h : (iterateUpTo (collect step) (s.ahead.length + 1) []).run s = .ok ([], u) := h
  rw [run_iterateUpTo_succ, run_collect] at h
  cases hr : step.run s with
  | error e =>
    rw [hr] at h
    cases h
  | ok r =>
    obtain ⟨r, t⟩ := r
    rw [hr] at h
    cases r with
    | none =>
      cases h
      rfl
    | some a =>
      replace h : (iterateUpTo (collect step) s.ahead.length [a]).run t = .ok ([], u) := h
      rw [run_iterateUpTo_collect] at h
      obtain ⟨r, -, hr⟩ := bind_eq_ok h
      cases hr

section

variable {step : α → Parser (Option α)} {step' : ι → α → Parser (Option α)}
  (inside : ∀ a {s x}, s.Ends → s.Next x → x.content ≠ .endOfInput →
    Viable (step a) (fun i => step' i a) F s)
  (ended : ∀ a s r, s.Over → (step a).run s = .ok r → r = (none, s))
  (done : ∀ i a {fs t}, F fs → t.Says (chunks fs) → Gives (step' i a) t fun r u => r = none ∧ u = t)
include inside ended done

omit inside ended in
theorem gives_iterateUpTo_done (i : ι) (a : α) {k : Nat} {fs : List Filler} {t : Stream}
    (follows : F fs) (ht : t.Says (chunks fs)) :
    Gives (iterateUpTo (step' i) (k + 1) a) t fun b v => b = a ∧ v = t := by
  refine Gives.bind ((done i a follows ht).mono ?_)
  rintro _ _ ⟨rfl, rfl⟩
  exact Gives.pure ⟨rfl, rfl⟩

/-- The loop over the longer text has a larger bound. -/
theorem viable_iterateUpTo (j : Nat) (a : α) (hs : s.Ends) :
    Viable (iterateUpTo step j a)
      (fun ik : ι × {k // j < k} => iterateUpTo (step' ik.1) ik.2 a) F s := by
  induction j generalizing a s with
  | zero => exact .throw fun _ same => by cases same
  | succ j ih =>
    have unfolded : (fun ik : ι × {k // j + 1 < k} => iterateUpTo (step' ik.1) ik.2 a) =
        fun ik => step' ik.1 a >>= fun r =>
          r.elim (Pure.pure a) (iterateUpTo (step' ik.1) (below ik.2)) := by
      funext ik
      obtain ⟨i, k, hk⟩ := ik
      obtain ⟨k, rfl⟩ : ∃ l, k = l + 1 := ⟨k - 1, by omega⟩
      exact bind_congr fun r => by cases r <;> rfl
    rw [unfolded]
    have first : Viable (step a) (fun i => step' i a) F s := by
      rcases hs.cases with ends | ⟨_, hx, real⟩
      · exact .ended ends hs (fun r => ended a s r ends) fun i => done i a
      · exact inside a hs hx real
    refine (first.reindex Prod.fst).then (c := []) (fun r u hr => ?_)
      (fun ik r fs t follows ht => ?_) (fun _ h => h) fun _ _ _ _ => .inl rfl
    · cases r with
      | none => exact .pure (first.leaves hr).1 a
      | some b =>
        have later := ih b (first.leaves hr).1
        exact later.reindex fun ik : ι × {k // j + 1 < k} => (ik.1, below ik.2)
    · -- whatever the step gave when it was completed, the loop ends behind it
      cases r with
      | none => exact Gives.pure ht
      | some b =>
        obtain ⟨i, k, hk⟩ := ik
        obtain ⟨k, rfl⟩ : ∃ l, k = l + 2 := ⟨k - 2, by omega⟩
        refine (gives_iterateUpTo_done done i b follows ht).mono ?_
        rintro _ _ ⟨-, rfl⟩
        exact ht

/-- A loop that ends where the text does, and before what follows it. -/
theorem finishable_iterate (a : α) :
    Finishable (iterate step a) (fun i => iterate (step' i) a) [] F where
  fresh i fs t follows ht := by
    refine Gives.bind (Gives.get ((gives_iterateUpTo_done done i a follows ht).mono ?_))
    rintro _ _ ⟨-, rfl⟩
    exact ht
  stalls _ _ := .inl rfl
  viable {s} hs := .get (viable_iterateUpTo inside ended done _ a hs) fun i _ _ _ resumed =>
    ⟨(i, ⟨_, Nat.succ_lt_succ resumed.length_lt⟩), rfl⟩

end

/-- A loop that collects results. -/
theorem finishable_many {step : Parser (Option α)} {step' : ι → Parser (Option α)}
    (inside : ∀ {s x}, s.Ends → s.Next x → x.content ≠ .endOfInput → Viable step step' F s)
    (ended : ∀ s r, s.Over → step.run s = .ok r → r = (none, s))
    (done : ∀ i {fs t}, F fs → t.Says (chunks fs) → Gives (step' i) t fun r u => r = none ∧ u = t) :
    Finishable (many step) (fun i => many (step' i)) [] F := by
  refine finishable_iterate (fun as s x hs hx real => ?_) (fun as s r ends hr => ?_)
    (fun i as fs t follows ht => ?_) []
  · exact (inside hs hx real).post fun r => .pure _
  · rw [StateT.run_bind] at hr
    obtain ⟨r', hr', hr⟩ := bind_eq_ok hr
    cases ended s r' ends hr'
    cases hr
    rfl
  · refine Gives.bind ((done i follows ht).mono ?_)
    rintro _ _ ⟨rfl, rfl⟩
    exact Gives.pure ⟨rfl, rfl⟩

section

variable {test : Token → Bool} (ht : Tests test)
  (skips : ∀ fs, F fs → test (nextToken (chunks fs)) = false)
include ht skips

/-- A loop that goes on as long as the next token passes a test. -/
theorem Tests.finishable_iterate {body : α → Parser (Option α)} {body' : ι → α → Parser (Option α)}
    (yes : ∀ a {s x}, s.Ends → s.Next x → x.content ≠ .endOfInput → test x →
      Viable (body a) (fun i => body' i a) F s) (a : α) :
    Finishable
      (iterate (fun a => do if ← (do return test (← peek 0)) then body a else return none) a)
      (fun i => iterate (fun a => do
        if ← (do return test (← peek 0)) then body' i a else return none) a) [] F := by
  refine Parser.finishable_iterate (fun a s x hs hx real => ?_) (fun a s r ended hr => ?_)
    (fun i a fs t follows hs => ?_) a
  · refine .looked (ht.sees hs hx real) ?_
    split_ifs with found
    · exact yes a hs hx real found
    · exact .pure hs none
  · cases (ht.run_bind_over ended _).symm.trans hr
    rfl
  · exact Gives.no (gives_test ht.plain hs) (skips fs follows) (Gives.pure ⟨rfl, rfl⟩)

theorem Tests.finishable_many {body : Parser (Option α)} {body' : ι → Parser (Option α)}
    (yes : ∀ {s x}, s.Ends → s.Next x → x.content ≠ .endOfInput → test x → Viable body body' F s) :
    Finishable (many do if ← (do return test (← peek 0)) then body else return none)
      (fun i => many do if ← (do return test (← peek 0)) then body' i else return none) [] F := by
  refine Parser.finishable_many (fun {s x} hs hx real => ?_) (fun s r ended hr => ?_)
    fun i fs t follows hs => ?_
  · refine .looked (ht.sees hs hx real) ?_
    split_ifs with found
    · exact yes hs hx real found
    · exact .pure hs none
  · cases (ht.run_bind_over ended _).symm.trans hr
    rfl
  · exact Gives.no (gives_test ht.plain hs) (skips fs follows) (Gives.pure ⟨rfl, rfl⟩)

end

end

end Parser

end Sigil
