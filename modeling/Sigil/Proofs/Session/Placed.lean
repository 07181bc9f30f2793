import Sigil.Proofs.Evaluation.Contract
import Sigil.Proofs.Node.Placed
import Sigil.Proofs.Session.Kept
import Sigil.Proofs.Session.Shown
import Sigil.Proofs.Typing.Events

/-!
# Where failures are

A failure is about the text of its own submission, and is shown with the line that
it is in, or it happens within a function that an earlier submission has defined,
and then its place is one of that text (`submit_located`). For a function keeps the
nodes of its body as they were read, with their spans, and no other node is ever
evaluated than those of the entry and of the functions that the store holds
(`Contract.spanned`).
-/

namespace Sigil

/-! ## Values and stores -/

/-- The spans of the body of a function are as `P` says. -/
def Value.Spanned (P : Option Span → Prop) : Value → Prop
  | .datum _ => True
  | .closure c => (Node.block c.bodySpan c.body).Spanned P

namespace Store

/-- The spans of the bodies of all functions in the store are as `P` says. -/
def Spanned (P : Option Span → Prop) (s : Store) : Prop :=
  ∀ f name slot, s.slotIn? f name = some slot → slot.value.Spanned P

variable {P : Option Span → Prop} {s : Store}

theorem Spanned.lookup? (h : s.Spanned P) {f : FrameId} {name : String} {v : Value}
    (hv : s.lookup? f name = some v) : v.Spanned P := by
  obtain ⟨g, slot, hs, rfl⟩ := slotIn?_of_lookup? hv
  exact h g name slot hs

theorem Spanned.push (h : s.Spanned P) (outer : Option FrameId) : (s.push outer).2.Spanned P := by
  intro f name slot hs
  rw [slotIn?_push] at hs
  exact h f name slot hs

theorem Spanned.define (h : s.Spanned P) (f : FrameId) (name : String) {slot : Slot}
    (hs : slot.value.Spanned P) : (s.define f name slot).Spanned P := by
  intro g other slot' hg
  rw [slotIn?_define] at hg
  split_ifs at hg
  · cases hg
    exact hs
  · exact h g other slot' hg

theorem Spanned.assign (h : s.Spanned P) (f : FrameId) (name : String) {v : Value}
    (hv : v.Spanned P) : (s.assign f name v).Spanned P := by
  rcases s.assign_cases f name v with ⟨-, e⟩ | ⟨g, slot, -, -, e⟩
  · rw [e]
    exact h
  · rw [e]
    exact h.define g name hv

end Store

/-! ## Evaluation -/

/-- What an exit is about is as `P` says. -/
def Exit.Spanned (P : Option Span → Prop) : Exit → Prop
  | .error e => P e.span
  | .returned v => v.Spanned P
  | .tooDeep => True

namespace Eval

/-- Spans are as `P` says, those of the nodes to be evaluated and those of the functions in the
store, and so are those of errors. -/
def Contract.spanned (P : Option Span → Prop) : Contract where
  holds w := w.store.Spanned P
  carries := Value.Spanned P
  admits n _ := n.Spanned P
  fresh _ := True
  blames := P
  ends e w := w.store.Spanned P ∧ e.Spanned P

theorem Contract.stable_spanned (host : Option Host) {P : Option Span → Prop} (h : P none) :
    (Contract.spanned P).Stable host where
  direct hn hm := hn.direct hm
  enclosed hn _ hm := hn.enclosed hm
  body hc _ := hc
  datum _ := trivial
  found hw hv := hw.lookup? hv
  closure _ hn := hn.body
  pushed _ hw := ⟨hw.push _, trivial⟩
  counted hw := hw
  bound name hw _ hv := hw.define _ name hv
  defined hw _ _ hv := hw.define _ _ hv
  assigned f name hw hv := hw.assign f name hv
  answered _ _ hw _ := hw
  refused _ _ _ _ hw _ hb := ⟨hw, hb⟩
  blamesNone := h
  blamesNode hn := hn.span
  fails _ hw hb := ⟨hw, hb⟩
  returns hw hv := ⟨hw, hv⟩
  caught h := h
  tooDeep hw := ⟨hw, trivial⟩

end Eval

/-! ## Entries -/

/-- A failure of entries whose spans are as `R` says: it is about one of them, or, if it comes from
running them, about a span as `P` says. -/
def Failure.About (R P : Option Span → Prop) : Failure → Prop
  | .runtime e => P e.span
  | f => R f.span

/-- If the outcome is a failure, it is about a span as `R` says, or as `P` says if it comes from
running entries. -/
def Outcome.About (R P : Option Span → Prop) (o : Outcome) : Prop :=
  ∀ f, o = .failed f → f.About R P

namespace Session

open Eval

/-- Only the root scope is open, and the functions of the store have spans as `P` says. -/
structure Sound (P : Option Span → Prop) (s : Session) : Prop where
  inner : s.scopes.inner = []
  store : s.world.store.Spanned P

variable {host : Option Host} {P R : Option Span → Prop} {s : Session}

theorem sound_initial : initial.Sound P :=
  ⟨rfl, Store.Spanned.push (s := .empty) (fun _ _ _ => nofun) none⟩

theorem Sound.mono (h : s.Sound R) (hP : ∀ span, R span → P span) : s.Sound P := by
  refine ⟨h.inner, fun f name slot hs => ?_⟩
  have spanned := h.store f name slot hs
  cases hv : slot.value with
  | datum d => trivial
  | closure c =>
    rw [hv] at spanned
    exact Node.Spanned.mono spanned hP

theorem Sound.look (h : s.Sound P) : s.look.2.Sound P := by
  unfold Session.look
  split
  · exact h
  · exact h
  · exact ⟨h.inner, h.store⟩

section

variable (host) (nowhere : P none) (hP : ∀ span, R span → P span)
include nowhere hP

theorem enter_about {e : Entry} (he : e.node.Spanned R) (h : s.Sound P) :
    (s.enter host e).2.Sound P ∧ ∀ o, (s.enter host e).1 = .error o → o.About R P := by
  obtain ⟨⟨t, -, scopes⟩, -, ends⟩ := check_runs e.node s.scopes h.inner
  have ran := (Contract.stable_spanned host nowhere).run_evaluate Eval.maxDepth (n := e.node)
    (f := rootFrame) (he.mono hP) h.store
  unfold enter
  dsimp only
  rw [scopes]
  cases hc : (check e.node s.scopes e.node.blankNotes).outcome with
  | error f =>
    refine ⟨⟨rfl, h.store⟩, fun o ho g hg => ?_⟩
    rw [hc] at ends
    obtain ⟨span, left, rfl, events⟩ := ends
    cases ho
    cases hg
    have there : .returns span ∈ e.node.events := by
      rw [events]
      exact List.mem_append_right _ List.mem_cons_self
    obtain ⟨m, hm, rfl⟩ := e.node.exists_of_returns there
    exact he m hm
  | ok ty =>
    dsimp only
    rcases hr : (Eval.evaluate host Eval.maxDepth e.node rootFrame).run s.world with ⟨x | v, w⟩
    · rw [hr] at ran
      refine ⟨⟨rfl, ran.1⟩, fun o ho g hg => ?_⟩
      cases ho
      cases x with
      | error e =>
        cases hg
        exact ran.2
      | returned v => cases hg
      | tooDeep =>
        cases hg
        exact hP _ he.span
    · rw [hr] at ran
      exact ⟨⟨rfl, ran.1⟩, nofun⟩

theorem enterAll_about {es : List Entry} (hes : ∀ e ∈ es, e.node.Spanned R) (h : s.Sound P)
    (v : Option Value) :
    (s.enterAll host v es).2.Sound P ∧
      ∀ o, (s.enterAll host v es).1 = .error o → o.About R P := by
  induction es generalizing s v with
  | nil => exact ⟨h, nofun⟩
  | cons e es ih =>
    have looked := h.look
    unfold enterAll
    split
    · next t k =>
      rw [k] at looked
      exact ⟨looked, fun o ho f hf => by cases ho; cases hf⟩
    · next t k =>
      rw [k] at looked
      have entered := enter_about host nowhere hP (hes e List.mem_cons_self) looked
      split
      · next u k =>
        rw [k] at entered
        exact ih (fun e he => hes e (List.mem_cons_of_mem _ he)) entered.1 _
      · next u k =>
        rw [k] at entered
        refine ⟨entered.1, fun o ho => ?_⟩
        cases ho
        exact entered.2 _ rfl

end

/-! ## Submissions -/

theorem outcomeOfValue_about (nowhere : P none) (v : Option Value) :
    (outcomeOfValue v).About R P := by
  unfold outcomeOfValue
  intro f hf
  split at hf
  · cases hf
  · cases hf
  · split at hf
    · cases hf
    · cases hf
      exact nowhere

variable {text : List Char} {openEnded : Bool}

/-- A text that can be read: what its failure is about. -/
theorem submit_about {ns : List Node} (host : Option Host)
    (read : parseEntries (s.pending ++ text) openEnded = .ok ns) (nowhere : P none)
    (hP : ∀ span, R span → P span) (hns : ∀ n ∈ ns, n.Spanned R) (h : s.Sound P) :
    (s.submit host text openEnded).2.Sound P ∧
      (s.submit host text openEnded).1.outcome.About R P := by
  have entries : ∀ e ∈ ns.map (Entry.of (s.pending ++ text)), e.node.Spanned R := by
    intro e he
    obtain ⟨n, hn, rfl⟩ := List.mem_map.mp he
    exact hns n hn
  have start : s.resetInput.Sound P := ⟨h.inner, h.store⟩
  have ran := enterAll_about host nowhere hP entries start none
  rw [submit_of_entries host read]
  refine ⟨⟨ran.1.inner, ran.1.store⟩, ?_⟩
  dsimp only [conclude]
  cases ho : (s.resetInput.enterAll host none (ns.map (Entry.of (s.pending ++ text)))).1 with
  | ok v => exact outcomeOfValue_about nowhere v
  | error o => exact ran.2 o ho

/-- A text that cannot be read: its failure is about a place in it. -/
theorem submit_unread {stop : Stop} (host : Option Host)
    (unread : parseEntries (s.pending ++ text) openEnded = .error stop) (h : s.Sound P) :
    (s.submit host text openEnded).2.Sound P ∧
      ∀ f, (s.submit host text openEnded).1.outcome = .failed f →
        InText (s.pending ++ text) f.span := by
  obtain ⟨outcome, world, scopes, -⟩ := submit_of_error host unread
  have stands := parseEntries_standsIn (s.pending ++ text) openEnded
  rw [unread] at stands
  refine ⟨⟨scopes ▸ h.inner, world ▸ h.store⟩, fun f hf => ?_⟩
  rw [outcome] at hf
  cases stop with
  | needsMore | exhausted => cases hf
  | lex e | parse e =>
    cases hf
    rintro _ ⟨⟩
    exact ⟨stands, stands⟩

/-! ## Requests -/

/-- The text that a request reads, if it submits one, with what was kept for it. -/
def readBy (s : Session) : Request → List (List Char)
  | .submit text _ => [s.pending ++ text]
  | .resetInput | .schedule _ => []

/-- The texts that are read on requests, one after the other. -/
def submitted (host : Option Host) (s : Session) : List Request → List (List Char)
  | [] => []
  | r :: rs => s.readBy r ++ (s.serve host r).submitted host rs

/-- A span that a node may have stands in one of several texts. -/
def InOneOf (texts : List (List Char)) (span : Option Span) : Prop :=
  ∀ s ∈ span, ∃ text ∈ texts, s.StandsIn text

/-- After requests, all functions are from texts that were submitted. -/
theorem sound_serveAll {texts : List (List Char)} (h : s.Sound (InOneOf texts))
    (rs : List Request) :
    (s.serveAll host rs).Sound (InOneOf (texts ++ s.submitted host rs)) := by
  induction rs generalizing s texts with
  | nil =>
    rw [submitted, List.append_nil]
    exact h
  | cons r rs ih =>
    rw [submitted, ← List.append_assoc]
    refine ih (s := s.serve host r) ?_
    cases r with
    | submit text openEnded =>
      have earlier : s.Sound (InOneOf (texts ++ [s.pending ++ text])) :=
        h.mono fun span hs t ht => (hs t ht).imp fun _ => And.imp_left (List.mem_append_left _)
      have here (span : Option Span) (hs : InText (s.pending ++ text) span) :
          InOneOf (texts ++ [s.pending ++ text]) span :=
        fun t ht => ⟨_, List.mem_append_right _ (List.mem_singleton_self _), hs t ht⟩
      have stands := parseEntries_standsIn (s.pending ++ text) openEnded
      cases read : parseEntries (s.pending ++ text) openEnded with
      | error stop => exact (submit_unread host read earlier).1
      | ok ns =>
        rw [read] at stands
        exact (submit_about host read nofun here stands earlier).1
    | resetInput | schedule =>
      rw [readBy, List.append_nil]
      exact ⟨h.inner, h.store⟩

/-- The span is that of a node in the body of a function that the store holds. -/
def Remembers (s : Session) (span : Option Span) : Prop :=
  ∃ f name slot c, s.world.store.slotIn? f name = some slot ∧ slot.value = .closure c ∧
    ∃ n ∈ (Node.block c.bodySpan c.body).walk, n.span = span

theorem Remembers.sound {span : Option Span} (k : s.Remembers span) (h : s.Sound P) : P span := by
  obtain ⟨f, name, slot, c, hs, hv, n, hn, rfl⟩ := k
  have body := h.store f name slot hs
  rw [hv] at body
  exact body n hn

/-- A session has functions with the spans that it remembers. -/
theorem sound_remembers (h : s.scopes.inner = []) : s.Sound s.Remembers := by
  refine ⟨h, fun f name slot hs => ?_⟩
  cases hv : slot.value with
  | datum d => trivial
  | closure c => exact fun n hn => ⟨f, name, slot, c, hs, hv, n, hn, rfl⟩

end Session

namespace Submission

variable {r : Submission} {f : Failure}

theorem failure?_eq_some_iff : r.failure? = some f ↔ r.outcome = .failed f := by
  unfold failure?
  cases r.outcome <;> simp

/-- The place stands in the text that was read, with the line and the column that go with its
offset, and the failure is shown with the line that it stands in and a mark under it. -/
def Shows (r : Submission) (f : Failure) (p : Position) : Prop :=
  p.offset ≤ r.source.length ∧ p = .ofOffset r.source p.offset ∧
    ∃ first last, p.InLine r.source first last ∧
      r.formatError = s!"Error on line {p.line}, col {p.column}: {f.message}" ++ "\n  " ++
        String.ofList (first ++ last) ++ "\n  " ++
        String.ofList (List.replicate first.length ' ') ++ "^"

/-- A failure about something in the text. -/
theorem shows_of_inText {span : Span} (failed : r.failure? = some f) (hf : f.span = some span)
    (h : InText r.source f.span) : r.Shows f span.start := by
  have stands : span.start.StandsIn r.source := (h span hf).1
  obtain ⟨within, offset⟩ := Position.standsIn_iff.mp stands
  refine ⟨within, offset, ?_⟩
  rw [formatError, failed]
  exact Failure.format_standsIn (congrArg (Option.map _) hf) stands

end Submission

namespace Session

/-- A failure that has a place is shown in the text of its submission, and if that can be read, it
is about a node of it; or it is a failure of running a function that was there before, and then its
place stands in a text that was submitted earlier. -/
theorem submit_located (host : Option Host) (rs : List Request) (text : List Char)
    (openEnded : Bool) (f : Failure) (p : Position) :
    let s := initial.serveAll host rs
    let r := (s.submit host text openEnded).1
    r.failure? = some f → f.position = some p →
      (r.Shows f p ∧ ∀ ns, parseEntries r.source openEnded = .ok ns →
          ∃ n ∈ ns, ∃ m ∈ n.walk, m.span = f.span) ∨
        (∃ e, f = .runtime e) ∧ s.Remembers f.span ∧
          ∃ earlier ∈ initial.submitted host rs, p.StandsIn earlier := by
  intro s r failed place
  obtain ⟨span, hspan, rfl⟩ := Option.map_eq_some_iff.mp place
  have source : r.source = s.pending ++ text := source_submit host s text openEnded
  have outcome : r.outcome = .failed f := Submission.failure?_eq_some_iff.mp failed
  have sound : s.Sound (InOneOf ([] ++ initial.submitted host rs)) :=
    sound_serveAll sound_initial rs
  have shown (h : InText (s.pending ++ text) f.span) : r.Shows f span.start :=
    Submission.shows_of_inText failed hspan (source ▸ h)
  have stands := parseEntries_standsIn (s.pending ++ text) openEnded
  rw [source]
  cases read : parseEntries (s.pending ++ text) openEnded with
  | error stop => exact .inl ⟨shown ((submit_unread host read sound).2 f outcome), nofun⟩
  | ok ns =>
    rw [read] at stands
    let here (span : Option Span) : Prop := ∃ n ∈ ns, ∃ m ∈ n.walk, m.span = span
    have located (h : here f.span) : r.Shows f span.start ∧
        ∀ ns', (Except.ok ns : Except Stop (List Node)) = .ok ns' →
          ∃ n ∈ ns', ∃ m ∈ n.walk, m.span = f.span := by
      refine ⟨?_, fun ns' same => by cases same; exact h⟩
      obtain ⟨n, hn, m, hm, same⟩ := h
      exact shown (same ▸ stands n hn m hm)
    -- what runs is an entry of the text or a function that is remembered
    have known : s.Sound fun span => span = none ∨ here span ∨ s.Remembers span :=
      (sound_remembers sound.inner).mono fun _ h => .inr (.inr h)
    have about : f.About here fun span => span = none ∨ here span ∨ s.Remembers span :=
      (submit_about host read (.inl rfl) (fun _ h => .inr (.inl h))
        (fun n hn m hm => ⟨n, hn, m, hm, rfl⟩) known).2 f outcome
    cases f with
    | lex | parse | misplacedReturn => exact .inl (located about)
    | runtime e =>
      rcases about with nowhere | there | remembered
      · cases hspan.symm.trans nowhere
      · exact .inl (located there)
      · obtain ⟨earlier, submitted, stands⟩ := remembered.sound sound span hspan
        exact .inr ⟨⟨e, rfl⟩, remembered, earlier, submitted, stands.1⟩

/-- A failure in the second line of a text. -/
theorem submit_located_sample :
    let rs := [Request.submit "let $x = 4".toList false]
    let s := initial.serveAll none rs
    let r := (s.submit none "if true \x7b\n  $x / 0\n\x7d".toList false).1
    ∃ f, r.failure? = some f ∧ f.position = some ⟨12, 2, 3⟩ ∧
      ((r.Shows f ⟨12, 2, 3⟩ ∧ ∀ ns, parseEntries r.source false = .ok ns →
          ∃ n ∈ ns, ∃ m ∈ n.walk, m.span = f.span) ∨
        (∃ e, f = .runtime e) ∧ s.Remembers f.span ∧
          ∃ earlier ∈ initial.submitted none rs, Position.StandsIn earlier ⟨12, 2, 3⟩) := by
  intro rs s r
  have fails : (r.failure?.bind Failure.position) = some ⟨12, 2, 3⟩ := by decide +kernel
  obtain ⟨f, failed, place⟩ := Option.bind_eq_some_iff.mp fails
  exact ⟨f, failed, place, submit_located none rs _ false f _ failed place⟩

/-- A failure in a function of an earlier submission: its place is none of the text that is read. -/
example :
    let rs := [Request.submit "let $padding = 12345;\nfn f() \x7b 1 / 0 \x7d".toList false]
    let r := ((initial.serveAll none rs).submit none "f()".toList false).1
    r.failure?.bind Failure.position = some ⟨31, 2, 10⟩ ∧ r.source.length = 3 := by
  decide +kernel

end Session

end Sigil
