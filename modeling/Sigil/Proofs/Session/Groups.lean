import Sigil.Proofs.Session.Kept
import Sigil.Repl

/-!
# Entries typed over several lines

What is typed falls into groups of lines (`Repl.cut`): the lines from a fresh
prompt on until they make a text that needs no more of them, or until an
interrupt gives them up. Whether a text needs more is a matter of reading it
alone (`Repl.wantsMore`), so that the groups do not depend on the session.

Typing is submitting the completed groups, each as one text (`Repl.run_cut`).
The loop and the session that gets whole texts are compared line by line. While
a group is open, the first differs from the second in what it keeps for later
and in whether it finds itself interrupted (`Session.Waits`), and neither of the
two is left when the group is completed (`Session.Waits.submitAfresh`).
-/

namespace Sigil

/-! ## Groups -/

namespace Repl

/-- Lines that were typed from one fresh prompt on. -/
inductive Group where
  /-- They make a text that needs no more lines. -/
  | completed (lines : List String)
  /-- They were given up by an interrupt. -/
  | discarded (lines : List String)
deriving DecidableEq

/-- How what is typed ends. -/
inductive Ending where
  /-- There is no more of it; some lines may wait for others. -/
  | input (opened : List String)
  /-- The loop is left, and something may not be read any more. -/
  | exit (unread : List Typed)
deriving DecidableEq

/-- Lines as one text, with newlines between them. -/
def joinLines (lines : List String) : List Char :=
  ['\n'].intercalate (lines.map (·.toList))

/-- Whether a text ends within a construct. -/
def wantsMore (text : List Char) : Bool :=
  match parseEntries text true with
  | .error (.needsMore _) => true
  | _ => false

/-- Cuts what is typed into groups, after some lines that wait for others. Where no line waits, a
blank one is passed over, and the word `exit` ends the loop. -/
def cut (opened : List String) : List Typed → List Group × Ending
  | [] => ([], .input opened)
  | .interrupt :: rest =>
    let (groups, ending) := cut [] rest
    (.discarded opened :: groups, ending)
  | .line text :: rest =>
    if opened = [] ∧ Text.trim text = "" then cut [] rest
    else if opened = [] ∧ Text.trim text = "exit" then ([], .exit rest)
    else if wantsMore (joinLines (opened ++ [text])) then cut (opened ++ [text]) rest
    else
      let (groups, ending) := cut [] rest
      (.completed (opened ++ [text]) :: groups, ending)

/-- The text of a group, if it was completed. -/
def Group.text? : Group → Option (List Char)
  | completed lines => some (joinLines lines)
  | discarded _ => none

/-- What was not read. -/
def Ending.unread : Ending → List Typed
  | input _ => []
  | exit unread => unread

/-- What is shown at the end. -/
def Ending.shown : Ending → Transcript
  | input _ => Transcript.line ""
  | exit _ => []

/-- What is shown for groups: the report of the answer to each that was completed, and a mark for
each that was not. -/
def shown : List Group → List Submission → Transcript
  | .discarded _ :: groups, answers => Transcript.line "^C" ++ shown groups answers
  | .completed _ :: groups, r :: answers => r.report ++ shown groups answers
  | .completed _ :: _, [] | [], _ => []

end Repl

/-- A transcript without the prompts. -/
def Transcript.withoutPrompts (t : Transcript) : Transcript :=
  t.filter fun
    | .prompt _ => false
    | .output _ | .complaint _ => true

namespace Session

/-- Submits whole texts, one after the other. -/
def submitEach (host : Option Host) (s : Session) : List (List Char) → List Submission × Session
  | [] => ([], s)
  | text :: texts =>
    let (r, s) := s.submitAfresh host text true
    let (answers, s) := submitEach host s texts
    (r :: answers, s)

end Session

/-! ## Transcripts -/

namespace Transcript

theorem withoutPrompts_append (t u : Transcript) :
    (t ++ u).withoutPrompts = t.withoutPrompts ++ u.withoutPrompts :=
  List.filter_append ..

theorem withoutPrompts_prompt (prompts : Prompts) (s : Session) (t : Transcript) :
    withoutPrompts (Repl.prompt prompts s :: t) = t.withoutPrompts := rfl

/-- A report has no prompts. -/
theorem withoutPrompts_report (r : Submission) : r.report.withoutPrompts = r.report := by
  have warnings : r.warnings.withoutPrompts = r.warnings := by
    unfold withoutPrompts Submission.warnings
    rw [List.filter_flatMap]
    rfl
  unfold Submission.report
  rw [withoutPrompts_append, warnings]
  cases r.exitStatus with
  | ok => cases r.display? <;> rfl
  | error | usage | interrupted => rfl

end Transcript

/-! ## Waiting lines -/

namespace Repl

theorem wantsMore_iff {text : List Char} :
    wantsMore text ↔ ∃ missing, parseEntries text true = .error (.needsMore missing) := by
  unfold wantsMore
  split
  · next missing h => exact iff_of_true rfl ⟨missing, h⟩
  · next other => exact iff_of_false Bool.false_ne_true fun ⟨missing, h⟩ => other missing h

/-- What a session keeps of lines that wait for others. -/
def kept (opened : List String) : List Char :=
  opened.flatMap (·.toList ++ ['\n'])

theorem kept_append (opened : List String) (text : String) :
    kept (opened ++ [text]) = kept opened ++ (text.toList ++ ['\n']) := by
  rw [kept, List.flatMap_append, List.flatMap_singleton]
  rfl

/-- A line that continues others makes the text of all of them. -/
theorem kept_append_toList (opened : List String) (text : String) :
    kept opened ++ text.toList = joinLines (opened ++ [text]) := by
  induction opened with
  | nil => exact (List.append_nil _).symm
  | cons line opened ih =>
    obtain ⟨next, rest, lines⟩ := List.exists_cons_of_ne_nil (List.append_ne_nil_of_right_ne_nil
      opened (List.cons_ne_nil text []))
    have tail : joinLines (line :: (opened ++ [text])) =
        line.toList ++ ['\n'] ++ joinLines (opened ++ [text]) := by
      rw [lines]
      exact List.intercalate_cons_cons
    rw [List.cons_append, tail, ← ih, kept, List.flatMap_cons, List.append_assoc]
    rfl

end Repl

namespace Session

variable {host : Option Host} {s t : Session} {opened : List String}

theorem outcomeOfValue_ne_incomplete (v : Option Value) : outcomeOfValue v ≠ .incomplete := by
  unfold outcomeOfValue
  split
  · exact fun same => by cases same
  · exact fun same => by cases same
  · split <;> exact fun same => by cases same

/-- What a session keeps is read again before the text that is submitted. -/
theorem submit_eq_submit_resetInput (host : Option Host) (s : Session) (text : List Char)
    (openEnded : Bool) : s.submit host text openEnded =
      s.resetInput.submit host (s.pending ++ text) openEnded := rfl

/-- A text that ends within a construct is kept, and does nothing else. -/
theorem submit_of_wantsMore (host : Option Host) {text : List Char} (h : Repl.wantsMore (s.pending ++ text)) :
    (s.submit host text true).1.outcome = .incomplete ∧
      (s.submit host text true).2 = { s with pending := s.pending ++ text ++ ['\n'] } := by
  obtain ⟨missing, read⟩ := Repl.wantsMore_iff.mp h
  unfold submit
  dsimp only
  rw [read]
  exact ⟨rfl, rfl⟩

/-- Any other text is answered, and nothing is kept. -/
theorem submit_of_not_wantsMore (host : Option Host) {text : List Char}
    (h : ¬ Repl.wantsMore (s.pending ++ text) = true) :
    (s.submit host text true).1.outcome ≠ .incomplete ∧
      (s.submit host text true).2.pending = [] := by
  rw [Repl.wantsMore_iff] at h
  cases read : parseEntries (s.pending ++ text) true with
  | error stop =>
    unfold submit
    dsimp only
    rw [read]
    cases stop with
    | needsMore missing => exact absurd ⟨missing, read⟩ h
    | lex | parse | exhausted => exact ⟨fun same => (by cases same), rfl⟩
  | ok ns =>
    rw [submit_of_entries host read]
    refine ⟨?_, pending_enterAll host _ s.resetInput none⟩
    show outcomeOf (s.resetInput.enterAll host none _).1 ≠ .incomplete
    cases ran : (s.resetInput.enterAll host none (ns.map (Entry.of (s.pending ++ text)))).1 with
    | ok v => exact outcomeOfValue_ne_incomplete v
    | error o =>
      rcases enterAll_ends host _ _ _ ran with rfl | ⟨f, rfl⟩ | ⟨x, rfl⟩ <;>
        exact fun same => by cases same

/-- `s` is the session `t`, in which nothing waits, but for lines that wait in it and for whether it
finds itself interrupted. -/
structure Waits (s t : Session) (opened : List String) : Prop where
  pending : s.pending = Repl.kept opened
  fresh : t.pending = []
  same : s.resetInput.schedule none = t.resetInput.schedule none

namespace Waits

theorem refl (h : s.pending = []) : s.Waits s [] := ⟨h, h, rfl⟩

/-- An interrupt at a prompt gives the lines up and does nothing else. -/
theorem resetInput (h : s.Waits t opened) : s.resetInput.Waits t [] := ⟨rfl, h.fresh, h.same⟩

/-- No line waits exactly if the session has begun no entry. -/
theorem isPending_iff (h : s.Waits t opened) : s.isPending = false ↔ opened = [] := by
  unfold isPending
  rw [h.pending]
  cases opened with
  | nil => exact iff_of_true rfl rfl
  | cons line opened => simp [Repl.kept]

/-- A line does what the lines together do, submitted as one text. -/
theorem submitAfresh (h : s.Waits t opened) (text : String) :
    s.submitAfresh host text.toList true =
      t.submitAfresh host (Repl.joinLines (opened ++ [text])) true := by
  unfold Session.submitAfresh
  rw [submit_eq_submit_resetInput, submit_eq_submit_resetInput _ (t.schedule none)]
  show (s.resetInput.schedule none).submit host (s.pending ++ text.toList) true =
    (t.resetInput.schedule none).submit host (t.pending ++ _) true
  rw [h.same, h.pending, h.fresh, Repl.kept_append_toList, List.nil_append]

/-- A line after which the text still wants more waits with the others. -/
theorem append (host : Option Host) (h : s.Waits t opened) {text : String}
    (more : Repl.wantsMore (Repl.joinLines (opened ++ [text]))) :
    (s.submitAfresh host text.toList true).1.outcome = .incomplete ∧
      (s.submitAfresh host text.toList true).2.Waits t (opened ++ [text]) := by
  rw [← Repl.kept_append_toList, ← h.pending] at more
  obtain ⟨outcome, session⟩ := submit_of_wantsMore host (s := s.schedule none) more
  refine ⟨outcome, ?_⟩
  rw [Session.submitAfresh, session]
  refine ⟨?_, h.fresh, h.same⟩
  rw [Repl.kept_append, ← h.pending]
  exact List.append_assoc ..

/-- After a line that completes a text there is no difference any more. -/
theorem completed (host : Option Host) (h : s.Waits t opened) {text : String}
    (enough : ¬ Repl.wantsMore (Repl.joinLines (opened ++ [text])) = true) :
    (s.submitAfresh host text.toList true).1.outcome ≠ .incomplete ∧
      (s.submitAfresh host text.toList true).2.Waits (s.submitAfresh host text.toList true).2 [] := by
  rw [← Repl.kept_append_toList, ← h.pending] at enough
  obtain ⟨outcome, nothing⟩ := submit_of_not_wantsMore host (s := s.schedule none) enough
  exact ⟨outcome, refl nothing⟩

end Waits

end Session

/-! ## The loop -/

namespace Repl

variable {host : Option Host} {prompts : Prompts} {s t : Session} {opened : List String}

section

variable {status : ExitStatus} {text : String} {rest : List Typed}

/-- A blank line at a fresh prompt is passed over. -/
theorem run_blank (h : s.isPending = false ∧ Text.trim text = "") :
    run host prompts s status (.line text :: rest) =
      ((run host prompts s status rest).1,
        prompt prompts s :: (run host prompts s status rest).2) := by
  rw [run]
  simp [h]

/-- The word `exit` at a fresh prompt ends the loop. -/
theorem run_exit (h : s.isPending = false ∧ Text.trim text = "exit") :
    run host prompts s status (.line text :: rest) =
      (⟨status, s, rest⟩, [prompt prompts s]) := by
  rw [run]
  simp [h]

variable (blank : ¬ (s.isPending = false ∧ Text.trim text = ""))
  (exit : ¬ (s.isPending = false ∧ Text.trim text = "exit"))
include blank exit

/-- After any other line that makes no complete text, the loop goes on. -/
theorem run_incomplete (h : (s.submitAfresh host text.toList true).1.outcome = .incomplete) :
    run host prompts s status (.line text :: rest) =
      let ran := run host prompts (s.submitAfresh host text.toList true).2 status rest
      (ran.1, prompt prompts s :: ran.2) := by
  rw [run]
  dsimp only
  rw [if_neg (by simpa using blank), if_neg (by simpa using exit), h]

/-- After any other line that makes a complete text, the answer to that is reported. -/
theorem run_complete (h : (s.submitAfresh host text.toList true).1.outcome ≠ .incomplete) :
    run host prompts s status (.line text :: rest) =
      let r := (s.submitAfresh host text.toList true).1
      let ran := run host prompts (s.submitAfresh host text.toList true).2 r.exitStatus rest
      (ran.1, prompt prompts s :: (r.report ++ ran.2)) := by
  rw [run]
  dsimp only
  rw [if_neg (by simpa using blank), if_neg (by simpa using exit)]
  split
  · next same => exact absurd same h
  · rfl

end

/-- What the loop comes to, compared with whole texts that are submitted: the session but for what
waits and whether it finds itself interrupted, the status of the last answer, what was not read,
and all that is shown besides the prompts. -/
def Agrees (host : Option Host) (t : Session) (status : ExitStatus) (groups : List Group)
    (ending : Ending) (ran : ReplEnd × Transcript) : Prop :=
  let whole := t.submitEach host (groups.filterMap Group.text?)
  ran.1.session.resetInput.schedule none = whole.2.resetInput.schedule none ∧
    ran.1.status = (whole.1.getLast?.map (·.exitStatus)).getD status ∧
    ran.1.unread = ending.unread ∧
    ran.2.withoutPrompts = shown groups whole.1 ++ ending.shown ∧
    ∀ r ∈ whole.1, r.outcome ≠ .incomplete

namespace Agrees

variable {status : ExitStatus} {groups : List Group} {ending : Ending} {ran : ReplEnd × Transcript}

theorem discarded (h : Agrees host t status groups ending ran) (lines : List String) :
    Agrees host t status (.discarded lines :: groups) ending
      (ran.1, prompt prompts s :: (Transcript.line "^C" ++ ran.2)) := by
  obtain ⟨session, ended, unread, seen, answered⟩ := h
  refine ⟨session, ended, unread, ?_, answered⟩
  show Transcript.line "^C" ++ _ = Transcript.line "^C" ++ _ ++ _
  rw [List.append_assoc]
  exact congrArg _ seen

theorem completed {lines : List String} {r : Submission} {u : Session}
    (submitted : t.submitAfresh host (joinLines lines) true = (r, u))
    (answer : r.outcome ≠ .incomplete) (h : Agrees host u r.exitStatus groups ending ran) :
    Agrees host t status (.completed lines :: groups) ending
      (ran.1, prompt prompts s :: (r.report ++ ran.2)) := by
  unfold Agrees at h ⊢
  rw [show List.filterMap Group.text? (.completed lines :: groups) =
    joinLines lines :: groups.filterMap Group.text? from rfl, Session.submitEach, submitted]
  obtain ⟨session, ended, unread, seen, answered⟩ := h
  refine ⟨session, ?_, unread, ?_, List.forall_mem_cons.mpr ⟨answer, answered⟩⟩
  · rw [ended, List.getLast?_cons]
    cases (u.submitEach host (groups.filterMap Group.text?)).1.getLast? <;> rfl
  · rw [Transcript.withoutPrompts_prompt, Transcript.withoutPrompts_append,
      Transcript.withoutPrompts_report, seen, shown, List.append_assoc]

end Agrees

/-- The loop, from a session in which some lines wait, agrees with a session that gets whole texts
and in which nothing waits. -/
theorem run_agrees (typed : List Typed) (status : ExitStatus) (h : s.Waits t opened) :
    Agrees host t status (cut opened typed).1 (cut opened typed).2
      (run host prompts s status typed) := by
  induction typed generalizing s t opened status with
  | nil => exact ⟨h.same, rfl, rfl, rfl, fun _ h => absurd h List.not_mem_nil⟩
  | cons next rest ih =>
    cases next with
    | interrupt => exact (ih status h.resetInput).discarded opened
    | line text =>
      have begun (word : String) : s.isPending = false ∧ Text.trim text = word ↔
          opened = [] ∧ Text.trim text = word := and_congr_left' h.isPending_iff
      rw [cut]
      -- at a fresh prompt, a blank line and `exit` are not submitted
      split
      · next blank =>
        rw [run_blank ((begun _).mpr blank), ← blank.1]
        exact ih status h
      split
      · next exit =>
        rw [run_exit ((begun _).mpr exit)]
        exact ⟨h.same, rfl, rfl, rfl, fun _ h => absurd h List.not_mem_nil⟩
      next blank exit =>
      rw [← begun] at blank exit
      split
      · next more =>
        obtain ⟨outcome, waits⟩ := h.append host more
        rw [run_incomplete blank exit outcome]
        exact ih status waits
      · next enough =>
        obtain ⟨outcome, fresh⟩ := h.completed host enough
        rw [run_complete blank exit outcome]
        rw [h.submitAfresh text] at outcome fresh ⊢
        exact (ih _ fresh).completed rfl outcome

/-- Typing is submitting, in order, the texts of the completed groups: the session comes out the
same, but for what waits and whether it finds itself interrupted, so that the world with the calls
of the host and the values of names, their types, the history and all diagnostics are the same; the
status is that of the last of these submissions; and besides the prompts just their reports are
shown, with a mark where an interrupt gave lines up and a newline at the end of the input. None of
these submissions is left incomplete. -/
theorem run_cut (host : Option Host) (prompts : Prompts) {s : Session} (fresh : s.pending = [])
    (status : ExitStatus) (typed : List Typed) :
    let groups := cut [] typed
    let whole := s.submitEach host (groups.1.filterMap Group.text?)
    let ran := run host prompts s status typed
    ran.1.session.resetInput.schedule none = whole.2.resetInput.schedule none ∧
      ran.1.status = (whole.1.getLast?.map (·.exitStatus)).getD status ∧
      ran.1.unread = groups.2.unread ∧
      ran.2.withoutPrompts = shown groups.1 whole.1 ++ groups.2.shown ∧
      ∀ r ∈ whole.1, r.outcome ≠ .incomplete :=
  run_agrees typed status (.refl fresh)

/-- An entry on two lines after one that was given up, with `exit` and a blank line within both and
on a line of its own. -/
def typedSample : List Typed :=
  [.line "let $n = 4", .line "fn() \x7b", .line "exit", .interrupt, .line "  ", .line "($n +", .line "",
    .line "38)", .line " exit", .line "$n"]

theorem run_cut_typedSample :
    Session.initial.pending = [] ∧
      (let groups := cut [] typedSample
        let whole := Session.initial.submitEach none (groups.1.filterMap Group.text?)
        let ran := run none ⟨"$ ", "> "⟩ .initial .ok typedSample
        ran.1.session.resetInput.schedule none = whole.2.resetInput.schedule none ∧
          ran.1.status = (whole.1.getLast?.map (·.exitStatus)).getD .ok ∧
          ran.1.unread = groups.2.unread ∧
          ran.2.withoutPrompts = shown groups.1 whole.1 ++ groups.2.shown ∧
          ∀ r ∈ whole.1, r.outcome ≠ .incomplete) ∧
      cut [] typedSample =
        ([.completed ["let $n = 4"], .discarded ["fn() \x7b", "exit"],
          .completed ["($n +", "", "38)"]], .exit [.line "$n"]) ∧
      (run none ⟨"$ ", "> "⟩ .initial .ok typedSample).2.withoutPrompts =
        [.output "4\n", .output "^C\n", .output "42\n"] := by
  have fresh : Session.initial.pending = [] := rfl
  exact ⟨fresh, run_cut none _ fresh .ok typedSample, by decide +kernel, by decide +kernel⟩

end Repl

end Sigil
