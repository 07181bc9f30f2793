import Sigil.Proofs.Evaluation.Relabelled

/-!
# Evaluation without declared types

A tree that has a value has it without its declared types as well
(`evaluate_untyped`): types only add checks, so that leaving them out leaves
every call of the host, every closure and every binding as it was, up to the
types in it. The one way in which a script sees its own types is the text of a
closure. Whether it does is told by evaluation where closures have no text
(`Eval.WritesData`): if it comes to a value at all, it is evaluation itself
(`WritesData.run_eq`).
-/

namespace Sigil

/-- A value as text, unless it is a closure. -/
def Value.dataText? : Value → Option String
  | .datum d => argument? (.datum d)
  | .closure _ => none

namespace Eval

/-- Evaluation of a tree has a value and turns no closure into text: it has one where that is
refused. -/
def WritesData (host : Option Host) (depth : Nat) (n : Node) (f : FrameId) (w : World) : Prop :=
  ((evaluateBy Value.dataText? host depth n f).run w).1.toOption.isSome

/-- Where a text is refused, evaluation comes to an error, which nothing takes; so where it comes to
a value, none was. -/
theorem WritesData.run_eq {host : Option Host} {depth : Nat} {n : Node} {f : FrameId} {w : World}
    (h : WritesData host depth n f w) :
    (evaluateBy Value.dataText? host depth n f).run w = (evaluate host depth n f).run w := by
  have texts : CarriesText .same False Value.dataText? Value.argument? :=
    { typed := nofun
      carried := fun v s hv => by
        rw [Value.relabel_same]
        cases v with
        | datum d => exact hv
        | closure c => cases hv
      missing := nofun }
  have carried := evaluate_carries texts host depth n f w
  rw [evaluateBy_argument?, Node.relabel_same, World.relabel_same] at carried
  unfold WritesData at h
  rcases e : (evaluateBy Value.dataText? host depth n f).run w with ⟨_ | v, u⟩ <;>
    rw [e] at carried h
  · cases h
  · dsimp only at carried
    rw [carried, Value.relabel_same, World.relabel_same]

/-- The texts of data tell nothing of declared types. -/
theorem carriesText_untyped : CarriesText .untyped False Value.dataText? Value.argument? where
  typed := nofun
  carried v s h := by
    cases v with
    | datum d => exact h
    | closure c => cases h
  missing := nofun

end Eval

/-- If a tree has a value and no closure is turned into text, then the tree without declared types
has the same value, after the same calls of the host and with the same bindings, up to the types in
closures and those declared for names. -/
theorem evaluate_untyped (host : Option Host) (depth : Nat) {p : Node} {v : Value} {w : World}
    (h : (Eval.evaluate host depth p rootFrame).run World.initial = (.ok v, w))
    (hd : Eval.WritesData host depth p rootFrame World.initial) :
    (Eval.evaluate host depth (p.relabel .untyped) rootFrame).run World.initial =
      (.ok (v.relabel .untyped), w.relabel .untyped) := by
  have carried := Eval.evaluate_carries Eval.carriesText_untyped host depth p rootFrame
    World.initial
  rwa [hd.run_eq, h, World.relabel_initial, Eval.evaluateBy_argument?] at carried

/-- `fn count($n: Int) -> Command { let $k: Int = $n + 1; echo $k }; count(1);
fn ($s: String) -> String { $s }`, whose value is a closure with declared types. -/
def annotatedSample : Node :=
  .program none [
    .function none (some "count") [⟨none, "n", some .int⟩] (some .command) none [
      .define none "k" (some .int)
        (.binary none .add (.reference none "n" none) (.literal none (.int 1))),
      .command none [] "echo" [.reference none "k" none]],
    .call none (.reference none "count" none) [.literal none (.int 1)],
    .function none none [⟨none, "s", some .string⟩] (some .string) none [
      .reference none "s" none]]

/-- A host where every command writes its arguments. -/
def echoHost : Host := ⟨fun _ call => ⟨.exited 0 (" ".intercalate call.args), false⟩⟩

theorem evaluate_untyped_annotatedSample :
    ∃ v w, (Eval.evaluate echoHost 10 annotatedSample rootFrame).run World.initial = (.ok v, w) ∧
      Eval.WritesData echoHost 10 annotatedSample rootFrame World.initial ∧
      w.calls = [⟨"echo", ["2"], none⟩] ∧
      (Eval.evaluate echoHost 10 (annotatedSample.relabel .untyped) rootFrame).run World.initial =
        (.ok (v.relabel .untyped), w.relabel .untyped) ∧
      v.type = .fn [.string] .string ∧ (v.relabel .untyped).type = .fn [.dynamic] .dynamic := by
  have data : Eval.WritesData echoHost 10 annotatedSample rootFrame World.initial := by
    unfold Eval.WritesData
    decide +kernel
  have ends : ((Eval.evaluate echoHost 10 annotatedSample rootFrame).run
      World.initial).1.toOption.map (fun v => (v.type, (v.relabel .untyped).type)) =
        some (.fn [.string] .string, .fn [.dynamic] .dynamic) := by
    decide +kernel
  have calls : ((Eval.evaluate echoHost 10 annotatedSample rootFrame).run World.initial).2.calls =
      [⟨"echo", ["2"], none⟩] := by
    decide +kernel
  rcases e : (Eval.evaluate echoHost 10 annotatedSample rootFrame).run World.initial with
    ⟨_ | v, w⟩ <;> rw [e] at ends calls
  · cases ends
  · have untyped := evaluate_untyped echoHost 10 e data
    obtain ⟨typed, bare⟩ := Prod.ext_iff.mp (Option.some.inj ends)
    exact ⟨v, w, rfl, data, calls, untyped, typed, bare⟩

end Sigil
