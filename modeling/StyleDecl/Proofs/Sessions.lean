import StyleDecl.Emit.Session
import StyleDecl.Proofs.Timeline.Files

/-!
# Emissions in one session

Several emissions may share a log, and some of them may fail halfway. None of them disturbs the
others: an emission looks at the level of the indent, which it leaves as it found it, but never
at the log, to which it only adds (`Frames`). So an action of a session that emits comes to what
it would come to in a new session with the same options, and what it adds to the log is what the
log of the new session would hold.

* `Plays.frames`: an emission that lives through events does not look at the log;
* `EmitSession.emitting_eq`: emitting in a session, by way of a new one;
* `EmitSession.options_after`: all that a history leaves behind in the options;
* `EmitSession.perform_after`: emitting after any history.
-/

namespace StyleDecl

variable {α : Type} {o : Options} {level : Int} {x : EmitM α} {es : List Event} {a : α}

/-! ### Emissions and the log before them -/

/-- One log after another. -/
def Log.append (l m : Log) : Log := ⟨l.blocks ++ m.blocks, l.warnings ++ m.warnings⟩

/-- At the level of the indent the emission comes to the same whatever is in the log, and it adds
    the same to it. -/
def Frames (level : Int) (x : EmitM α) : Prop :=
  ∃ added, (∃ a, ∀ log, x ⟨level, log⟩ = .ok a ⟨level, log.append added⟩) ∨
    ∃ e, ∀ log, x ⟨level, log⟩ = .error e ⟨level, log.append added⟩

/-- What events add to a log does not depend on it. -/
theorem EmitState.past_eq_append (o : Options) (level : Int) (log : Log) (es : List Event) :
    (⟨level, log⟩ : EmitState).past o es =
      ⟨level, log.append ((⟨level, {}⟩ : EmitState).past o es).log⟩ := rfl

/-- Living through events takes no look at the log. -/
theorem Plays.frames (h : Plays o level x es a) : Frames level x := by
  -- Which events come to pass is said by the options, so what they add is the same for any log.
  obtain hgo | ⟨past, e, future, err, rfl, hpast, he⟩ := Event.stops_or o es
  · refine ⟨((⟨level, {}⟩ : EmitState).past o es).log, .inl ⟨a, fun log => ?_⟩⟩
    rw [h _ rfl, bind_of_ok (Event.play_eq_ok hgo), ← EmitState.past_eq_append]
    rfl
  · refine ⟨((⟨level, {}⟩ : EmitState).past o past).log, .inr ⟨err, fun log => ?_⟩⟩
    rw [h _ rfl, bind_of_error (Event.play_eq_error hpast he), ← EmitState.past_eq_append]

namespace EmitSession

variable {s : EmitSession}

/-! ### One action -/

/-- Emitting in a session comes to what it comes to in a new session with the same options, and
    what is in the log of the new one is added to the log. -/
theorem emitting_eq (h : Frames s.options.indentLevel x) (answer : α → Answer) :
    s.emitting x answer = (((start s.options).emitting x answer).1,
      ⟨s.options, s.log.append ((start s.options).emitting x answer).2.log⟩) := by
  obtain ⟨added, ⟨a, hx⟩ | ⟨e, hx⟩⟩ := h
  · simp only [emitting, start, hx]
    rfl
  · simp only [emitting, start, hx]
    rfl

/-- The actions that emit a tree or a part of it. -/
inductive Action.Emits : Action → Prop
  | emit (node : Node) : Emits (.emit node)
  | properties (surface : Surface) : Emits (.properties surface)
  | methods (surface : Surface) : Emits (.methods surface)

theorem perform_eq {action : Action} (h : action.Emits) (s : EmitSession) :
    s.perform action = (((start s.options).perform action).1,
      ⟨s.options, s.log.append ((start s.options).perform action).2.log⟩) := by
  cases h with
  | emit node => exact emitting_eq (node.emit_plays s.options _).frames .text
  | properties surface =>
    have hlines : Plays s.options s.options.indentLevel (pure _) [] _ :=
      .pure (surface.propertyLines s.options)
    exact emitting_eq hlines.frames .lines
  | methods surface => exact emitting_eq (surface.methodLines_plays s.options _).frames .lines

/-! ### Histories -/

/-- A session after some actions, whether they succeed or fail. -/
def after (s : EmitSession) (actions : List Action) : EmitSession :=
  actions.foldl (fun s action => (s.perform action).2) s

/-- The level of the indent that an action asks for. -/
def Action.level? : Action → Option Int
  | .setLevel level => some level
  | _ => none

/-- An action changes nothing about the options but the level of the indent, and this only if it
    is asked to. -/
theorem options_perform (s : EmitSession) (action : Action) : (s.perform action).2.options =
    { s.options with indentLevel := action.level?.getD s.options.indentLevel } := by
  cases action with
  | emit node => rw [perform_eq (.emit node)]; rfl
  | properties surface => rw [perform_eq (.properties surface)]; rfl
  | methods surface => rw [perform_eq (.methods surface)]; rfl
  | _ => rfl

/-- The level after a history is the last one that was asked for. -/
theorem options_after (s : EmitSession) (history : List Action) : (s.after history).options =
    { s.options with
      indentLevel := (history.filterMap Action.level?).getLastD s.options.indentLevel } := by
  induction history generalizing s with
  | nil => rfl
  | cons action history ih =>
    have hstep := options_perform s action
    rw [after, List.foldl_cons, ← after, ih, hstep]
    cases hlevel : action.level? with
    | none => rw [List.filterMap_cons_none hlevel]; rfl
    | some level => rw [List.filterMap_cons_some hlevel, List.getLastD_cons]; rfl

/-- An action that emits, after any history of actions in one session, answers or fails as it does
    in a new session with the same options and the level of the indent that was asked for last.
    It leaves the level as it is, whatever happened before and however it ends, and it adds to the
    declarations and to the warnings of the session just those of the new one. -/
theorem perform_after (o : Options) (history : List Action) {action : Action}
    (h : action.Emits) :
    let s := (start o).after history
    let level := (history.filterMap Action.level?).getLastD o.indentLevel
    let fresh := (start { o with indentLevel := level }).perform action
    s.options = { o with indentLevel := level } ∧ (s.perform action).1 = fresh.1 ∧
      (s.perform action).2.options = s.options ∧
      (s.perform action).2.log.blocks = s.log.blocks ++ fresh.2.log.blocks ∧
      (s.perform action).2.log.warnings = s.log.warnings ++ fresh.2.log.warnings := by
  intro s level fresh
  have hoptions : s.options = { o with indentLevel := level } := options_after (start o) history
  have hperform := perform_eq h s
  rw [hoptions] at hperform
  refine ⟨hoptions, ?_, ?_, ?_, ?_⟩ <;> rw [hperform]
  · exact hoptions.symm
  · rfl
  · rfl

/-- A strict session in which an emission was given up for an empty list of states and another one
    for a bare name: the first tree is given up as before, one level further in. -/
theorem perform_after_failures :
    let failing : Action :=
      .emit (.object ⟨"A", .empty, .empty⟩ [.callable "f" [none], .callable "g" [some []]])
    let history : List Action := [failing, .setLevel 1, .record ⟨.other "a", "b", "c"⟩,
      .emit (.object ⟨"B", .empty, .empty⟩ [.callable "h" [none], .bare "i"])]
    let s := (start { strict := true }).after history
    failing.Emits ∧ s.options.indentLevel = 1 ∧
      (s.perform failing).1 = .error (.noStates "g" "") ∧
      (s.perform failing).2.log.blocks = s.log.blocks ++
        [⟨.interfaceDecl, "f", "  interface f \x7b\n    (enabled?: any): Style;\n  \x7d\n"⟩] := by
  intro failing history s
  have hemits : failing.Emits := .emit _
  obtain ⟨hoptions, hanswer, -, hblocks, -⟩ :=
    perform_after { strict := true } history hemits
  refine ⟨hemits, by rw [hoptions]; rfl, ?_, ?_⟩
  · rw [hanswer]
    rfl
  · rw [hblocks]
    exact congrArg (s.log.blocks ++ ·) (by decide +kernel)

end EmitSession

end StyleDecl
