import StyleDecl.Generate
import StyleDecl.Proofs.Stream

/-!
# Timelines

What happens while a tree is emitted, in the order of time: a warning is raised, a
part of the tree is completed, or there is something that cannot be declared. The
timeline of a tree does not depend on the options; these only decide how a part is
written and whether an empty list of states stops the emission.

* `Node.timeline`: the events of a tree;
* `Node.rootTimeline`: the events of a tree at the root of a file;
* `Event.play`: living through events, up to the first that stops the emission.
-/

namespace StyleDecl

open Literal

variable {o : Options}

/-! ### Parts of a tree -/

/-- What a single node of a tree declares. -/
inductive Part
  /-- A class. -/
  | object (surface : Surface)
  /-- An interface, with the states of its calls. -/
  | callable (name : String) (states : Option (List String))

/-- The states that a signature tells apart: an empty list is taken for a toggle. -/
def Options.settled : Option (List String) → Option (List String)
  | some [] => none
  | states => states

/-- The signatures of the methods of an object. -/
def Surface.settledLines (o : Options) (s : Surface) : List String :=
  s.methods.sorted.flatMap fun m => o.signatures (key m.1) (Options.settled m.2)

/-- The text of a declaration at a level of the indent. -/
def Options.declarationText (o : Options) (level : Int) (opener : String)
    (members : List String) : String :=
  String.join <| List.map (· ++ "\n") <|
    (o.indentAt level ++ (opener ++ " \x7b")) ::
      members.map (o.indentAt (level + 1) ++ ·) ++ [o.indentAt level ++ "\x7d"]

namespace Part

/-- The name of a part. -/
def name : Part → String
  | object s => s.name
  | callable name _ => name

/-- The declaration of a part at a level of the indent. -/
def block (o : Options) (level : Int) : Part → Block
  | object s =>
    ⟨.classDecl, s.name, o.declarationText level ("declare class " ++ s.name)
      (s.propertyLines o ++ s.settledLines o)⟩
  | callable name states =>
    ⟨.interfaceDecl, name,
      o.declarationText level ("interface " ++ name) (o.signatures "" (Options.settled states))⟩

end Part

/-! ### Events -/

/-- What can happen while a tree is emitted. -/
inductive Event
  /-- A warning is raised. -/
  | warned (w : Warning)
  /-- A part of the tree is completed. -/
  | completed (p : Part)
  /-- There is something that cannot be declared. -/
  | stuck (e : EmitError)

/-- The warnings about the empty lists of states of methods. -/
def Surface.unstated (node : String) (methods : List (String × Option (List String))) :
    List Warning :=
  methods.filterMap fun m => if m.2 = some [] then some (.noStates node m.1) else none

namespace Node

mutual

/-- The events of the emission of a tree. -/
def timeline : Node → List Event
  | object s children =>
    (s.clashes (children.map name)).map .warned ++ (timelineAll children ++
      ((Surface.unstated s.name s.methods.sorted).map .warned ++ [.completed (.object s)]))
  | callable name args =>
    (Surface.unstated name [("", firstStates args)]).map .warned ++
      [.completed (.callable name (firstStates args))]
  | bare name => [.stuck (.bareName name)]

/-- The events of the emission of several trees. -/
def timelineAll : List Node → List Event
  | [] => []
  | node :: nodes => timeline node ++ timelineAll nodes

end

/-- The events of the emission of a tree at the root of a file, which has to be an object. -/
def rootTimeline : Node → List Event
  | object s children => timeline (.object s children)
  | node => [.stuck (.noObject node.sort)]

mutual

/-- The text of the declarations of a tree. -/
def text (o : Options) (level : Int) : Node → String
  | object s children =>
    "\n".intercalate (texts o level children ++ [((Part.object s).block o level).text])
  | callable name args => ((Part.callable name (firstStates args)).block o level).text
  | bare _ => ""

/-- The texts of the declarations of several trees. -/
def texts (o : Options) (level : Int) : List Node → List String
  | [] => []
  | node :: nodes => text o level node :: texts o level nodes

end

end Node

namespace Event

/-- The warnings among events. -/
def warnings (es : List Event) : List Warning :=
  es.filterMap fun | warned w => some w | _ => none

/-- The parts that are completed by events. -/
def parts (es : List Event) : List Part :=
  es.filterMap fun | completed p => some p | _ => none

/-- Why an event stops an emission, if it does. -/
def stop? (o : Options) : Event → Option EmitError
  | warned (.noStates node member) => if o.strict then some (.noStates node member) else none
  | stuck e => some e
  | _ => none

end Event

namespace Event

@[simp] theorem warnings_append (es fs : List Event) :
    warnings (es ++ fs) = warnings es ++ warnings fs := List.filterMap_append

@[simp] theorem parts_append (es fs : List Event) : parts (es ++ fs) = parts es ++ parts fs :=
  List.filterMap_append

@[simp] theorem warnings_map_warned (ws : List Warning) : warnings (ws.map .warned) = ws := by
  rw [warnings, List.filterMap_map]
  exact List.filterMap_some

@[simp] theorem parts_map_warned (ws : List Warning) : parts (ws.map .warned) = [] := by
  rw [parts, List.filterMap_map]
  exact List.filterMap_eq_nil_iff.2 fun _ _ => rfl

@[simp] theorem warnings_completed (p : Part) : warnings [.completed p] = [] := rfl

@[simp] theorem parts_completed (p : Part) : parts [.completed p] = [p] := rfl

end Event

/-- The state after events that do not stop an emission. -/
def EmitState.past (o : Options) (s : EmitState) (es : List Event) : EmitState where
  level := s.level
  log :=
    { blocks := s.log.blocks ++ (Event.parts es).map (Part.block o s.level)
      warnings := s.log.warnings ++ Event.warnings es }

/-- Living through events, up to the first that stops the emission. -/
def Event.play (o : Options) : List Event → EmitM Unit
  | [], s => .ok () s
  | e :: es, s =>
    match e.stop? o with
    | some err => .error err s
    | none => Event.play o es (s.past o [e])

namespace EmitState

variable (s : EmitState) (es fs : List Event)

@[simp] theorem level_past : (s.past o es).level = s.level := rfl

@[simp] theorem past_nil : s.past o [] = s := by simp [past, Event.parts, Event.warnings]

/-- Warnings that are raised. -/
theorem past_warned (ws : List Warning) : s.past o (ws.map .warned) = s.warned ws := by
  simp [past, warned]

/-- A part that is completed. -/
theorem past_completed (p : Part) :
    s.past o [.completed p] =
      s.recorded (p.block o s.level).stage p.name (p.block o s.level).text := by
  cases p <;> simp [past, recorded, Part.block, Part.name]

theorem past_append : s.past o (es ++ fs) = (s.past o es).past o fs := by
  simp [past]

end EmitState

namespace Event

variable {s : EmitState} {e : Event} {es fs : List Event} {err : EmitError}

theorem play_of_stop (h : e.stop? o = some err) : play o (e :: es) s = .error err s := by
  rw [play, h]

theorem play_cons (h : e.stop? o = none) : play o (e :: es) s = play o es (s.past o [e]) := by
  rw [play, h]

theorem play_eq_ok (h : ∀ e ∈ es, e.stop? o = none) : play o es s = .ok () (s.past o es) := by
  induction es generalizing s with
  | nil => rw [play, EmitState.past_nil]
  | cons e es ih =>
    rw [List.forall_mem_cons] at h
    rw [play_cons h.1, ih h.2, ← EmitState.past_append, List.singleton_append]

theorem play_eq_error (h : ∀ e ∈ es, e.stop? o = none) (he : e.stop? o = some err) :
    play o (es ++ e :: fs) s = .error err (s.past o es) := by
  induction es generalizing s with
  | nil => rw [List.nil_append, play_of_stop he, EmitState.past_nil]
  | cons d es ih =>
    rw [List.forall_mem_cons] at h
    rw [List.cons_append, play_cons h.1, ih h.2, ← EmitState.past_append, List.singleton_append]

/-- Either no event stops an emission, or there is a first one that does. -/
theorem stops_or (o : Options) (es : List Event) :
    (∀ e ∈ es, e.stop? o = none) ∨ ∃ past e future err,
      es = past ++ e :: future ∧ (∀ e ∈ past, e.stop? o = none) ∧ e.stop? o = some err := by
  induction es with
  | nil => exact .inl (List.forall_mem_nil _)
  | cons e es ih =>
    cases he : e.stop? o with
    | some err => exact .inr ⟨[], e, es, err, rfl, List.forall_mem_nil _, he⟩
    | none =>
      obtain h | ⟨past, d, future, err, rfl, hpast, hd⟩ := ih
      · exact .inl (List.forall_mem_cons.2 ⟨he, h⟩)
      · exact .inr ⟨e :: past, d, future, err, rfl, List.forall_mem_cons.2 ⟨he, hpast⟩, hd⟩

/-- Living through events does not move the level of the indent. -/
theorem level_of_play {s s' : EmitState} (h : play o es s = .ok () s') : s'.level = s.level := by
  induction es generalizing s with
  | nil => cases h; rfl
  | cons e es ih =>
    rw [play] at h
    split at h
    · cases h
    · have hlevel := ih h
      exact hlevel

theorem play_append (es fs : List Event) (s : EmitState) :
    play o (es ++ fs) s = (do play o es; play o fs : EmitM Unit) s := by
  induction es generalizing s with
  | nil => rfl
  | cons e es ih =>
    rw [List.cons_append, play]
    cases he : e.stop? o with
    | some err => rw [bind_of_error (play_of_stop he)]
    | none =>
      have hgo : play o (e :: es) s = play o es (s.past o [e]) := play_cons he
      rw [ih, bind_congr_left hgo]

end Event

end StyleDecl
