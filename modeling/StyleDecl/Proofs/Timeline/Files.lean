import StyleDecl.Proofs.Timeline.Events

/-!
# Emissions and their timelines

Emitting a tree is living through its timeline: each step of the emission is one of its events or
none. So what a file is made of is told from the timeline of its tree, and it is not made at all
if an event stops the emission.

* `Plays`: an emission that lives through events;
* `Node.emit_plays`, `Node.emitRoot_plays`: emitting a tree;
* `Node.rawFile_of_go`, `Node.rawFile_of_stop`: the file of a tree.
-/

namespace StyleDecl

open Literal

variable {o : Options}

/-! ### Emissions that live through events -/

/-- At the level of the indent, the emission lives through the events `es` and answers
    `a` unless one of them stops it. -/
def Plays {α : Type} (o : Options) (level : Int) (emission : EmitM α) (es : List Event) (a : α) :
    Prop :=
  ∀ s : EmitState, s.level = level → emission s = (do Event.play o es; return a : EmitM α) s

namespace Plays

variable {α β : Type} {level : Int} {x : EmitM α} {f : α → EmitM β} {es fs : List Event}
  {a : α} {b : β}

/-- One emission after the other. -/
theorem bind (hx : Plays o level x es a) (hf : Plays o level (f a) fs b) :
    Plays o level (x >>= f) (es ++ fs) b := by
  intro s hs
  rw [bind_congr_left (Event.play_append es fs s), bind_congr_left (hx s hs), bind_assoc,
    bind_assoc]
  -- What stops the first emission is not followed by the other, nor by its events.
  cases hplay : Event.play o es s with
  | error err s' => rw [bind_of_error hplay, bind_of_error hplay]
  | ok _ s' =>
    rw [bind_of_ok hplay, bind_of_ok hplay, pure_bind]
    exact hf s' ((Event.level_of_play hplay).trans hs)

theorem pure (a : α) : Plays o level (Pure.pure a) [] a := fun _ _ => rfl

theorem stuck (e : EmitError) (a : α) : Plays o level (throw e) [.stuck e] a := fun _ _ => rfl

/-- Emissions that never fail and leave no trace. -/
theorem silent (h : ∀ s : EmitState, s.level = level → x s = .ok a s) : Plays o level x [] a :=
  fun s hs => h s hs

/-- A part is completed once its declaration is in the log. -/
theorem record (o : Options) (level : Int) (p : Part) :
    Plays o level (EmitM.record (p.block o level).stage p.name (p.block o level).text)
      [.completed p] () := by
  rintro s rfl
  have hgo : ∀ e ∈ [Event.completed p], e.stop? o = none := List.forall_mem_singleton.2 rfl
  rw [bind_of_ok (Event.play_eq_ok hgo), EmitState.past_completed]
  rfl

end Plays

/-- Warnings that stop no emission are just raised. -/
theorem EmitM.warn_plays (level : Int) {ws : List Warning}
    (h : ∀ w ∈ ws, (Event.warned w).stop? o = none) :
    Plays o level (EmitM.warn ws) (ws.map .warned) () := by
  intro s _
  have hplay := Event.play_eq_ok (o := o) (s := s) (List.forall_mem_map.2 h)
  rw [bind_of_ok hplay, EmitState.past_warned]
  rfl

namespace Options

theorem mapM_line (o : Options) (lines : List String) (s : EmitState) :
    lines.mapM o.line s = .ok (lines.map (o.indentAt s.level ++ ·)) s := by
  induction lines with
  | nil => rfl
  | cons line lines ih =>
    have hline : o.line line s = .ok (o.indentAt s.level ++ line) s := rfl
    rw [List.mapM_cons, bind_of_ok hline, bind_of_ok ih]
    rfl

/-- In the end a declaration is back at the level that it began at. -/
theorem declaration_eq_ok (o : Options) (opener : String) (members : List String)
    (s : EmitState) :
    o.declaration opener members s = .ok (o.declarationText s.level opener members) s := by
  have hline : ∀ text (s : EmitState), o.line text s = .ok (o.indentAt s.level ++ text) s :=
    fun _ _ => rfl
  have hshift : ∀ n (s : EmitState), EmitM.shift n s = .ok () (s.shifted n) := fun _ _ => rfl
  have hback : (s.shifted 1).shifted (-1) = s := by
    rw [EmitState.shifted, EmitState.shifted, Int.add_neg_cancel_right]
  rw [declaration, bind_of_ok (hline _ s), bind_of_ok (hshift 1 s), bind_of_ok (o.mapM_line _ _),
    bind_of_ok (hshift (-1) _), hback, bind_of_ok (hline _ s)]
  rfl

theorem declaration_plays (o : Options) (level : Int) (opener : String) (members : List String) :
    Plays o level (o.declaration opener members) [] (o.declarationText level opener members) :=
  .silent fun s hs => hs ▸ o.declaration_eq_ok opener members s

/-- An empty list of states is warned about, which stops the emission in strict mode. -/
theorem resolveStates_plays (o : Options) (level : Int) (node member : String)
    (states : Option (List String)) :
    Plays o level (o.resolveStates node member states)
      ((Surface.unstated node [(member, states)]).map .warned) (settled states) := by
  intro s _
  -- Without a list, or with states in it, there is nothing to be warned about.
  rcases states with - | - | ⟨state, states⟩
  · rfl
  · have hes : (Surface.unstated node [(member, some [])]).map Event.warned =
        [.warned (.noStates node member)] := rfl
    rw [hes]
    cases hs : o.strict with
    | false =>
      have hgo : ∀ e ∈ [Event.warned (.noStates node member)], e.stop? o = none :=
        List.forall_mem_singleton.2 (by rw [Event.stop?, hs]; rfl)
      have hpast := EmitState.past_warned (o := o) s [.noStates node member]
      rw [bind_of_ok (Event.play_eq_ok hgo), resolveStates, hs]
      exact congrArg (EStateM.Result.ok none) hpast.symm
    | true =>
      have hstop : (Event.warned (.noStates node member)).stop? o =
          some (.noStates node member) := by
        rw [Event.stop?, hs]
        rfl
      rw [bind_of_error (Event.play_of_stop hstop), resolveStates, hs]
      rfl
  · rfl

end Options

namespace Surface

variable {level : Int}

/-- The signatures of methods are made while empty lists of states are warned about. -/
theorem signatureLines_plays (node : String) (methods : List (String × Option (List String))) :
    Plays o level (signatureLines o node methods) ((unstated node methods).map .warned)
      (methods.flatMap fun m => o.signatures (key m.1) (Options.settled m.2)) := by
  induction methods with
  | nil => exact .pure _
  | cons m methods ih =>
    have hcons : unstated node ([m] ++ methods) = unstated node [m] ++ unstated node methods :=
      List.filterMap_append
    rw [List.singleton_append] at hcons
    have hfirst := o.resolveStates_plays level node m.1 m.2
    rw [hcons, List.map_append, ← List.append_nil (List.map _ (unstated node methods))]
    exact hfirst.bind (ih.bind (.pure _))

theorem methodLines_plays (s : Surface) (o : Options) (level : Int) :
    Plays o level (s.methodLines o) ((unstated s.name s.methods.sorted).map .warned)
      (s.settledLines o) :=
  signatureLines_plays s.name s.methods.sorted

/-- Names used twice stop no emission. -/
theorem stop?_clashes (s : Surface) (o : Options) (children : List String) :
    ∀ w ∈ s.clashes children, (Event.warned w).stop? o = none := by
  rw [clashes, List.forall_mem_append]
  exact ⟨List.forall_mem_map.2 fun _ _ => rfl, List.forall_mem_map.2 fun _ _ => rfl⟩

end Surface

namespace Node

mutual

/-- Emitting a tree is living through its timeline. -/
theorem emit_plays (o : Options) (level : Int) : (node : Node) →
    Plays o level (node.emit o) node.timeline (node.text o level)
  | .object s children => by
    have hwarn := EmitM.warn_plays level (s.stop?_clashes o (children.map name))
    have hlines := s.methodLines_plays o level
    have htext := o.declaration_plays level ("declare class " ++ s.name)
      (s.propertyLines o ++ s.settledLines o)
    have hrecord := Plays.record o level (.object s)
    rw [emit]
    exact hwarn.bind ((emitAll_plays o level children).bind
      (hlines.bind (htext.bind (hrecord.bind (.pure _)))))
  | .callable name args => by
    have hstates := o.resolveStates_plays level name "" (firstStates args)
    have htext := o.declaration_plays level ("interface " ++ name)
      (o.signatures "" (Options.settled (firstStates args)))
    have hrecord := Plays.record o level (.callable name (firstStates args))
    rw [emit]
    exact hstates.bind (htext.bind (hrecord.bind (.pure _)))
  | .bare name => .stuck (.bareName name) _

theorem emitAll_plays (o : Options) (level : Int) : (nodes : List Node) →
    Plays o level (emitAll o nodes) (timelineAll nodes) (texts o level nodes)
  | [] => .pure _
  | node :: nodes => by
    rw [emitAll, timelineAll, ← List.append_nil (timelineAll nodes)]
    exact (emit_plays o level node).bind ((emitAll_plays o level nodes).bind (.pure _))

end

theorem emitRoot_plays (o : Options) (level : Int) (root : Node) :
    Plays o level (root.emitRoot o) root.rootTimeline (root.text o level) := by
  cases root with
  | object s children => exact emit_plays o level (.object s children)
  | callable | bare => exact .stuck _ _

/-! ### The text of a tree -/

/-- There is something to declare for every node of the tree. -/
def Whole (node : Node) : Prop := ∀ e, Event.stuck e ∉ node.timeline

theorem whole_of_go {node : Node} (h : ∀ e ∈ node.timeline, e.stop? o = none) : node.Whole :=
  fun _ hmem => nomatch h _ hmem

@[simp] theorem parts_timeline_object (s : Surface) (children : List Node) :
    Event.parts (timeline (.object s children)) =
      Event.parts (timelineAll children) ++ [.object s] := by
  simp [timeline]

@[simp] theorem parts_timeline_callable (name : String) (args : List (Option (List String))) :
    Event.parts (timeline (.callable name args)) = [.callable name (firstStates args)] := by
  simp [timeline]

@[simp] theorem parts_timelineAll_nil : Event.parts (timelineAll []) = [] := rfl

@[simp] theorem parts_timelineAll_cons (node : Node) (nodes : List Node) :
    Event.parts (timelineAll (node :: nodes)) =
      Event.parts node.timeline ++ Event.parts (timelineAll nodes) := by
  rw [timelineAll, Event.parts_append]

theorem parts_ne_nil {node : Node} (h : node.Whole) : Event.parts node.timeline ≠ [] := by
  cases node with
  | object s children => simp
  | callable name args => simp
  | bare name => exact absurd (List.mem_singleton_self _) (h _)

mutual

/-- The text of a tree is that of its parts, with a line feed between any two. -/
theorem text_eq_intercalate (o : Options) (level : Int) : {node : Node} → node.Whole →
    node.text o level =
      "\n".intercalate ((Event.parts node.timeline).map fun p => (p.block o level).text)
  | .object s children, h => by
    rw [text, texts_eq_intercalate o level (List.cons_ne_nil _ [])
      fun e hmem => h e (by simp [timeline, hmem])]
    simp [timeline]
  | .callable name args, _ => by simp [text, timeline]
  | .bare name, h => absurd (List.mem_singleton_self _) (h _)

theorem texts_eq_intercalate (o : Options) (level : Int) {last : List String} (hl : last ≠ []) :
    {nodes : List Node} → (∀ e, Event.stuck e ∉ timelineAll nodes) →
      "\n".intercalate (texts o level nodes ++ last) =
        "\n".intercalate
          (((Event.parts (timelineAll nodes)).map fun p => (p.block o level).text) ++ last)
  | [], _ => rfl
  | node :: nodes, h => by
    have hnode : node.Whole := fun e hmem => h e (List.mem_append_left _ hmem)
    have hnodes : ∀ e, Event.stuck e ∉ timelineAll nodes :=
      fun e hmem => h e (List.mem_append_right _ hmem)
    have hparts : ((Event.parts node.timeline).map fun p => (p.block o level).text) ≠ [] :=
      fun hnil => parts_ne_nil hnode (List.map_eq_nil_iff.1 hnil)
    have hrest : ∀ texts : List String, texts ++ last ≠ [] := fun _ hnil =>
      hl (List.append_eq_nil_iff.1 hnil).2
    -- The declarations of a child are joined already, and those of the others are joined to them by
    -- line feeds as well.
    rw [texts, List.cons_append, String.intercalate_cons_of_ne_nil (hrest _),
      texts_eq_intercalate o level hl hnodes, text_eq_intercalate o level hnode, timelineAll,
      Event.parts_append, List.map_append, List.append_assoc,
      String.intercalate_append_of_ne_nil hparts (hrest _)]

end

end Node

/-! ### Files -/

/-- The declaration of the style type. -/
def Options.firstBlock (o : Options) : Block := ⟨.preamble, o.styleType, o.preamble⟩

/-- The declarations of the variable for the root of a tree. -/
def Options.lastBlock (o : Options) (root : String) : Block :=
  ⟨.exportDecl, o.exportName, o.exportText root⟩

/-- The state that a tree is emitted from. -/
def Options.opened (o : Options) : EmitState := ⟨o.indentLevel, ⟨[o.firstBlock], []⟩⟩

namespace Node

variable {root : Node}

/-- Nothing but an object gets past the root of a file. -/
theorem rootTimeline_eq_of_go (h : ∀ e ∈ root.rootTimeline, e.stop? o = none) :
    root.rootTimeline = root.timeline := by
  cases root with
  | object s children => rfl
  | callable | bare => cases h _ (List.mem_singleton_self _)

theorem whole_of_root_go (h : ∀ e ∈ root.rootTimeline, e.stop? o = none) : root.Whole :=
  whole_of_go (rootTimeline_eq_of_go h ▸ h)

/-- The declarations of a file, if nothing stops its emission. -/
def blocks (o : Options) (root : Node) : List Block :=
  o.firstBlock :: (Event.parts root.timeline).map (Part.block o o.indentLevel) ++
    [o.lastBlock root.name]

theorem source_eq_intercalate (h : root.Whole) :
    "\n".intercalate [o.preamble, root.text o o.indentLevel, o.exportText root.name] =
      "\n".intercalate ((root.blocks o).map Block.text) := by
  have hparts : ((Event.parts root.timeline).map fun p => (p.block o o.indentLevel).text) ≠ [] :=
    fun hnil => parts_ne_nil h (List.map_eq_nil_iff.1 hnil)
  have hne : ((Event.parts root.timeline).map fun p => (p.block o o.indentLevel).text) ++
      [o.exportText root.name] ≠ [] := by simp
  have htexts : (root.blocks o).map Block.text =
      o.preamble :: ((Event.parts root.timeline).map fun p => (p.block o o.indentLevel).text) ++
        [o.exportText root.name] := by
    simp [blocks, Options.firstBlock, Options.lastBlock]
  rw [htexts, List.cons_append, String.intercalate_cons_of_ne_nil hne,
    String.intercalate_append_of_ne_nil hparts (List.cons_ne_nil _ _),
    ← text_eq_intercalate o o.indentLevel h, String.intercalate_cons_cons,
    String.intercalate_cons_cons]

/-- A file is made up of its declarations, unless an event stops its emission. -/
theorem rawFile_of_go (h : ∀ e ∈ root.rootTimeline, e.stop? o = none) :
    root.rawFile o ⟨o.indentLevel, {}⟩ =
      .ok ("\n".intercalate ((root.blocks o).map Block.text))
        ⟨o.indentLevel, ⟨root.blocks o, Event.warnings root.timeline⟩⟩ := by
  have hemit : root.emitRoot o o.opened =
      .ok (root.text o o.indentLevel) (o.opened.past o root.rootTimeline) := by
    rw [root.emitRoot_plays o o.indentLevel o.opened rfl, bind_of_ok (Event.play_eq_ok h)]
    rfl
  rw [rootTimeline_eq_of_go h] at hemit
  have hfirst : EmitM.record .preamble o.styleType o.preamble ⟨o.indentLevel, {}⟩ =
      .ok () o.opened := rfl
  have hblocks : ((o.opened.past o root.timeline).recorded .exportDecl o.exportName
      (o.exportText root.name)) =
        ⟨o.indentLevel, ⟨root.blocks o, Event.warnings root.timeline⟩⟩ := rfl
  rw [rawFile, bind_of_ok hfirst, bind_of_ok hemit, ← source_eq_intercalate (whole_of_root_go h),
    ← hblocks]
  rfl

/-- The first event that stops the emission of a file leaves what was done before it. -/
theorem rawFile_of_stop {past future : List Event} {e : Event} {err : EmitError}
    (ht : root.rootTimeline = past ++ e :: future) (hpast : ∀ e ∈ past, e.stop? o = none)
    (he : e.stop? o = some err) :
    root.rawFile o ⟨o.indentLevel, {}⟩ = .error err (o.opened.past o past) := by
  have hemit : root.emitRoot o o.opened = .error err (o.opened.past o past) := by
    rw [root.emitRoot_plays o o.indentLevel o.opened rfl, ht,
      bind_of_error (Event.play_eq_error hpast he)]
  have hfirst : EmitM.record .preamble o.styleType o.preamble ⟨o.indentLevel, {}⟩ =
      .ok () o.opened := rfl
  rw [rawFile, bind_of_ok hfirst, bind_of_error hemit]

end Node

end StyleDecl
