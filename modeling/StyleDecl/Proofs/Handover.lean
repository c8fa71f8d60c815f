import StyleDecl.Proofs.Timeline.Files

/-!
# Handing a file over

What passes between the generation of a file and a formatter, whatever the formatter is:
it may answer each text as it likes, depending on all texts that it was handed before, and
it may break down at any of them.

* `Node.parts`: what the nodes of a tree declare, each after what its children declare;
* `Formatter.AcceptsAll`: texts that are accepted one after the other;
* `blame_cases`: how far declarations are handed over one by one;
* `generate_handover`: all texts that are handed over, and what is made of the answers.
-/

namespace StyleDecl

variable {σ ε : Type} {o : Options} {root : Node}

/-! ### What is handed over -/

namespace Node

mutual

/-- What the nodes of a tree declare, the children of an object ahead of it. -/
def parts : Node → List Part
  | object s children => partsAll children ++ [.object s]
  | callable name args => [.callable name (firstStates args)]
  | bare _ => []

/-- What the nodes of several trees declare. -/
def partsAll : List Node → List Part
  | [] => []
  | node :: nodes => parts node ++ partsAll nodes

end

mutual

/-- The nodes are completed in this order. -/
theorem parts_eq : (node : Node) → node.parts = Event.parts node.timeline
  | .object s children => by rw [parts, partsAll_eq children, parts_timeline_object]
  | .callable name args => by rw [parts, parts_timeline_callable]
  | .bare _ => rfl

theorem partsAll_eq : (nodes : List Node) → partsAll nodes = Event.parts (timelineAll nodes)
  | [] => rfl
  | node :: nodes => by
    rw [partsAll, parts_eq node, partsAll_eq nodes, parts_timelineAll_cons]

end

/-- The declarations of a file: the preamble, those of the nodes, and the export. -/
theorem blocks_eq (o : Options) (root : Node) :
    root.blocks o =
      o.firstBlock :: root.parts.map (Part.block o o.indentLevel) ++ [o.lastBlock root.name] := by
  rw [blocks, parts_eq]

end Node

/-! ### Declarations one by one -/

/-- The formatter accepts the texts one after the other, which leads it from one state to
    another. -/
inductive Formatter.AcceptsAll (formatter : Formatter σ ε) : List String → σ → σ → Prop
  | nil {s : σ} : AcceptsAll formatter [] s s
  | cons {text answer : String} {texts : List String} {s m s' : σ} :
    formatter text s = (.accepted answer, m) → AcceptsAll formatter texts m s' →
      AcceptsAll formatter (text :: texts) s s'

/-- What handing over declarations one by one comes to: `error` is the outcome, `calls` are the
    texts that were handed over, and the formatter went from the state `s` to `s'`. Either all
    declarations are accepted, and then it is the whole file that is at fault, or the first that
    is not is the last to be handed over. -/
def Blames (formatter : Formatter σ ε) (root : String) (cause : Rejection) (blocks : List Block)
    (s : σ) (error : GenerateError ε) (calls : List String) (s' : σ) : Prop :=
  (formatter.AcceptsAll (blocks.map Block.text) s s' ∧ calls = blocks.map Block.text ∧
    error = .fileRejected root cause ∧ error.place? = some ("assembly", root, cause)) ∨
  ∃ before block after m, blocks = before ++ block :: after ∧
    formatter.AcceptsAll (before.map Block.text) s m ∧
    calls = (before ++ [block]).map Block.text ∧
    ((∃ detail, formatter block.text m = (.rejected detail, s') ∧
        error = .blockRejected block detail cause ∧
        error.place? = some (block.stage.name, block.node, cause)) ∨
      ∃ e, formatter block.text m = (.failed e, s') ∧ error = .formatter e)

/-- A declaration that is accepted is followed by the next. -/
theorem Blames.cons {formatter : Formatter σ ε} {name : String} {cause : Rejection}
    {block : Block} {blocks : List Block} {answer : String} {s m s' : σ} {error : GenerateError ε}
    {calls : List String} (h : formatter block.text s = (.accepted answer, m))
    (hb : Blames formatter name cause blocks m error calls s') :
    Blames formatter name cause (block :: blocks) s error (block.text :: calls) s' := by
  obtain ⟨hall, rfl, herror⟩ | ⟨before, b, after, n, rfl, hbefore, rfl, hlast⟩ := hb
  · exact .inl ⟨.cons h hall, rfl, herror⟩
  · exact .inr ⟨block :: before, b, after, n, rfl, .cons h hbefore, rfl, hlast⟩

theorem blame_cases (formatter : Formatter σ ε) (name : String) (cause : Rejection)
    (blocks : List Block) (s : σ) :
    Blames formatter name cause blocks s (blame formatter name cause blocks s).1
      (blame formatter name cause blocks s).2.1 (blame formatter name cause blocks s).2.2 := by
  induction blocks generalizing s with
  | nil => exact .inl ⟨.nil, rfl, rfl, rfl⟩
  | cons block blocks ih =>
    rw [blame]
    match hreply : formatter block.text s with
    | (.accepted answer, m) => exact (ih m).cons hreply
    | (.rejected detail, m) =>
      exact .inr ⟨[], block, blocks, s, rfl, .nil, rfl, .inl ⟨detail, hreply, rfl, rfl⟩⟩
    | (.failed e, m) =>
      exact .inr ⟨[], block, blocks, s, rfl, .nil, rfl, .inr ⟨e, hreply, rfl⟩⟩

/-! ### Runs -/

/-- Handing over declarations is no reason for an emission to fail. -/
theorem blame_ne_emission (formatter : Formatter σ ε) (name : String) (cause : Rejection)
    (blocks : List Block) (s : σ) (e : EmitError) :
    (blame formatter name cause blocks s).1 ≠ .emission e := by
  obtain ⟨-, -, h, -⟩ | ⟨_, _, _, _, -, -, -, ⟨_, -, h, -⟩ | ⟨_, -, h⟩⟩ :=
    blame_cases formatter name cause blocks s <;> simp [h]

/-- A tree is emitted in a run exactly if none of the events at its root stops the emission. -/
theorem emitted_iff {formatter : Formatter σ ε} {state : σ} :
    (∀ e, (generate o formatter root state).result ≠ .error (.emission e)) ↔
      ∀ e ∈ root.rootTimeline, e.stop? o = none := by
  constructor
  · intro h
    obtain hgo | ⟨past, e, future, err, ht, hpast, he⟩ := Event.stops_or o root.rootTimeline
    · exact hgo
    · refine absurd ?_ (h err)
      rw [generate, Node.rawFile_of_stop ht hpast he]
  · intro hgo e
    rw [generate, Node.rawFile_of_go hgo]
    match hreply : formatter ("\n".intercalate ((root.blocks o).map Block.text)) state with
    | (.accepted text, m) => simp [hreply]
    | (.failed e, m) => simp [hreply]
    | (.rejected cause, m) => simpa [hreply] using blame_ne_emission _ _ _ _ _ e

/-- Only what cannot be declared stops a lenient emission. -/
theorem go_of_lenient (ho : o.strict = false) (h : root.Whole) :
    ∀ e ∈ root.timeline, e.stop? o = none := by
  intro e he
  cases e with
  | warned w => cases w <;> simp [Event.stop?, ho]
  | completed p => rfl
  | stuck reason => exact absurd he (h reason)

/-- What passes between a run and a formatter, unless the tree cannot be emitted. The
    declarations are the preamble, one for each node, and the export. The first text that is
    handed over is that of all declarations, with a line feed between any two, and if it is
    accepted, the answer is the result. If it is rejected, the declarations are handed over one
    by one. A formatter that does not work is the error of the run, at whatever text it breaks
    down, and nothing is handed over after it. -/
theorem generate_handover (o : Options) (formatter : Formatter σ ε) (root : Node) (state : σ)
    (h : ∀ e, (generate o formatter root state).result ≠ .error (.emission e)) :
    let run := generate o formatter root state
    let blocks :=
      o.firstBlock :: root.parts.map (Part.block o o.indentLevel) ++ [o.lastBlock root.name]
    let source := "\n".intercalate (blocks.map Block.text)
    run.log.blocks = blocks ∧
      ((∃ text, formatter source state = (.accepted text, run.state) ∧ run.result = .ok text ∧
          run.calls = [source]) ∨
        (∃ e, formatter source state = (.failed e, run.state) ∧
          run.result = .error (.formatter e) ∧ run.calls = [source]) ∨
        ∃ cause m error calls, formatter source state = (.rejected cause, m) ∧
          Blames formatter root.name cause blocks m error calls run.state ∧
          run.result = .error error ∧ run.calls = source :: calls) := by
  intro run blocks source
  have hraw : root.rawFile o ⟨o.indentLevel, {}⟩ =
      .ok source ⟨o.indentLevel, ⟨blocks, Event.warnings root.timeline⟩⟩ := by
    rw [Node.rawFile_of_go (emitted_iff.1 h), Node.blocks_eq]
  have hrun : run = generate o formatter root state := rfl
  rw [generate, hraw] at hrun
  match hreply : formatter source state with
  | (.accepted text, m) =>
    simp only [hreply] at hrun
    rw [hrun]
    exact ⟨rfl, .inl ⟨text, rfl, rfl, rfl⟩⟩
  | (.failed e, m) =>
    simp only [hreply] at hrun
    rw [hrun]
    exact ⟨rfl, .inr (.inl ⟨e, rfl, rfl, rfl⟩)⟩
  | (.rejected cause, m) =>
    simp only [hreply] at hrun
    rw [hrun]
    exact ⟨rfl, .inr (.inr ⟨cause, m, _, _, rfl, blame_cases formatter root.name cause blocks m,
      rfl, rfl⟩)⟩

/-- A formatter that rejects the file and accepts only the first of its declarations after
    that. -/
theorem generate_handover_fickle :
    let formatter : Formatter Nat Unit := fun _ n =>
      (if n = 1 then .accepted "" else .rejected ⟨.reported "no", 0, 0⟩, n + 1)
    let root : Node := .object ⟨"A", .empty, .empty⟩ [.callable "f" [some ["on"]]]
    let run := generate {} formatter root 0
    (∀ e, run.result ≠ .error (.emission e)) ∧
      ∃ m error calls, Blames formatter "A" ⟨.reported "no", 0, 0⟩ run.log.blocks m error calls
          run.state ∧
        run.result = .error error ∧
        run.calls = "\n".intercalate (run.log.blocks.map Block.text) :: calls := by
  intro formatter root run
  have hgo : ∀ e, run.result ≠ .error (.emission e) := by
    refine emitted_iff.2 (go_of_lenient rfl fun reason hmem => ?_)
    simp [Node.timeline, Node.timelineAll] at hmem
  obtain ⟨hblocks, ⟨_, hreply, -⟩ | ⟨_, hreply, -⟩ | ⟨cause, m, error, calls, hreply, hrest⟩⟩ :=
    generate_handover {} formatter root 0 hgo
  · cases hreply
  · cases hreply
  · cases hreply
    exact ⟨hgo, _, error, calls, hblocks ▸ hrest⟩

end StyleDecl
