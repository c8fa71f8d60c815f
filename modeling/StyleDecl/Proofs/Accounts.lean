import Mathlib.Data.Finset.Card
import Mathlib.Data.Finset.Dedup
import StyleDecl.Emit.Session
import StyleDecl.Proofs.Handover
import StyleDecl.Proofs.Tables

/-!
# The warnings of a tree

What an emission warns of, said of the tree and not of how it is emitted. An object is warned
about for each child with the name of an earlier child and for each key of both a property and a
method, ahead of all warnings about its descendants, and for each method with an empty list of
states, behind all of these. A callable is warned about if its first list of states is empty. The
warnings about the descendants of a node stand together, one child after the other
(`Node.Warns`).

* `Surface.repeatedNames_eq`: the names that come up again, by their places;
* `Node.warns_timeline`: the warnings of a timeline are accounted for by the tree;
* `Node.perform_emit`: a lenient emission gets through its timeline;
* `Node.emit_warnings`: so its warnings are accounted for, too.
-/

namespace StyleDecl

variable {o : Options}

/-! ### What a tree is warned about -/

namespace Warning

/-- The warnings `ws` are one about each of the children of `node` with the name of an earlier
    child, in the order of the children. They are as many as there are more children than
    names. -/
structure AboutChildren (node : String) (children : List String) (ws : List Warning) : Prop where
  each : ws = (children.zipIdx.filter fun c => c.1 ∈ children.take c.2).map fun c =>
    .repeatedChild node c.1
  length : ws.length = children.length - children.toFinset.card

/-- The warnings `ws` are the warning `warning key` for each key that satisfies `p`, in ascending
    order of the keys. -/
def AboutKeys (p : String → Prop) (warning : String → Warning) (ws : List Warning) : Prop :=
  ∃ keys : List String, keys.Pairwise (· < ·) ∧ (∀ key, key ∈ keys ↔ p key) ∧
    ws = keys.map warning

end Warning

namespace Node

mutual

/-- The warnings `ws` are those that the tree deserves, in this order: for an object, about its
    children, its keys, all of its descendants, and its methods; for a callable, about its
    states. -/
def Warns : Node → List Warning → Prop
  | .object s children, ws => ∃ repeated shared below unstated,
    ws = repeated ++ shared ++ below ++ unstated ∧
      Warning.AboutChildren s.name (children.map name) repeated ∧
      Warning.AboutKeys (fun key => key ∈ s.properties.keys ∧ key ∈ s.methods.keys)
        (.sharedKey s.name) shared ∧
      WarnsAll children below ∧
      Warning.AboutKeys (fun key => s.methods.get? key = some (some []))
        (.noStates s.name) unstated
  | .callable name args, ws =>
    ws = if args.head? = some (some []) then [.noStates name ""] else []
  | .bare _, _ => False

/-- The warnings `ws` are those that the trees deserve, one tree after the other. -/
def WarnsAll : List Node → List Warning → Prop
  | [], ws => ws = []
  | node :: nodes, ws => ∃ first others, ws = first ++ others ∧ Warns node first ∧
    WarnsAll nodes others

end

mutual

/-- Every node of the tree is an object or a callable. -/
def Proper : Node → Prop
  | .object _ children => AllProper children
  | .callable _ _ => True
  | .bare _ => False

/-- Every node of the trees is an object or a callable. -/
def AllProper : List Node → Prop
  | [] => True
  | node :: nodes => Proper node ∧ AllProper nodes

end

end Node

/-! ### Names that come up again -/

namespace Surface

/-- The names that come up again are those at the places that an equal name comes before. -/
theorem repeatedNames_eq {seen before : List String} (h : ∀ name, name ∈ seen ↔ name ∈ before)
    (names : List String) : repeatedNames seen names =
      ((names.zipIdx before.length).filter fun c => c.1 ∈ (before ++ names).take c.2).map
        Prod.fst := by
  -- A name that comes up again is not seen once more, so `seen` and `before` need not be equal.
  induction names generalizing seen before with
  | nil => rfl
  | cons name names ih =>
    have hplace : (before ++ name :: names).take before.length = before := List.take_left
    have hmore (seen' : List String) (h' : ∀ other, other ∈ seen' ↔ other ∈ before ++ [name]) :
        repeatedNames seen' names = ((names.zipIdx (before.length + 1)).filter fun c =>
          c.1 ∈ (before ++ name :: names).take c.2).map Prod.fst := by
      have hagain := ih h'
      rwa [List.length_append, List.length_singleton, List.append_assoc, List.singleton_append]
        at hagain
    rw [repeatedNames, List.zipIdx_cons]
    by_cases hname : name ∈ seen
    · have hbefore : name ∈ before := (h name).1 hname
      have hseen : ∀ other, other ∈ seen ↔ other ∈ before ++ [name] := by
        intro other
        rw [h, List.mem_append, List.mem_singleton]
        exact ⟨.inl, fun hor => hor.elim id fun heq => heq ▸ hbefore⟩
      rw [if_pos hname, hmore seen hseen, List.filter_cons_of_pos (by simpa [hplace] using hbefore)]
      rfl
    · have hbefore : name ∉ before := fun hmem => hname ((h name).2 hmem)
      have hseen : ∀ other, other ∈ name :: seen ↔ other ∈ before ++ [name] := by
        intro other
        rw [List.mem_cons, h, List.mem_append, List.mem_singleton, or_comm]
      rw [if_neg hname, hmore _ hseen, List.filter_cons_of_neg (by simpa [hplace] using hbefore)]

/-- Each name either comes up again or is a new one. -/
theorem length_repeatedNames (seen names : List String) : (repeatedNames seen names).length +
    (names.toFinset ∪ seen.toFinset).card = names.length + seen.toFinset.card := by
  -- A name that was seen adds to the length, and one that was not to the set.
  induction names generalizing seen with
  | nil => simp [repeatedNames]
  | cons name names ih =>
    rw [repeatedNames, List.toFinset_cons, Finset.insert_union, List.length_cons]
    split
    · next hname =>
      have hmem : name ∈ names.toFinset ∪ seen.toFinset :=
        Finset.mem_union_right _ (List.mem_toFinset.2 hname)
      have hrest := ih seen
      rw [Finset.insert_eq_of_mem hmem, List.length_cons]
      omega
    · next hname =>
      have hrest := ih (name :: seen)
      rw [List.toFinset_cons, Finset.union_insert,
        Finset.card_insert_of_notMem (mt List.mem_toFinset.1 hname)] at hrest
      omega

theorem aboutChildren_repeatedNames (node : String) (children : List String) :
    Warning.AboutChildren node children
      ((repeatedNames [] children).map (.repeatedChild node)) where
  each := by
    have hnone : ∀ name : String, name ∈ ([] : List String) ↔ name ∈ ([] : List String) :=
      fun _ => Iff.rfl
    rw [repeatedNames_eq hnone children, List.map_map]
    rfl
  length := by
    have hlength := length_repeatedNames [] children
    rw [List.toFinset_nil, Finset.union_empty, Finset.card_empty] at hlength
    rw [List.length_map]
    omega

/-- The keys of both properties and methods, in order. -/
theorem aboutKeys_shared (s : Surface) :
    Warning.AboutKeys (fun key => key ∈ s.properties.keys ∧ key ∈ s.methods.keys)
      (.sharedKey s.name)
      (((Literal.sorted s.properties.keys).filter fun key => key ∈ s.methods.keys).map
        (.sharedKey s.name)) := by
  have hnodup : (Literal.sorted s.properties.keys).Nodup :=
    (Literal.sorted_perm _).nodup_iff.2 s.properties.nodup
  have hlt := Literal.pairwise_lt (Literal.pairwise_sorted _) hnodup
  refine ⟨_, hlt.filter _, fun key => ?_, rfl⟩
  rw [List.mem_filter, (Literal.sorted_perm _).mem_iff, decide_eq_true_iff]

theorem unstated_eq (node : String) (methods : List (String × Option (List String))) :
    unstated node methods =
      ((methods.filter fun m => m.2 = some []).map Prod.fst).map (.noStates node) := by
  induction methods with
  | nil => rfl
  | cons m methods ih =>
    rw [unstated, List.filterMap_cons, List.filter_cons, ← unstated, ih]
    by_cases hm : m.2 = some [] <;> simp [hm]

/-- The keys of methods with an empty list of states, in order. -/
theorem aboutKeys_unstated (s : Surface) :
    Warning.AboutKeys (fun key => s.methods.get? key = some (some [])) (.noStates s.name)
      (unstated s.name s.methods.sorted) := by
  refine ⟨_, List.pairwise_map.2 (s.methods.pairwise_lt_sorted.filter _), fun key => ?_,
    unstated_eq _ _⟩
  rw [List.mem_map]
  constructor
  · rintro ⟨⟨k, states⟩, hmem, rfl⟩
    obtain ⟨hentry, hstates⟩ := List.mem_filter.1 hmem
    have hempty : states = some [] := of_decide_eq_true hstates
    exact Table.get?_eq_some_iff.2 (hempty ▸ s.methods.sorted_perm.mem_iff.1 hentry)
  · intro hget
    have hentry := s.methods.sorted_perm.mem_iff.2 (Table.get?_eq_some_iff.1 hget)
    exact ⟨(key, some []), List.mem_filter.2 ⟨hentry, decide_eq_true rfl⟩, rfl⟩

/-- A callable has one list of states to be warned about. -/
theorem unstated_firstStates (name : String) (args : List (Option (List String))) :
    unstated name [("", Node.firstStates args)] =
      if args.head? = some (some []) then [.noStates name ""] else [] := by
  have hfirst : Node.firstStates args = some [] ↔ args.head? = some (some []) :=
    Option.join_eq_some_iff
  rw [unstated_eq]
  by_cases h : args.head? = some (some [])
  · simp [h, hfirst.2 h]
  · simp [h, mt hfirst.1 h]

end Surface

/-! ### The warnings of a timeline -/

namespace Node

mutual

theorem warns_timeline : (node : Node) → node.Proper → node.Warns (Event.warnings node.timeline)
  | .object s children, h => by
    refine ⟨_, _, Event.warnings (timelineAll children), _, ?_,
      Surface.aboutChildren_repeatedNames s.name (children.map name), s.aboutKeys_shared,
      warns_timelineAll children h, s.aboutKeys_unstated⟩
    rw [timeline, Event.warnings_append, Event.warnings_map_warned, Event.warnings_append,
      Event.warnings_append, Event.warnings_map_warned, Event.warnings_completed, List.append_nil,
      Surface.clashes, ← List.append_assoc]
  | .callable name args, _ => by
    rw [timeline, Event.warnings_append, Event.warnings_map_warned, Event.warnings_completed,
      List.append_nil]
    exact Surface.unstated_firstStates name args

theorem warns_timelineAll : (nodes : List Node) → AllProper nodes →
    WarnsAll nodes (Event.warnings (timelineAll nodes))
  | [], _ => rfl
  | node :: nodes, h => by
    rw [timelineAll, Event.warnings_append]
    exact ⟨_, _, rfl, warns_timeline node h.1, warns_timelineAll nodes h.2⟩

end

mutual

/-- There is something to declare for every object and every callable. -/
theorem stuck_not_mem_timeline (reason : EmitError) : (node : Node) → node.Proper →
    Event.stuck reason ∉ node.timeline
  | .object s children, h => by
    simpa [timeline] using stuck_not_mem_timelineAll reason children h
  | .callable name args, _ => by simp [timeline]

theorem stuck_not_mem_timelineAll (reason : EmitError) : (nodes : List Node) → AllProper nodes →
    Event.stuck reason ∉ timelineAll nodes
  | [], _ => List.not_mem_nil
  | node :: nodes, h => by
    rw [timelineAll, List.mem_append, not_or]
    exact ⟨stuck_not_mem_timeline reason node h.1,
      stuck_not_mem_timelineAll reason nodes h.2⟩

end

/-- What a lenient emission in a new session answers and leaves in the log. -/
theorem perform_emit (ho : o.strict = false) {node : Node} (h : node.Proper) :
    (EmitSession.start o).perform (.emit node) = (.ok (.text (node.text o o.indentLevel)),
      ⟨o, ((⟨o.indentLevel, {}⟩ : EmitState).past o node.timeline).log⟩) := by
  have hgo := go_of_lenient ho fun reason => stuck_not_mem_timeline reason node h
  have hemit : node.emit o ⟨o.indentLevel, {}⟩ = .ok (node.text o o.indentLevel)
      ((⟨o.indentLevel, {}⟩ : EmitState).past o node.timeline) := by
    rw [node.emit_plays o o.indentLevel _ rfl, bind_of_ok (Event.play_eq_ok hgo)]
    rfl
  simp only [EmitSession.perform, EmitSession.emitting, EmitSession.start, hemit]
  rfl

/-- A lenient emission in a new session succeeds, and the warnings of its log are those that the
    tree deserves: for every object one about each child with the name of an earlier child and one
    about each key of both a property and a method, ahead of those about its descendants, and one
    about each method with an empty list of states behind them, for every callable one if its
    first list of states is empty, and no others. -/
theorem emit_warnings (o : Options) (ho : o.strict = false) {node : Node} (h : node.Proper) :
    ∃ text log, (EmitSession.start o).perform (.emit node) = (.ok (.text text), ⟨o, log⟩) ∧
      node.Warns log.warnings :=
  ⟨_, _, perform_emit ho h, node.warns_timeline h⟩

/-- Three children of one name that are warned about themselves, and two keys that are both a
    property and a method. -/
theorem emit_warnings_repeated :
    let f : Node := .callable "f" [some []]
    let root : Node := .object
      ⟨"A", ⟨[("q", ["X"]), ("p", ["Y"])], by decide⟩, ⟨[("q", some []), ("p", none)], by decide⟩⟩
      [f, f, .callable "g" [], f]
    root.Proper ∧ ∃ text log,
      (EmitSession.start {}).perform (.emit root) = (.ok (.text text), ⟨{}, log⟩) ∧
      root.Warns log.warnings ∧
      log.warnings = [.repeatedChild "A" "f", .repeatedChild "A" "f", .sharedKey "A" "p",
        .sharedKey "A" "q", .noStates "f" "", .noStates "f" "", .noStates "f" "",
        .noStates "A" "q"] := by
  intro f root
  have hproper : root.Proper := ⟨trivial, trivial, trivial, trivial, trivial⟩
  obtain ⟨text, log, hperform, hwarns⟩ := emit_warnings {} rfl hproper
  have hproperties : Literal.sorted ["q", "p"] = ["p", "q"] := by
    simp [Literal.sorted, List.mergeSort]
  have hmethods (h) : (⟨[("q", some []), ("p", none)], h⟩ : Table (Option (List String))).sorted =
      [("p", none), ("q", some [])] := by
    simp [Table.sorted, List.mergeSort]
  have htimeline : Event.warnings root.timeline = [.repeatedChild "A" "f",
      .repeatedChild "A" "f", .sharedKey "A" "p", .sharedKey "A" "q", .noStates "f" "",
      .noStates "f" "", .noStates "f" "", .noStates "A" "q"] := by
    simp only [root, f, timeline, timelineAll, Surface.clashes, Table.keys, List.map, hproperties,
      hmethods]
    rfl
  have hlog := congrArg (·.2.log.warnings) (hperform.symm.trans (perform_emit rfl hproper))
  exact ⟨hproper, text, log, hperform, hwarns, hlog.trans htimeline⟩

end Node

end StyleDecl
