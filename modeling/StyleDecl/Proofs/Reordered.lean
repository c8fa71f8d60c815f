import Mathlib.Data.List.Nodup
import Mathlib.Data.List.Perm.Basic
import StyleDecl.Proofs.Declared
import StyleDecl.Proofs.Stream

/-!
# Orders that do not matter

Properties, methods and states are declared in the order of their code points, so the
order in which they were entered does not matter, and neither do the arguments of a
callable after the first. Trees that are the same up to these orders generate the same
run, whether it succeeds or not (`generate_reordered`).

* `SameStates`, `SameEntry`, `Surface.Reordered`, `Node.Reordered`: the same up to order;
* `Node.Reordered.emit`: such trees are emitted alike.
-/

namespace StyleDecl

open Literal

variable {o : Options}

/-! ### The same up to order -/

/-- The same states in any order. -/
abbrev SameStates : Option (List String) → Option (List String) → Prop := Option.Rel List.Perm

/-- Entries with the same key and with values that are related by `R`. -/
def SameEntry {α β : Type} (R : α → β → Prop) (e : String × α) (f : String × β) : Prop :=
  e.1 = f.1 ∧ R e.2 f.2

/-- Objects of the same name with the same properties and methods, entered in any order. -/
structure Surface.Reordered (s t : Surface) : Prop where
  name : s.name = t.name
  properties : s.properties.entries.Perm t.properties.entries
  methods : ∃ ms, s.methods.entries.Perm ms ∧
    List.Forall₂ (SameEntry SameStates) ms t.methods.entries

namespace Node

mutual

/-- Trees of the same shape whose nodes are the same up to order. Of the arguments of a
    callable only the first has to be the same. -/
def Reordered : Node → Node → Prop
  | .object s cs, .object t ds => s.Reordered t ∧ AllReordered cs ds
  | .callable m as, .callable n bs => m = n ∧ SameStates (firstStates as) (firstStates bs)
  | .bare m, .bare n => m = n
  | _, _ => False

/-- Trees that are the same up to order, one by one. -/
def AllReordered : List Node → List Node → Prop
  | [], [] => True
  | c :: cs, d :: ds => Reordered c d ∧ AllReordered cs ds
  | _, _ => False

end

end Node

/-! ### Sorting -/

/-- Strings are sorted in one way only. -/
theorem Literal.sorted_eq_of_perm {xs ys : List String} (h : xs.Perm ys) : sorted xs = sorted ys :=
  ((sorted_perm xs).trans (h.trans (sorted_perm ys).symm)).eq_of_pairwise
    (fun _ _ _ _ => String.le_antisymm) (pairwise_sorted xs) (pairwise_sorted ys)

theorem keys_eq_of_forall₂ {α β : Type} {R : α → β → Prop} {es : List (String × α)}
    {fs : List (String × β)} (h : List.Forall₂ (SameEntry R) es fs) :
    es.map Prod.fst = fs.map Prod.fst := by
  induction h with
  | nil => rfl
  | cons hef _ ih => exact congrArg₂ List.cons hef.1 ih

namespace Table

variable {α β : Type} {t u : Table α}

/-- Entries with different keys are in order in one way only. -/
theorem eq_sorted_of_perm {es : List (String × α)} (hperm : es.Perm t.entries)
    (hes : es.Pairwise fun e f => e.1 ≤ f.1) : es = t.sorted := by
  refine (hperm.trans t.sorted_perm.symm).eq_of_pairwise (fun e f he hf hef hfe => ?_) hes
    t.pairwise_sorted
  -- No key is entered twice.
  exact List.inj_on_of_nodup_map t.nodup (hperm.mem_iff.1 he) (t.sorted_perm.mem_iff.1 hf)
    (String.le_antisymm hef hfe)

theorem sorted_eq_of_perm (h : t.entries.Perm u.entries) : t.sorted = u.sorted :=
  eq_sorted_of_perm (t.sorted_perm.trans h) t.pairwise_sorted

/-- Entries that correspond to each other correspond in order, too. -/
theorem forall₂_sorted {R : α → β → Prop} {t : Table α} {u : Table β} {es : List (String × α)}
    (hperm : t.entries.Perm es) (h : List.Forall₂ (SameEntry R) es u.entries) :
    List.Forall₂ (SameEntry R) t.sorted u.sorted := by
  obtain ⟨fs, hfs, hfu⟩ := List.perm_comp_forall₂ (t.sorted_perm.trans hperm) h
  have hle : (fs.map Prod.fst).Pairwise (· ≤ ·) := by
    rw [← keys_eq_of_forall₂ hfs, List.pairwise_map]
    exact t.pairwise_sorted
  rw [List.pairwise_map] at hle
  exact eq_sorted_of_perm hfu hle ▸ hfs

end Table

/-! ### Members -/

/-- Signatures do not depend on the order of states. -/
theorem Options.signatures_reordered {states states' : Option (List String)}
    (h : SameStates states states') (k : String) :
    o.signatures k states = o.signatures k states' := by
  cases h with
  | none => rfl
  | some h => rw [signatures, signatures, union, union, sorted_eq_of_perm h]

/-- What is emitted for states does not depend on their order if what comes after does not. -/
theorem Options.resolveStates_reordered {α : Type} {states states' : Option (List String)}
    (h : SameStates states states') (node member : String)
    {f : Option (List String) → EmitM α} (hf : ∀ s s', SameStates s s' → f s = f s') :
    (o.resolveStates node member states >>= f) = (o.resolveStates node member states' >>= f) := by
  cases h with
  | none => rfl
  | @some s s' h =>
    cases s with
    | nil => rw [List.nil_perm.1 h]
    | cons a s =>
      cases s' with
      | nil => exact absurd h.eq_nil (List.cons_ne_nil a s)
      | cons b s' => exact hf _ _ (.some h)

namespace Surface

variable {s t : Surface}

theorem signatureLines_reordered (node : String) {ms ns : List (String × Option (List String))}
    (h : List.Forall₂ (SameEntry SameStates) ms ns) :
    signatureLines o node ms = signatureLines o node ns := by
  induction h with
  | nil => rfl
  | @cons m n ms ns hmn _ ih =>
    obtain ⟨name, states⟩ := m
    obtain ⟨name', states'⟩ := n
    obtain ⟨rfl, hstates⟩ : name = name' ∧ SameStates states states' := hmn
    rw [signatureLines, signatureLines, ih]
    refine Options.resolveStates_reordered hstates node name fun s s' hs => ?_
    rw [Options.signatures_reordered hs]

namespace Reordered

theorem propertyLines (h : s.Reordered t) : s.propertyLines o = t.propertyLines o := by
  rw [Surface.propertyLines, Surface.propertyLines, Table.sorted_eq_of_perm h.properties]

theorem methodLines (h : s.Reordered t) : s.methodLines o = t.methodLines o := by
  obtain ⟨ms, hperm, hms⟩ := h.methods
  rw [Surface.methodLines, Surface.methodLines, h.name]
  exact signatureLines_reordered t.name (Table.forall₂_sorted hperm hms)

theorem clashes (h : s.Reordered t) (children : List String) :
    s.clashes children = t.clashes children := by
  obtain ⟨ms, hperm, hms⟩ := h.methods
  have hproperties : Literal.sorted s.properties.keys = Literal.sorted t.properties.keys :=
    sorted_eq_of_perm (h.properties.map Prod.fst)
  have hmethods : ∀ key, key ∈ s.methods.keys ↔ key ∈ t.methods.keys := by
    have hkeys : ms.map Prod.fst = t.methods.keys := keys_eq_of_forall₂ hms
    exact fun key => hkeys ▸ (hperm.map Prod.fst).mem_iff
  simp only [Surface.clashes, h.name, hproperties, hmethods]

end Reordered

end Surface

/-! ### Trees -/

namespace Node

theorem Reordered.name : {node node' : Node} → node.Reordered node' → node.name = node'.name
  | .object _ _, .object _ _, h => h.1.name
  | .callable _ _, .callable _ _, h => h.1
  | .bare _, .bare _, h => h

theorem AllReordered.names : {nodes nodes' : List Node} → AllReordered nodes nodes' →
    nodes.map Node.name = nodes'.map Node.name
  | [], [], _ => rfl
  | _ :: _, _ :: _, ⟨hnode, hnodes⟩ => congrArg₂ List.cons hnode.name hnodes.names

theorem Reordered.sort : {node node' : Node} → node.Reordered node' → node.sort = node'.sort
  | .object _ _, .object _ _, _ | .callable _ _, .callable _ _, _ | .bare _, .bare _, _ => rfl

mutual

/-- Trees that are the same up to order are emitted alike. -/
theorem Reordered.emit : {node node' : Node} → node.Reordered node' →
    node.emit o = node'.emit o
  | .object s cs, .object t ds, ⟨hsurface, hchildren⟩ => by
    rw [Node.emit, Node.emit, hsurface.clashes, hchildren.names, hchildren.emitAll,
      hsurface.methodLines, hsurface.propertyLines, hsurface.name]
  | .callable m as, .callable n bs, h => by
    obtain ⟨rfl, hstates⟩ := h
    rw [Node.emit, Node.emit]
    refine Options.resolveStates_reordered hstates m "" fun s s' hs => ?_
    rw [Options.signatures_reordered hs]
  | .bare m, .bare n, h => congrArg (fun name => (Node.bare name).emit o) h

theorem AllReordered.emitAll : {nodes nodes' : List Node} → AllReordered nodes nodes' →
    Node.emitAll o nodes = Node.emitAll o nodes'
  | [], [], _ => rfl
  | _ :: _, _ :: _, ⟨hnode, hnodes⟩ => by
    rw [Node.emitAll, Node.emitAll, hnode.emit, hnodes.emitAll]

end

theorem Reordered.emitRoot : {node node' : Node} → node.Reordered node' →
    node.emitRoot o = node'.emitRoot o
  | .object _ _, .object _ _, h => h.emit
  | .callable _ _, .callable _ _, _ | .bare _, .bare _, _ => rfl

end Node

/-- Trees that are the same up to order generate the same run: the same file or error, the same
    declarations and warnings, and the same texts for the formatter. -/
theorem generate_reordered {σ ε : Type} (o : Options) (formatter : Formatter σ ε)
    {root root' : Node} (h : root.Reordered root') (state : σ) :
    generate o formatter root state = generate o formatter root' state := by
  have hfile : root.rawFile o = root'.rawFile o := by
    rw [Node.rawFile, Node.rawFile, h.emitRoot, h.name]
  rw [generate, generate, hfile, h.name]

/-- Properties, methods and states entered the other way round, and another argument. -/
theorem generate_reordered_class :
    (Node.object ⟨"A", ⟨[("p", ["X"]), ("q", ["Y"])], by decide⟩,
        ⟨[("m", some ["a", "b"]), ("n", none)], by decide⟩⟩
      [.callable "f" [some ["c", "d"], none]]).Reordered
    (.object ⟨"A", ⟨[("q", ["Y"]), ("p", ["X"])], by decide⟩,
        ⟨[("n", none), ("m", some ["b", "a"])], by decide⟩⟩
      [.callable "f" [some ["d", "c"], some ["e"]]]) ∧
    generate {} (Formatter.builtIn {} : Formatter Unit Unit)
      (.object ⟨"A", ⟨[("p", ["X"]), ("q", ["Y"])], by decide⟩,
          ⟨[("m", some ["a", "b"]), ("n", none)], by decide⟩⟩
        [.callable "f" [some ["c", "d"], none]]) () =
      generate {} (Formatter.builtIn {})
        (.object ⟨"A", ⟨[("q", ["Y"]), ("p", ["X"])], by decide⟩,
            ⟨[("n", none), ("m", some ["b", "a"])], by decide⟩⟩
          [.callable "f" [some ["d", "c"], some ["e"]]]) () := by
  have hsurface : Surface.Reordered
      ⟨"A", ⟨[("p", ["X"]), ("q", ["Y"])], by decide⟩,
        ⟨[("m", some ["a", "b"]), ("n", none)], by decide⟩⟩
      ⟨"A", ⟨[("q", ["Y"]), ("p", ["X"])], by decide⟩,
        ⟨[("n", none), ("m", some ["b", "a"])], by decide⟩⟩ :=
    ⟨rfl, .swap .., _, .swap .., .cons ⟨rfl, .none⟩ (.cons ⟨rfl, .some (.swap ..)⟩ .nil)⟩
  refine ⟨?_, generate_reordered {} (Formatter.builtIn {}) ?_ ()⟩ <;>
    exact ⟨hsurface, ⟨rfl, .some (.swap ..)⟩, trivial⟩

end StyleDecl
