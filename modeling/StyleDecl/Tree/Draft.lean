import StyleDecl.Tree.Basic

/-!
# Drafts of style trees

While trees are being built, their nodes are shared: a node may be the child of
several others and may still change, and every change is seen wherever the node
is. A draft holds the nodes in cells, and a node refers to its children by the
numbers of their cells.

* `Draft.plant`: entering a tree into a draft;
* `Draft.tree?`: the tree below a cell, as it is now;
* `Draft.addProperty`, `Draft.addMethod`, `Draft.addChild`: changes of a node.
-/

namespace StyleDecl

/-- A node of a draft. -/
inductive Cell
  /-- An object with the numbers of its children. -/
  | object (surface : Surface) (children : List Nat)
  /-- Something that can be called, with the states of each argument. -/
  | callable (name : String) (args : List (Option (List String)))
  /-- A name with nothing to declare for it. -/
  | bare (name : String)

/-- The nodes of trees that are being built. -/
structure Draft where
  /-- The cells, by number. -/
  cells : List Cell

namespace Draft

/-- The draft without nodes. -/
def empty : Draft := ⟨[]⟩

/-- A draft with one more cell, and the number of this cell. -/
def allocate (d : Draft) (cell : Cell) : Nat × Draft := (d.cells.length, ⟨d.cells ++ [cell]⟩)

mutual

/-- Entering a tree, all its nodes anew. -/
def plant (d : Draft) : Node → Nat × Draft
  | .object surface children =>
    let (numbers, d) := plantAll d children
    d.allocate (.object surface numbers)
  | .callable name args => d.allocate (.callable name args)
  | .bare name => d.allocate (.bare name)

/-- Entering several trees. -/
def plantAll (d : Draft) : List Node → List Nat × Draft
  | [] => ([], d)
  | node :: nodes =>
    let (number, d) := plant d node
    let (numbers, d) := plantAll d nodes
    (number :: numbers, d)

end

/-- The tree below a cell, if it is less than `depth` deep. -/
def treeUpTo (d : Draft) : Nat → Nat → Option Node
  | 0, _ => none
  | depth + 1, number =>
    match d.cells[number]? with
    | none => none
    | some (.object surface children) =>
      (children.mapM (treeUpTo d depth)).map (Node.object surface)
    | some (.callable name args) => some (.callable name args)
    | some (.bare name) => some (.bare name)

/-- The tree below a cell, as it is now. A node below itself makes no tree; any
    other tree is at most as deep as there are cells. -/
def tree? (d : Draft) (number : Nat) : Option Node := d.treeUpTo (d.cells.length + 1) number

/-- Changing what the object in a cell offers. -/
def modifySurface (d : Draft) (number : Nat) (f : Surface → Surface) : Draft :=
  ⟨d.cells.modify number fun
    | .object surface children => .object (f surface) children
    | cell => cell⟩

/-- Adding the names of types to a property, which is entered if it is not there. -/
def addProperty (d : Draft) (number : Nat) (name : String) (types : List String) : Draft :=
  d.modifySurface number fun s =>
    { s with properties := s.properties.insert name ((s.properties.get? name).getD [] ++ types) }

/-- Entering a method with its states. -/
def addMethod (d : Draft) (number : Nat) (name : String) (states : Option (List String)) : Draft :=
  d.modifySurface number fun s => { s with methods := s.methods.insert name states }

/-- Adding the node of one cell as the last child of another. -/
def addChild (d : Draft) (number child : Nat) : Draft :=
  ⟨d.cells.modify number fun
    | .object surface children => .object surface (children ++ [child])
    | cell => cell⟩

end Draft

end StyleDecl
