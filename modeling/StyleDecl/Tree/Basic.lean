import StyleDecl.Tree.Table

/-!
# Style trees

A style tree describes the types of a style object. An object has properties,
whose types are given by name, methods, which take one of several states or just
switch a state on and off, and children, which are declared ahead of it. A callable
child overlays a property with a method of the same name.
-/

namespace StyleDecl

/-- What an object offers itself: its name, its properties with the names of their
    types, and its methods with their states. A method without a list of states is
    a toggle. -/
structure Surface where
  /-- The name of the object. -/
  name : String
  /-- The properties, each with the names of its types. -/
  properties : Table (List String) := .empty
  /-- The methods, each with its states. -/
  methods : Table (Option (List String)) := .empty

/-- A style tree. -/
inductive Node
  /-- An object with its children. -/
  | object (surface : Surface) (children : List Node)
  /-- Something that can be called, with the states of each argument. -/
  | callable (name : String) (args : List (Option (List String)))
  /-- A name with nothing to declare for it. -/
  | bare (name : String)

/-- The states of a callable: those of its first argument. -/
def Node.firstStates (args : List (Option (List String))) : Option (List String) := args.head?.join

namespace Node

/-- The name of a node. -/
def name : Node → String
  | object surface _ => surface.name
  | callable name _ => name
  | bare name => name

/-- The sort of a node, as it is called in errors. -/
def sort : Node → String
  | object _ _ => "ObjType"
  | callable _ _ => "FuncType"
  | bare _ => "TypeNode"

mutual

/-- Whether two trees are the same up to the order of properties and methods. -/
def equiv : Node → Node → Bool
  | object s cs, object t ds =>
    s.name = t.name && s.properties.equiv t.properties && s.methods.equiv t.methods &&
      equivAll cs ds
  | callable m as, callable n bs => m = n && as = bs
  | bare m, bare n => m = n
  | _, _ => false

/-- Whether two lists of trees are the same up to the order of properties and
    methods. -/
def equivAll : List Node → List Node → Bool
  | [], [] => true
  | c :: cs, d :: ds => equiv c d && equivAll cs ds
  | _, _ => false

end

end Node

end StyleDecl
