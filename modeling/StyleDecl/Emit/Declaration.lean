import StyleDecl.Emit.Log
import StyleDecl.Emit.Options
import StyleDecl.Literal.Emitted
import StyleDecl.Tree.Basic

/-!
# Emitting declarations

Every node of a tree makes one declaration: an object a class with its properties
and methods, a callable an interface with its call signatures. The declarations of
the children of an object come ahead of its own. Properties, methods and states
are emitted in the order of their code points, however they were entered.

* `Surface.propertyLines`, `Surface.methodLines`: the members of a class;
* `Surface.clashes`: the names that an object uses twice;
* `Node.emit`: the declarations of a tree.
-/

namespace StyleDecl

/-! ### Members -/

/-- The states to be told apart by the member `member` of the node `node`. An empty
    list of states is taken for a toggle, or is an error in strict mode. -/
def Options.resolveStates (o : Options) (node member : String) :
    Option (List String) → EmitM (Option (List String))
  | none => pure none
  | some [] => do
    if o.strict then throw (.noStates node member)
    EmitM.warn [.noStates node member]
    return none
  | some (state :: states) => pure (some (state :: states))

/-- The signature of a method with the key `key` and one parameter. -/
def Options.signature (o : Options) (key parameter : String) : String :=
  key ++ "(" ++ parameter ++ "): " ++ o.styleType ++ ";"

/-- The signatures of a method with the key `key`, or of calls if there is no key. A
    toggle has one, and a method with states has one for these states and another
    one for any string. -/
def Options.signatures (o : Options) (key : String) : Option (List String) → List String
  | none => [o.signature key toggleParameter]
  | some states =>
    [o.signature key (stateParameter ++ ": " ++ Literal.union states),
      o.signature key (stateParameter ++ ": " ++ fallbackType)]

namespace Surface

/-- The property with the name `name`, whose type is the intersection of `types` and
    the style type. -/
def propertyLine (o : Options) (name : String) (types : List String) : String :=
  "readonly " ++ Literal.key name ++ ": " ++ " & ".intercalate (types ++ [o.styleType]) ++ ";"

/-- The properties of an object. -/
def propertyLines (o : Options) (s : Surface) : List String :=
  s.properties.sorted.map fun p => propertyLine o p.1 p.2

/-- The signatures of methods, given with their states. -/
def signatureLines (o : Options) (node : String) :
    List (String × Option (List String)) → EmitM (List String)
  | [] => pure []
  | (name, states) :: methods => do
    let states ← o.resolveStates node name states
    let others ← signatureLines o node methods
    return o.signatures (Literal.key name) states ++ others

/-- The methods of an object. -/
def methodLines (o : Options) (s : Surface) : EmitM (List String) :=
  signatureLines o s.name s.methods.sorted

end Surface

/-! ### Names used twice -/

/-- The names that come after an equal one, given those that came before. -/
def Surface.repeatedNames (seen : List String) : List String → List String
  | [] => []
  | name :: names =>
    if name ∈ seen then name :: repeatedNames seen names else repeatedNames (name :: seen) names

/-- The warnings about names that an object uses twice: those of several children,
    and those of both a property and a method. -/
def Surface.clashes (s : Surface) (children : List String) : List Warning :=
  (repeatedNames [] children).map (.repeatedChild s.name) ++
    ((Literal.sorted s.properties.keys).filter fun key => key ∈ s.methods.keys).map
      (.sharedKey s.name)

/-! ### Declarations -/

/-- A line at the level of the indent. -/
def Options.line (o : Options) (text : String) : EmitM String := fun s =>
  .ok (o.indentAt s.level ++ text) s

/-- A declaration with its members between braces, each one step further in. -/
def Options.declaration (o : Options) (opener : String) (members : List String) :
    EmitM String := do
  let first ← o.line (opener ++ " \x7b")
  EmitM.shift 1
  let inner ← members.mapM o.line
  EmitM.shift (-1)
  let last ← o.line "\x7d"
  return String.join ((first :: inner ++ [last]).map (· ++ "\n"))

namespace Node

mutual

/-- The declarations of a tree, with a line feed between any two. -/
def emit (o : Options) : Node → EmitM String
  | .object s children => do
    EmitM.warn (s.clashes (children.map name))
    let texts ← emitAll o children
    let methods ← s.methodLines o
    let text ← o.declaration ("declare class " ++ s.name) (s.propertyLines o ++ methods)
    EmitM.record .classDecl s.name text
    return "\n".intercalate (texts ++ [text])
  | .callable name args => do
    let states ← o.resolveStates name "" (firstStates args)
    let text ← o.declaration ("interface " ++ name) (o.signatures "" states)
    EmitM.record .interfaceDecl name text
    return text
  | .bare name => throw (.bareName name)

/-- The declarations of several trees. -/
def emitAll (o : Options) : List Node → EmitM (List String)
  | [] => pure []
  | node :: nodes => do
    let text ← emit o node
    let texts ← emitAll o nodes
    return text :: texts

end

end Node

end StyleDecl
