/-!
# Declarations

A declaration file is a list of statements: type aliases, interfaces, classes,
variables, the default export, and comments between them. Types are named types,
literals, unions, intersections, arrays and inline object types, and the members
of interfaces, classes and object types are properties, methods, call signatures
and index signatures.

A file under construction may still have open places, a type or a member that is
yet to be filled in.
-/

namespace StyleDecl

mutual

/-- A type. -/
inductive TypeExpr
  /-- A place for a type. -/
  | hole
  /-- A named type; the name may be dotted. -/
  | reference (name : String)
  /-- A literal, as it is spelled. -/
  | literal (raw : String)
  /-- One of several types. -/
  | union (members : List TypeExpr)
  /-- All of several types at once. -/
  | intersection (members : List TypeExpr)
  /-- A list of values of a type. -/
  | array (element : TypeExpr)
  /-- An inline object type. -/
  | object (members : List Member)

/-- A parameter of a signature. -/
inductive Parameter
  /-- The parameter `name` of type `type`, which may be left out if `optional`. -/
  | mk (name : String) (type : TypeExpr) (optional : Bool)

/-- A member of an interface, a class or an object type. A key is a bare name, a
    number or a string literal, as it is spelled. -/
inductive Member
  /-- A place for a member. -/
  | hole
  /-- A property. -/
  | property (key : String) (type : TypeExpr) (readonly optional : Bool)
  /-- A method. -/
  | method (key : String) (parameters : List Parameter) (result : TypeExpr) (optional : Bool)
  /-- The signature of a call of the object itself. -/
  | call (parameters : List Parameter) (result : TypeExpr)
  /-- The signature of an access by index. -/
  | index (parameter : Parameter) (type : TypeExpr)
  /-- A comment between members. -/
  | comment (text : String)

end

/-- A statement of a declaration file. Its modifiers are the words before it. -/
inductive Statement
  /-- A comment; it is attached if what follows it begins on the next line. -/
  | comment (text : String) (attached : Bool)
  /-- A type given a name. -/
  | typeAlias (name : String) (type : TypeExpr) (modifiers : List String)
  /-- An interface. -/
  | interfaceDecl (name : String) (members : List Member) (modifiers : List String)
  /-- A class. -/
  | classDecl (name : String) (members : List Member) (modifiers : List String)
  /-- A variable, with or without a type. -/
  | variableDecl (kind name : String) (type : Option TypeExpr) (modifiers : List String)
  /-- The name that is exported by default. -/
  | exportDefault (name : String)

/-- A declaration file. -/
structure DeclFile where
  /-- The statements, in order. -/
  statements : List Statement

/-- The name of a parameter. -/
def Parameter.name : Parameter → String
  | mk name _ _ => name

/-- The type of a parameter. -/
def Parameter.type : Parameter → TypeExpr
  | mk _ type _ => type

/-- Whether a parameter may be left out. -/
def Parameter.optional : Parameter → Bool
  | mk _ _ optional => optional

end StyleDecl
