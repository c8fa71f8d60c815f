import StyleDecl.Decl.Basic
import StyleDecl.Literal.Pieces
import StyleDecl.Text.Trim

/-!
# Layout

Every declaration file has one canonical text, up to the width of an indent and
the preferred quote: one statement after the other with an empty line between
them, except after an attached comment; members on lines of their own; inline
object types on one line, without their comments; string literals in their
preferred form; and parentheses only where a type binds more loosely than its
place asks for.

* `TypeExpr.text`, `Member.text`: the text of a type and of a member;
* `Statement.lines`: the lines of a statement;
* `DeclFile.text`: the text of a file.
-/

namespace StyleDecl

/-- What can be chosen about the layout. -/
structure LayoutConfig where
  /-- The number of spaces before a member; a negative number stands for none. -/
  indentWidth : Int := 2
  /-- Whether literals prefer single quotes. -/
  singleQuote : Bool := false
  deriving DecidableEq

namespace LayoutConfig

/-- The indent of a member. -/
def indent (cfg : LayoutConfig) : String := String.ofList (List.replicate cfg.indentWidth.toNat ' ')

/-- A literal or a key as it is written: in its preferred form if it is quoted. -/
def spelling (cfg : LayoutConfig) (raw : String) : String :=
  match raw.toList with
  | [] => raw
  | c :: _ => if Literal.isQuote c then Literal.preferred cfg.singleQuote raw else raw

end LayoutConfig

/-! ### Types and members -/

/-- How tightly a type binds: unions the least, then intersections, then all
    others. -/
def TypeExpr.level : TypeExpr → Nat
  | union _ => 0
  | intersection _ => 1
  | _ => 2

/-- The text of the type `t` where at least the level `least` is asked for. -/
def TypeExpr.enclosed (least : Nat) (t : TypeExpr) (text : String) : String :=
  if t.level < least then "(" ++ text ++ ")" else text

/-- The mark of what may be left out. -/
def Layout.optionalMark (optional : Bool) : String := if optional then "?" else ""

mutual

/-- The text of a type. -/
def TypeExpr.text (cfg : LayoutConfig) : TypeExpr → String
  | .hole => ""
  | .reference name => name
  | .literal raw => cfg.spelling raw
  | .union members => " | ".intercalate (TypeExpr.operandTexts cfg 1 members)
  | .intersection members => " & ".intercalate (TypeExpr.operandTexts cfg 2 members)
  | .array element => element.enclosed 2 (element.text cfg) ++ "[]"
  | .object members =>
    match Member.inlineTexts cfg members with
    | [] => "\x7b\x7d"
    | texts => "\x7b " ++ "; ".intercalate texts ++ " \x7d"

/-- The texts of the operands of a union or an intersection, which asks for the
    level `least`. -/
def TypeExpr.operandTexts (cfg : LayoutConfig) (least : Nat) : List TypeExpr → List String
  | [] => []
  | t :: ts => t.enclosed least (t.text cfg) :: TypeExpr.operandTexts cfg least ts

/-- The text of a parameter. -/
def Parameter.text (cfg : LayoutConfig) : Parameter → String
  | .mk name type optional => name ++ Layout.optionalMark optional ++ ": " ++ type.text cfg

/-- The texts of parameters. -/
def Parameter.texts (cfg : LayoutConfig) : List Parameter → List String
  | [] => []
  | p :: ps => p.text cfg :: Parameter.texts cfg ps

/-- The text of a member, without the semicolon after it. -/
def Member.text (cfg : LayoutConfig) : Member → String
  | .hole => ""
  | .property key type readonly optional =>
    (if readonly then "readonly " else "") ++ cfg.spelling key ++ Layout.optionalMark optional ++
      ": " ++ type.text cfg
  | .method key parameters result optional =>
    cfg.spelling key ++ Layout.optionalMark optional ++ "(" ++
      ", ".intercalate (Parameter.texts cfg parameters) ++ "): " ++ result.text cfg
  | .call parameters result =>
    "(" ++ ", ".intercalate (Parameter.texts cfg parameters) ++ "): " ++ result.text cfg
  | .index (.mk name keyType _) type =>
    "[" ++ name ++ ": " ++ keyType.text cfg ++ "]: " ++ type.text cfg
  | .comment _ => ""

/-- The texts of the members of an inline object type, which has no place for
    comments. -/
def Member.inlineTexts (cfg : LayoutConfig) : List Member → List String
  | [] => []
  | .comment _ :: ms => Member.inlineTexts cfg ms
  | m :: ms => m.text cfg :: Member.inlineTexts cfg ms

end

/-! ### Statements and files -/

/-- A line of a comment after its first: its star is lined up with the one above. -/
def Layout.continued (line : List Char) : List Char :=
  if line.head? = some '*' then ' ' :: line else line

/-- The lines of a comment, each without the blanks around it and behind `indent`. -/
def Layout.commentLines (indent text : String) : List String :=
  match (Text.lines text.toList).map Text.trim with
  | [] => []
  | first :: others =>
    (first :: others.map continued).map fun line => indent ++ String.ofList line

/-- The lines of a member of an interface or a class. -/
def Member.lines (cfg : LayoutConfig) : Member → List String
  | .comment text => Layout.commentLines cfg.indent text
  | member => [cfg.indent ++ member.text cfg ++ ";"]

/-- The lines of an interface or a class that is opened by `opener`. -/
def Layout.bodyLines (cfg : LayoutConfig) (opener : String) (members : List Member) :
    List String :=
  match members with
  | [] => [opener ++ " \x7b\x7d"]
  | _ => (opener ++ " \x7b") :: members.flatMap (Member.lines cfg) ++ ["\x7d"]

/-- The words before a statement, each with a space after it. -/
def Layout.modifiersText (modifiers : List String) : String :=
  String.join (modifiers.map (· ++ " "))

/-- The lines of a statement. -/
def Statement.lines (cfg : LayoutConfig) : Statement → List String
  | .comment text _ => Layout.commentLines "" text
  | .exportDefault name => ["export default " ++ name ++ ";"]
  | .typeAlias name type modifiers =>
    [Layout.modifiersText modifiers ++ "type " ++ name ++ " = " ++ type.text cfg ++ ";"]
  | .variableDecl kind name type modifiers =>
    let annotation := match type with
      | none => ""
      | some type => ": " ++ type.text cfg
    [Layout.modifiersText modifiers ++ kind ++ " " ++ name ++ annotation ++ ";"]
  | .interfaceDecl name members modifiers =>
    Layout.bodyLines cfg (Layout.modifiersText modifiers ++ "interface " ++ name) members
  | .classDecl name members modifiers =>
    Layout.bodyLines cfg (Layout.modifiersText modifiers ++ "class " ++ name) members

/-- Whether a statement is a comment attached to what follows it. -/
def Statement.isAttached : Statement → Bool
  | .comment _ attached => attached
  | _ => false

/-- The lines of a list of statements, with an empty line between any two unless
    the first is attached to the second. -/
def Statement.listLines (cfg : LayoutConfig) : List Statement → List String
  | [] => []
  | [s] => s.lines cfg
  | s :: t :: rest =>
    s.lines cfg ++ (if s.isAttached then [] else [""]) ++ Statement.listLines cfg (t :: rest)

/-- The text of a file: its lines, each with a line feed after it. -/
def DeclFile.text (cfg : LayoutConfig) (file : DeclFile) : String :=
  String.join ((Statement.listLines cfg file.statements).map (· ++ "\n"))

end StyleDecl
