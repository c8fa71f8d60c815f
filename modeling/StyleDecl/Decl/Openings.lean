import StyleDecl.Decl.Layout
import StyleDecl.Text.Quoted

/-!
# Open places

A file can be printed only if no type and no member is left open, and if no
comment stands where a single member is asked for. The first such place, from left
to right, is what keeps it from being printed. Files that were read from a text
have none.
-/

namespace StyleDecl

/-- What keeps a type, a member or a file from being printed. -/
inductive Opening
  /-- A type that is left open. -/
  | type
  /-- A member that is left open. -/
  | member
  /-- A comment in the place of a member. -/
  | comment (text : String)
  deriving DecidableEq

/-- What keeps something from being printed, in words. -/
def Opening.message : Opening → String
  | type => "Cannot print type TypeExpr()"
  | member => "Cannot print member Member()"
  | comment text => "Cannot print member CommentMember(text=" ++ Text.quoted text ++ ")"

mutual

/-- The first open place of a type. -/
def TypeExpr.opening? : TypeExpr → Option Opening
  | .hole => some .type
  | .reference _ => none
  | .literal _ => none
  | .union members => TypeExpr.operandsOpening? members
  | .intersection members => TypeExpr.operandsOpening? members
  | .array element => element.opening?
  | .object members => Member.inlineOpening? members

/-- The first open place of a list of types. -/
def TypeExpr.operandsOpening? : List TypeExpr → Option Opening
  | [] => none
  | t :: ts => t.opening?.or (TypeExpr.operandsOpening? ts)

/-- The first open place of a parameter. -/
def Parameter.opening? : Parameter → Option Opening
  | .mk _ type _ => type.opening?

/-- The first open place of a list of parameters. -/
def Parameter.listOpening? : List Parameter → Option Opening
  | [] => none
  | p :: ps => p.opening?.or (Parameter.listOpening? ps)

/-- The first open place of a member. -/
def Member.opening? : Member → Option Opening
  | .hole => some .member
  | .property _ type _ _ => type.opening?
  | .method _ parameters result _ => (Parameter.listOpening? parameters).or result.opening?
  | .call parameters result => (Parameter.listOpening? parameters).or result.opening?
  | .index parameter type => parameter.opening?.or type.opening?
  | .comment text => some (.comment text)

/-- The first open place of a list of members with comments between them. -/
def Member.inlineOpening? : List Member → Option Opening
  | [] => none
  | .comment _ :: ms => Member.inlineOpening? ms
  | m :: ms => m.opening?.or (Member.inlineOpening? ms)

end

/-- The first open place of a statement. -/
def Statement.opening? : Statement → Option Opening
  | .comment _ _ => none
  | .typeAlias _ type _ => type.opening?
  | .interfaceDecl _ members _ => Member.inlineOpening? members
  | .classDecl _ members _ => Member.inlineOpening? members
  | .variableDecl _ _ type _ => type.bind TypeExpr.opening?
  | .exportDefault _ => none

/-- The first open place of a file. -/
def DeclFile.opening? (file : DeclFile) : Option Opening :=
  file.statements.findSome? Statement.opening?

/-- A text that is there only if there is no open place. -/
def Opening.unlessOpen {α : Type} (opening? : Option Opening) (text : α) : Except Opening α :=
  match opening? with
  | some opening => .error opening
  | none => .ok text

/-- Printing a type. -/
def TypeExpr.print (cfg : LayoutConfig) (t : TypeExpr) : Except Opening String :=
  Opening.unlessOpen t.opening? (t.text cfg)

/-- Printing a member, without the semicolon after it. -/
def Member.print (cfg : LayoutConfig) (m : Member) : Except Opening String :=
  Opening.unlessOpen m.opening? (m.text cfg)

/-- Printing a statement, line by line. -/
def Statement.print (cfg : LayoutConfig) (s : Statement) : Except Opening (List String) :=
  Opening.unlessOpen s.opening? (s.lines cfg)

/-- Printing a file. -/
def DeclFile.print (cfg : LayoutConfig) (file : DeclFile) : Except Opening String :=
  Opening.unlessOpen file.opening? (file.text cfg)

end StyleDecl
