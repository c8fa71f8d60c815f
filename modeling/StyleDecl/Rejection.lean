import StyleDecl.Token.Basic
import StyleDecl.Text.Quoted

/-!
# Rejections

A text that is no declaration text is rejected for one cause at one place. The
message names the cause, and the place if there is one.
-/

namespace StyleDecl

/-- Why a text is no declaration text. -/
inductive Fault
  /-- No token begins with this character. -/
  | unexpectedCharacter (c : Char)
  /-- A comment without an end. -/
  | unterminatedComment
  /-- A string literal without an end on its line. -/
  | unterminatedString
  /-- A token of another kind than those expected here. -/
  | expected (kinds : List Kind) (found : Kind) (detail : String)
  /-- A token that begins no statement. -/
  | noStatement (found : Kind) (text : String)
  /-- A token that begins no type. -/
  | noType (found : Kind)
  /-- A method marked as read-only. -/
  | readonlyMethod
  /-- A body without its closing brace. -/
  | unterminatedBody
  /-- A cause that another formatter reports in its own words. -/
  | reported (message : String)

/-- The cause of a rejection in words. -/
def Fault.message : Fault → String
  | unexpectedCharacter c => "Unexpected character " ++ Text.quoted (String.singleton c)
  | unterminatedComment => "Unterminated comment"
  | unterminatedString => "Unterminated string literal"
  | expected kinds found detail =>
    "Expected " ++ " or ".intercalate (kinds.map Kind.name) ++ " but got " ++ found.name ++
      (if detail.isEmpty then "" else ": " ++ detail)
  | noStatement found text => "Unexpected " ++ found.name ++ " " ++ Text.quoted text
  | noType found => "Expected a type but got " ++ found.name
  | readonlyMethod => "'readonly' modifier can only appear on a property"
  | unterminatedBody => "Unterminated body"
  | reported message => message

/-- The rejection of a text: the cause and its place. Line zero stands for no
    place at all. The places of this library are those of tokens and characters;
    another formatter may report any numbers. -/
structure Rejection where
  /-- The cause. -/
  fault : Fault
  /-- The line of the cause. -/
  line : Int := 0
  /-- The column of the cause. -/
  column : Int := 0

/-- A rejection in words. -/
def Rejection.message (r : Rejection) : String :=
  if r.line = 0 then r.fault.message
  else r.fault.message ++ " at line " ++ toString r.line ++ ", column " ++ toString r.column

end StyleDecl
