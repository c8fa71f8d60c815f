import StyleDecl.Decl.Basic
import StyleDecl.Decl.Stream

/-!
# Reading types and members

Types and members hold one another. Each form is read here given how to read the
types within it (`type`), and `Reader.typeExpr` ties the knot: since a type within
a type comes after a bracket, types cannot be nested deeper than there are tokens.

A union binds more loosely than an intersection, which binds more loosely than the
marks of an array. A leading `|` or `&` means nothing, and neither do parentheses
around a type or a comma after the last parameter. Comments within types and
between parameters are dropped, those between members are kept.
-/

namespace StyleDecl.Reader

section

variable (type : Reader TypeExpr)

/-- A parameter: its name, a question mark if it may be left out, and its type. -/
def parameter : Reader Parameter := do
  let name ← expect Kind.names "parameter name"
  let optional ← skip? .question
  let _ ← expect [.punct .colon]
  return .mk name.text (← type) optional

/-- The next parameter with the comma after it, which the last one need not have. -/
def parameterRound : Reader (Round Parameter) := do
  if ← sees [.punct .closeParen] then
    return .done []
  else
    let p ← parameter type
    if ← sees [.punct .closeParen] then
      return .more [p]
    else
      let _ ← expect [.punct .comma]
      return .more [p]

/-- The parameters of a signature, in parentheses. -/
def parameters : Reader (List Parameter) := do
  let _ ← expect [.punct .openParen]
  let found ← gather (parameterRound type)
  let _ ← expect [.punct .closeParen]
  return found

/-- A call signature. -/
def callSignature : Reader Member := do
  let ps ← parameters type
  let _ ← expect [.punct .colon]
  return .call ps (← type)

/-- An index signature. -/
def indexSignature : Reader Member := do
  let _ ← expect [.punct .openBracket]
  let name ← expect Kind.names
  let _ ← expect [.punct .colon] "only index signatures are supported"
  let keyType ← type
  let _ ← expect [.punct .closeBracket]
  let _ ← expect [.punct .colon]
  return .index (.mk name.text keyType false) (← type)

/-- The word that marks a property as read-only. Where no key comes after it, it
    is a key itself. -/
def readonlyMark : Reader Bool := do
  if ← sees [.keyword .readonly] then
    if Kind.keys.contains (← peek 1).kind then
      let _ ← advance
      return true
    else
      return false
  else
    return false

/-- A property or a method. -/
def keyed : Reader Member := do
  let readonly ← readonlyMark
  let key ← expect Kind.keys "member name"
  let optional ← skip? .question
  if ← sees [.punct .openParen] then
    if readonly then
      reject fun _ => .readonlyMethod
    else
      let ps ← parameters type
      let _ ← expect [.punct .colon]
      return .method key.text ps (← type) optional
  else
    let _ ← expect [.punct .colon]
    return .property key.text (← type) readonly optional

/-- A member, without what terminates it. -/
def member : Reader Member := do
  if ← sees [.punct .openParen] then callSignature type
  else if ← sees [.punct .openBracket] then indexSignature type
  else keyed type

/-- Comments between members, as members. -/
def commentMembers (comments : List Token) : List Member :=
  comments.map fun c => Member.comment c.text

/-- The next member with its terminator, behind the comments before it. -/
def memberRound : Reader (Round Member) := do
  let comments := commentMembers (← takeComments)
  if ← sees [.punct .closeBrace] then
    return .done comments
  else if ← sees [.eof] then
    reject fun _ => .unterminatedBody
  else
    let m ← member type
    terminator [.punct .closeBrace]
    return .more (comments ++ [m])

/-- The members between two braces, each with its terminator. -/
def body : Reader (List Member) := do
  let _ ← expect [.punct .openBrace]
  let found ← gather (memberRound type)
  let _ ← expect [.punct .closeBrace]
  return found

/-- The next part of a dotted name, after its dot. -/
def namePartRound : Reader (Round String) := do
  if ← skip? .dot then
    return .more [(← expect [.identifier]).text]
  else
    return .done []

/-- The rest of a dotted name, each part after its dot. -/
def nameParts : Reader (List String) := gather namePartRound

/-- A named type, a literal, an object type or a type in parentheses. -/
def primary : Reader TypeExpr := do
  if ← sees [.identifier] then
    let first ← advance
    return .reference (".".intercalate (first.text :: (← nameParts)))
  else if ← sees [.string, .number] then
    return .literal (← advance).text
  else if ← sees [.punct .openBrace] then
    return .object (← body type)
  else if ← skip? .openParen then
    let inner ← type
    let _ ← expect [.punct .closeParen]
    return inner
  else
    reject fun t => .noType t.kind

/-- The next pair of brackets behind the element type of an array. -/
def arrayMarkRound : Reader (Round Unit) := do
  if ← sees [.punct .openBracket] then
    if (← peek 1).kind = .punct .closeBracket then
      let _ ← advance
      let _ ← advance
      return .more [()]
    else
      return .done []
  else
    return .done []

/-- The brackets behind the element type of an array, pair by pair. -/
def arrayMarks : Reader (List Unit) := gather arrayMarkRound

/-- A type with the brackets of arrays behind it. -/
def arrayType : Reader TypeExpr := do
  let element ← primary type
  return (← arrayMarks).foldl (fun t _ => .array t) element

/-- The next operand, after the mark `separator`. -/
def operandRound (separator : Punct) (operand : Reader TypeExpr) : Reader (Round TypeExpr) := do
  if ← skip? separator then
    return .more [← operand]
  else
    return .done []

/-- Operands with the mark `separator` between any two of them. The mark may also
    stand before the first. -/
def chain (separator : Punct) (operand : Reader TypeExpr) : Reader (List TypeExpr) := do
  let _ ← skip? separator
  let first ← operand
  let others ← gather (operandRound separator operand)
  return first :: others

/-- A single operand on its own, and several operands combined by `make`. -/
def combined (make : List TypeExpr → TypeExpr) : List TypeExpr → TypeExpr
  | [t] => t
  | ts => make ts

/-- An intersection, or a type that binds more tightly. -/
def intersection : Reader TypeExpr := do
  return combined .intersection (← chain .ampersand (arrayType type))

/-- A union, or a type that binds more tightly. -/
def union : Reader TypeExpr := do
  return combined .union (← chain .pipe (intersection type))

end

/-- A type within which types are nested less than `depth` deep. -/
def nested : Nat → Reader TypeExpr
  | 0 => reject fun t => .noType t.kind
  | depth + 1 => union (nested depth)

/-- A type. -/
def typeExpr : Reader TypeExpr := fun s => nested (s.items.length + 1) s

end StyleDecl.Reader
