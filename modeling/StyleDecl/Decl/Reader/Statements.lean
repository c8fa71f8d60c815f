import StyleDecl.Decl.Reader.Types
import StyleDecl.Token.Cursor

/-!
# Reading statements and files

A file is a list of statements. Comments at its top level are statements too, a
semicolon of its own is none, and all other statements begin with their modifiers
and the word for what they declare.

* `Reader.statement`: a declaration;
* `DeclFile.ofTokens?`: the file of a list of tokens.
-/

namespace StyleDecl

namespace Reader

/-- The next of the words `export` and `declare` before a declaration. -/
def modifierRound : Reader (Round String) := do
  if ← sees [.keyword .exportWord, .keyword .declare] then
    if (← sees [.keyword .exportWord]) && (← peek 1).kind = .keyword .default then
      return .done []
    else
      return .more [(← advance).text]
  else
    return .done []

/-- The words `export` and `declare` before a declaration. They end before the
    words `export default`. -/
def modifiers : Reader (List String) := gather modifierRound

/-- The default export. -/
def exportDefault : Reader Statement := do
  let _ ← expect [.keyword .exportWord]
  let _ ← expect [.keyword .default]
  let name ← expect [.identifier]
  terminator []
  return .exportDefault name.text

/-- A type alias behind its modifiers. -/
def typeAlias (modifiers : List String) : Reader Statement := do
  let _ ← expect [.keyword .type]
  let name ← expect [.identifier]
  let _ ← expect [.punct .equals]
  let type ← typeExpr
  terminator []
  return .typeAlias name.text type modifiers

/-- A variable behind its modifiers. The token at hand is the word for its kind. -/
def variableDecl (modifiers : List String) : Reader Statement := do
  let kind ← advance
  let name ← expect [.identifier]
  let type ← if ← skip? .colon then some <$> typeExpr else pure none
  terminator []
  return .variableDecl kind.text name.text type modifiers

/-- The name and the members of an interface or a class, behind the word for it. -/
def named : Reader (String × List Member) := do
  let _ ← advance
  let name ← expect [.identifier]
  return (name.text, ← body typeExpr)

/-- A statement that is no comment. Modifiers before a default export mean
    nothing. -/
def statement : Reader Statement := do
  let words ← modifiers
  -- The modifiers end at the word `export` only if it belongs to a default export.
  if ← sees [.keyword .exportWord] then
    exportDefault
  else if ← sees [.keyword .type] then
    typeAlias words
  else if ← sees [.keyword .interface] then
    let (name, members) ← named
    return .interfaceDecl name members words
  else if ← sees [.keyword .classWord] then
    let (name, members) ← named
    return .classDecl name members words
  else if ← sees [.keyword .letWord, .keyword .const, .keyword .var] then
    variableDecl words
  else
    reject fun t => .noStatement t.kind t.text

/-- A comment as a statement, given the token or comment after it. -/
def commentStatement (comment next : Token) : Statement :=
  .comment comment.text (next.line = comment.endLine + 1)

/-- Comments as statements, given the token after them. -/
def commentStatements : List Token → Token → List Statement
  | [], _ => []
  | [c], next => [commentStatement c next]
  | c :: d :: rest, next => commentStatement c d :: commentStatements (d :: rest) next

/-- The single token or comment at hand, taken for a comment. -/
def comment : Reader Statement := fun s =>
  match s.items with
  | [] => .ok (commentStatement s.final s.final) s.afterToken
  | item :: items =>
    let next := { s with last := item.first, consumed := s.consumed + 1 }
    match item.comments with
    | [] =>
      .ok (commentStatement item.token ((items.head?.map Item.first).getD s.final))
        { next with items }
    | c :: rest =>
      let item := { item with comments := rest }
      .ok (commentStatement c item.first) { next with items := item :: items }

/-- The next statement of a file, behind the comments before it. -/
def statementRound : Reader (Round Statement) := do
  let comments := commentStatements (← takeComments) (← peek)
  if ← sees [.eof] then
    return .done comments
  else if ← skip? .semicolon then
    return .more comments
  else
    return .more (comments ++ [← statement])

/-- A file: its statements up to the end. -/
def file : Reader DeclFile := do
  return ⟨← gather statementRound⟩

end Reader

/-- The file of a list of tokens, the last of which closes the text. -/
def DeclFile.ofTokens? (tokens : List Token) : Except Rejection DeclFile :=
  match Reader.file (Stream.ofTokens tokens) with
  | .ok file _ => .ok file
  | .error rejection _ => .error rejection

/-- The file of a text. -/
def DeclFile.ofText? (source : String) : Except Rejection DeclFile :=
  match Token.scan source with
  | .ok tokens => ofTokens? tokens
  | .error rejection => .error rejection

end StyleDecl
