import StyleDecl.Rejection

/-!
# Streams of tokens

Declarations are read from a stream of tokens. Comments may stand between any two
tokens, so the stream holds every other token together with the comments before
it, and looking ahead never sees a comment. What is read decides whether the
comments at hand are kept or dropped.

* `Stream.ofTokens`: the stream of a list of tokens;
* `Reader`: reading from a stream, up to a rejection;
* `Reader.gather`: reading something over and over.
-/

namespace StyleDecl

/-- A token that is no comment, with the comments before it. -/
structure Item where
  /-- The comments before the token, in order. -/
  comments : List Token
  /-- The token. -/
  token : Token

namespace Item

/-- The items of a list of tokens. Comments with no token after them make no
    item. -/
def group : List Token → List Item
  | [] => []
  | t :: rest =>
    if t.kind = .comment then
      match group rest with
      | [] => []
      | item :: items => { item with comments := t :: item.comments } :: items
    else ⟨[], t⟩ :: group rest

/-- The first token of an item, a comment or not. -/
def first (item : Item) : Token := item.comments.head?.getD item.token

end Item

/-- A stream of tokens. -/
structure Stream where
  /-- The items that are yet to be read. -/
  items : List Item
  /-- The token that closes the text. It is seen wherever no item is left. -/
  final : Token
  /-- The token or comment read last, and before that the closing token. -/
  last : Token
  /-- The number of tokens and comments read so far. -/
  consumed : Nat
  /-- The closing token stands for the end of the text. -/
  final_kind : final.kind = .eof

namespace Stream

/-- The token that closes a list of tokens: the last one, if it stands for the end
    of the text. -/
def closing (tokens : List Token) : { t : Token // t.kind = .eof } :=
  match tokens.getLast? with
  | none => ⟨⟨.eof, "", 1, 1, 1⟩, rfl⟩
  | some t => if h : t.kind = .eof then ⟨t, h⟩ else ⟨⟨.eof, "", 1, 1, 1⟩, rfl⟩

/-- The stream of a list of tokens, the last of which closes the text. -/
def ofTokens (tokens : List Token) : Stream where
  items := Item.group tokens
  final := closing tokens
  last := closing tokens
  consumed := 0
  final_kind := (closing tokens).2

/-- The token some places ahead, comments not counted. -/
def ahead (s : Stream) (offset : Nat) : Token := (s.items[offset]?.map Item.token).getD s.final

/-- The token some places ahead. No token is seen behind, only the closing one. -/
def lookup (s : Stream) (offset : Int) : Token :=
  if 0 ≤ offset then s.ahead offset.toNat else s.final

/-- The comments at hand. -/
def comments (s : Stream) : List Token := (s.items.head?.map Item.comments).getD []

/-- The stream after the comments at hand. -/
def afterComments (s : Stream) : Stream :=
  match s.items with
  | [] => s
  | item :: items =>
    { s with
      items := { item with comments := [] } :: items
      last := item.comments.getLast?.getD s.last
      consumed := s.consumed + item.comments.length }

/-- The stream after the token at hand and the comments before it. -/
def afterToken (s : Stream) : Stream :=
  match s.items with
  | [] => { s with last := s.final, consumed := s.consumed + 1 }
  | item :: items =>
    { s with items, last := item.token, consumed := s.consumed + item.comments.length + 1 }

end Stream

/-- Reading from a stream. A rejection leaves the stream where it was found. -/
abbrev Reader := EStateM Rejection Stream

namespace Reader

/-! ### Looking ahead -/

/-- The token some places ahead, comments not counted. -/
def peek (offset : Nat := 0) : Reader Token := fun s => .ok (s.ahead offset) s

/-- The token some places ahead, or the closing token for a place behind. -/
def lookup (offset : Int) : Reader Token := fun s => .ok (s.lookup offset) s

/-- Whether the token at hand is of one of the kinds `kinds`. -/
def sees (kinds : List Kind) : Reader Bool := fun s => .ok (kinds.contains (s.ahead 0).kind) s

/-- The token or comment read last. -/
def previous : Reader Token := fun s => .ok s.last s

/-- Rejecting the text at the token at hand, for a fault that depends on its kind. -/
def reject {α : Type} (fault : Token → Fault) : Reader α := fun s =>
  .error ⟨fault (s.ahead 0), (s.ahead 0).line, (s.ahead 0).column⟩ s

/-! ### Moving on -/

/-- Dropping the comments at hand. -/
def current : Reader Token := fun s => .ok (s.ahead 0) s.afterComments

/-- Taking the comments at hand. -/
def takeComments : Reader (List Token) := fun s => .ok s.comments s.afterComments

/-- Taking the token at hand. The comments before it are dropped. -/
def advance : Reader Token := fun s => .ok (s.ahead 0) s.afterToken

/-- Taking the token at hand if it is of one of the kinds `kinds`, and else
    rejecting the text. -/
def expect (kinds : List Kind) (detail : String := "") : Reader Token := do
  if ← sees kinds then advance else reject fun t => .expected kinds t.kind detail

/-- Taking the punctuation mark `p` if it is at hand. -/
def skip? (p : Punct) : Reader Bool := do
  if ← sees [.punct p] then
    let _ ← advance
    return true
  else
    return false

/-- Taking the semicolon or the comma after a declaration. It may be left out where
    a new line begins, before one of the kinds `closers` and at the end. -/
def terminator (closers : List Kind) : Reader Unit := do
  if ← sees [.punct .semicolon, .punct .comma] then
    let _ ← advance
  else
    let token ← peek
    if closers.contains token.kind || token.kind = .eof then return
    if token.line > (← previous).endLine then return
    reject fun t => .expected [.punct .semicolon] t.kind ""

/-! ### Reading over and over -/

/-- What one round of reading found, and whether there is another round. -/
inductive Round (α : Type)
  | more (found : List α)
  | done (found : List α)

/-- At most `n` rounds, with all that they find. -/
def gatherUpTo {α : Type} (round : Reader (Round α)) : Nat → Reader (List α)
  | 0 => pure []
  | n + 1 => do
    match ← round with
    | .done found => return found
    | .more found => return found ++ (← gatherUpTo round n)

/-- Round after round, with all that they find. A round that is not the last one
    takes a token, so there are no more rounds than tokens, but for the last. -/
def gather {α : Type} (round : Reader (Round α)) : Reader (List α) := fun s =>
  gatherUpTo round (s.items.length + 1) s

end Reader

end StyleDecl
