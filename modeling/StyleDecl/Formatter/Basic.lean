import StyleDecl.Decl.Layout
import StyleDecl.Decl.Reader.Statements

/-!
# Formatters

A formatter is handed declaration texts and answers each with its canonical form,
with a rejection, or with a failure of its own. Its answers may depend on the
texts it was handed before.

* `format`: the canonical form of a text;
* `Formatter`: any formatter, as a state machine;
* `builtIn`, `identity`, `rejecting`: three of them.
-/

namespace StyleDecl

/-- The canonical form of a declaration text. -/
def format (cfg : LayoutConfig) (source : String) : Except Rejection String :=
  (DeclFile.ofText? source).map (DeclFile.text cfg)

/-- What a formatter with failures of type `ε` answers to a text. -/
inductive Reply (ε : Type)
  /-- The text is a declaration text, and this is its form. -/
  | accepted (text : String)
  /-- The text is no declaration text. -/
  | rejected (r : Rejection)
  /-- The formatter does not work. -/
  | failed (e : ε)

/-- A formatter with states of type `σ` and failures of type `ε`. -/
abbrev Formatter (σ ε : Type) := String → StateM σ (Reply ε)

namespace Formatter

variable {σ ε : Type}

/-- The formatter of this library. -/
def builtIn (cfg : LayoutConfig) : Formatter σ ε := fun source =>
  match format cfg source with
  | .ok text => return .accepted text
  | .error r => return .rejected r

/-- The formatter that leaves every text as it is. -/
def identity : Formatter σ ε := fun source => return .accepted source

/-- The formatter that counts the texts it is handed, from zero, and rejects those
    whose number is in `calls`, or all of them, for the same reason; the others it
    formats. -/
def rejecting (calls : Option (List Int)) (r : Rejection) (cfg : LayoutConfig) :
    Formatter Nat ε := fun source number =>
  if calls.all fun numbers => numbers.contains (number : Int) then (.rejected r, number + 1)
  else
    let (reply, _) := builtIn cfg source ()
    (reply, number + 1)

end Formatter

end StyleDecl
