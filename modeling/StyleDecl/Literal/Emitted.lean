/-!
# Emitted keys and literals

Style names and state values are arbitrary strings. A value is written as a
single-quoted string literal, and a name is used as it is where it can be read as
a plain ASCII name and is quoted otherwise.

* `quote`: a value as a string literal, on one line;
* `key`: a name as the key of a member;
* `union`: the values of a state, in the order of their code points.
-/

namespace StyleDecl.Literal

/-- Whether a character can begin a plain name. -/
def isNameStart (c : Char) : Bool := c.isAlpha || c = '_' || c = '$'

/-- Whether a character can go on a plain name. -/
def isNamePart (c : Char) : Bool := isNameStart c || c.isDigit

/-- Whether a string is a plain name: ASCII letters, digits, `_` and `$`, the
    first of them no digit. -/
def isName (s : String) : Bool :=
  match s.toList with
  | [] => false
  | c :: rest => isNameStart c && rest.all isNamePart

/-- A character of a value, as it is written between single quotes. -/
def escaped (c : Char) : List Char :=
  if c = '\\' ∨ c = '\'' then ['\\', c]
  else if c = '\n' then ['\\', 'n']
  else if c = '\r' then ['\\', 'r']
  else [c]

/-- A value as a single-quoted string literal. -/
def quote (value : String) : String :=
  String.ofList ('\'' :: value.toList.flatMap escaped ++ ['\''])

/-- A name as the key of a member: bare where it is a plain name, quoted otherwise. -/
def key (name : String) : String := if isName name then name else quote name

/-- Strings in the order of their code points. -/
def sorted (strings : List String) : List String := strings.mergeSort fun s t => decide (s ≤ t)

/-- The values of a state as a union of string literals. -/
def union (values : List String) : String := " | ".intercalate ((sorted values).map quote)

end StyleDecl.Literal
