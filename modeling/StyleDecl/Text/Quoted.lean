import StyleDecl.Unicode.Unprintable

/-!
# Texts shown in messages

A message shows a piece of text in quotes, so that its ends can be seen, with
everything that has no visible form written by name or by number.
-/

namespace StyleDecl.Text

/-- The last `k` hexadecimal digits of `n`, in lower case. -/
def hexDigits : Nat → Nat → List Char
  | 0, _ => []
  | k + 1, n => hexDigits k (n / 16) ++ [Nat.digitChar (n % 16)]

/-- A character by its number, in the shortest of the forms with two, four and
    eight digits. -/
def numbered (c : Char) : List Char :=
  if c.toNat ≤ 0xFF then '\\' :: 'x' :: hexDigits 2 c.toNat
  else if c.toNat ≤ 0xFFFF then '\\' :: 'u' :: hexDigits 4 c.toNat
  else '\\' :: 'U' :: hexDigits 8 c.toNat

/-- A character as it is shown between quotes `quote`. -/
def shown (quote c : Char) : List Char :=
  if c = quote ∨ c = '\\' then ['\\', c]
  else if c = '\t' then ['\\', 't']
  else if c = '\n' then ['\\', 'n']
  else if c = '\r' then ['\\', 'r']
  else if Unicode.isUnprintable c then numbered c
  else [c]

/-- A text shown in quotes: single ones, or double ones if it holds single quotes
    and no double quote. -/
def quoted (text : String) : String :=
  let chars := text.toList
  let quote := if chars.contains '\'' && !chars.contains '"' then '"' else '\''
  String.ofList (quote :: chars.flatMap (shown quote) ++ [quote])

end StyleDecl.Text
