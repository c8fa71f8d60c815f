import StyleDecl.Text.Repeated

/-!
# Options of an emission

What is declared can be named and laid out as the caller chooses. How the text is
indented does not matter to a formatter, but it may still be looked at before it
is formatted.
-/

namespace StyleDecl

/-- The style type: a map of flags that no plain object satisfies, since it is a
    symbol as well. -/
def styleBody : String := "\x7b [str: string]: boolean \x7d & symbol"

/-- The parameter of a toggle. -/
def toggleParameter : String := "enabled?: any"

/-- The name of the parameter of a method with states. -/
def stateParameter : String := "substate"

/-- The type of this parameter for strings that are not known in advance. -/
def fallbackType : String := "string"

/-- The options of an emission. -/
structure Options where
  /-- How deep declarations are indented, to begin with. -/
  indentLevel : Int := 0
  /-- One step of the indent. -/
  indentText : String := "  "
  /-- The name of the style type that all properties share. -/
  styleType : String := "Style"
  /-- The name that is exported by default. -/
  exportName : String := "out"
  /-- The title of the file. -/
  headerTitle : String := "Autogenerated type declarations. DO NOT MODIFY."
  /-- Whether empty lists of states are an error. -/
  strict : Bool := false
  /-- Whether warnings are reported one by one. -/
  verbose : Bool := false
  deriving DecidableEq

namespace Options

/-- The indent at a level; below zero there is none. -/
def indentAt (o : Options) (level : Int) : String := Text.repeated level.toNat o.indentText

end Options

end StyleDecl
