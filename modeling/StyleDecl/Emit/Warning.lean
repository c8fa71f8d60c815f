import StyleDecl.Tree.Table

/-!
# Warnings

An emission warns of shapes that it can declare only in a degraded form. There is
a short report, which counts the warnings by what they are about, and a long one,
which can also list them.

* `Warning.message`, `Warning.text`: a warning in words;
* `Warning.summary`: the short report;
* `Warning.report`: the long report.
-/

namespace StyleDecl

/-- A warning about the object or callable `node`. -/
inductive Warning
  /-- The list of states of a member is empty; a nameless member stands for the
      node itself, which is called. -/
  | noStates (node member : String)
  /-- Several children have the name `name`. -/
  | repeatedChild (node name : String)
  /-- A property and a method have the name `key`. -/
  | sharedKey (node key : String)
  deriving DecidableEq

/-- What a warning is about. -/
inductive Construct
  | declaration
  | member
  | state
  deriving DecidableEq

namespace Construct

/-- The name of a construct. -/
def name : Construct → String
  | declaration => "declaration"
  | member => "member"
  | state => "state"

end Construct

namespace Warning

/-- The severity of all warnings. -/
def severity : String := "warning"

/-- The node that a warning is about. -/
def node : Warning → String
  | noStates node _ => node
  | repeatedChild node _ => node
  | sharedKey node _ => node

/-- What a warning is about. -/
def construct : Warning → Construct
  | noStates _ _ => .state
  | repeatedChild _ _ => .declaration
  | sharedKey _ _ => .member

/-- The code of a warning. -/
def code : Warning → String
  | noStates _ _ => "W001"
  | repeatedChild _ _ => "W002"
  | sharedKey _ _ => "W003"

/-- A warning in words. -/
def message : Warning → String
  | noStates _ member =>
    let target := if member.isEmpty then "call signature" else "\"" ++ member ++ "\""
    "State list for " ++ target ++ " is empty; emitted as a boolean toggle."
  | repeatedChild _ name =>
    "Declaration \"" ++ name ++ "\" appears more than once among its children."
  | sharedKey _ key =>
    "Property and method both named \"" ++ key ++ "\"; the declaration will not type-check."

/-- A warning as a line of a report. -/
def text (w : Warning) : String :=
  "[" ++ severity ++ "] " ++ (if w.node.isEmpty then "" else w.node ++ ": ") ++ w.message ++
    " (" ++ w.code ++ ")"

/-! ### Collecting warnings -/

/-- What can happen to a collection of warnings. -/
inductive Notice
  /-- A warning is raised. -/
  | raised (w : Warning)
  /-- All warnings are dropped. -/
  | cleared

/-- The warnings after a notice. -/
def Notice.apply (warnings : List Warning) : Notice → List Warning
  | raised w => warnings ++ [w]
  | cleared => []

/-- The warnings after a history of notices. -/
def collected (history : List Notice) : List Warning := history.foldl Notice.apply []

/-! ### The short report -/

/-- Counting one more warning. -/
def count (counts : Table Nat) (w : Warning) : Table Nat :=
  counts.insert w.construct.name ((counts.get? w.construct.name).getD 0 + 1)

/-- The constructs that warnings are about, in the order of their names, each with
    the number of warnings. -/
def tally (warnings : List Warning) : List (String × Nat) :=
  (warnings.foldl count .empty).sorted

/-- The number of warnings about each construct. -/
def summary (warnings : List Warning) : String :=
  if warnings.isEmpty then "No generator warnings."
  else
    "Generator warnings: " ++
      ", ".intercalate ((tally warnings).map fun c => toString c.2 ++ " " ++ c.1)

/-! ### The long report -/

/-- Putting one more warning with those about the same construct. -/
def gather (groups : Table (List Warning)) (w : Warning) : Table (List Warning) :=
  groups.insert w.construct.name ((groups.get? w.construct.name).getD [] ++ [w])

/-- The warnings by construct, in the order of the constructs' names. -/
def groups (warnings : List Warning) : List (String × List Warning) :=
  (warnings.foldl gather .empty).sorted

/-- The lines about one construct. -/
def groupLines (verbose : Bool) (group : String × List Warning) : List String :=
  ("  " ++ group.1 ++ ": " ++ toString group.2.length ++ " occurrence(s)") ::
    if verbose then group.2.map fun w => "    " ++ w.text else []

/-- The lines of the report, behind an empty one. Without warnings there is no
    report. -/
def reportLines (verbose : Bool) (warnings : List Warning) : List String :=
  if warnings.isEmpty then []
  else
    "" :: ("Generator warnings (" ++ toString warnings.length ++ "):") ::
      (groups warnings).flatMap (groupLines verbose)

/-- The number of warnings and, by construct, their number and, if `verbose`, the
    warnings themselves. -/
def report (verbose : Bool) (warnings : List Warning) : String :=
  String.join ((reportLines verbose warnings).map (· ++ "\n"))

end Warning

end StyleDecl
