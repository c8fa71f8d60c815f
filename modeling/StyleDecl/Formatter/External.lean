import StyleDecl.Formatter.Basic

/-!
# External formatters

A formatter may be a process of its own. It is started with a command line that
holds the layout, reads a text and writes its form. A process that cannot be
started is a failure; one that ends with an exit code other than zero rejects the
text in its own words.

* `External.commandLine`: the command line;
* `External.reply`: what the outcome of a process means;
* `External.formatter`: the formatter, given what its processes come to.
-/

namespace StyleDecl

/-- A formatter that is run as a process. -/
structure External where
  /-- The command that starts it. -/
  command : List String := ["prettier"]
  /-- The layout that it is asked for. -/
  layout : LayoutConfig := {}

/-- What a process came to. -/
inductive Outcome
  /-- It ended. -/
  | exited (code : Int) (stdout stderr : String)
  /-- It could not be started, for a reason that the system gives. -/
  | notStarted (errno : Int) (reason : String)

/-- The failure of a formatter that cannot be started. -/
structure Unavailable where
  /-- The command line. -/
  commandLine : List String
  /-- The number of the system's reason. -/
  errno : Int
  /-- The system's reason. -/
  reason : String

namespace Unavailable

/-- The reason of the system, with its number. -/
def cause (u : Unavailable) : String := "[Errno " ++ toString u.errno ++ "] " ++ u.reason

/-- The failure in words. -/
def message (u : Unavailable) : String :=
  "Could not run formatter command " ++ Text.quoted (" ".intercalate u.commandLine) ++ ": " ++
    u.cause

end Unavailable

namespace External

/-- The command line of a formatter. -/
def commandLine (ex : External) : List String :=
  ex.command ++ ["--parser", "typescript", "--tab-width", toString ex.layout.indentWidth] ++
    if ex.layout.singleQuote then ["--single-quote"] else []

/-- The rejection of a text by a process that complains of it as `stderr` says. -/
def failure (stderr : String) : Rejection :=
  { fault := .reported ("prettier failed: " ++ String.ofList (Text.trim stderr.toList)) }

/-- What the outcome of a process answers to the text that it was given. -/
def reply (ex : External) : Outcome → Reply Unavailable
  | .notStarted errno reason => .failed ⟨ex.commandLine, errno, reason⟩
  | .exited code stdout stderr =>
    if code = 0 then .accepted stdout
    else .rejected (failure stderr)

/-- The formatter whose processes, each given a text, come to what `process` says. -/
def formatter {σ : Type} (ex : External) (process : String → StateM σ Outcome) :
    Formatter σ Unavailable := fun source => do
  return ex.reply (← process source)

end External

/-- Processes whose outcomes are given by a list in advance; the last one repeats. -/
def Outcome.scripted (_source : String) : StateM (List Outcome) Outcome := fun outcomes =>
  match outcomes with
  | [] => (.exited 0 "" "", [])
  | [outcome] => (outcome, [outcome])
  | outcome :: rest => (outcome, rest)

end StyleDecl
