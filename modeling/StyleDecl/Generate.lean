import StyleDecl.Emit.Declaration
import StyleDecl.Formatter.Basic

/-!
# Generating declaration files

The declaration file of a style tree holds a banner, the style type, the
declarations of the tree, and a variable for its root, which is exported by
default. The root has to be an object. The file is put together as it comes and
then handed to a formatter. A file that the formatter rejects holds a declaration
that is no declaration text by itself; it is found by handing over the
declarations one by one.

* `Node.rawFile`: the file as it comes;
* `generate`: the file as the formatter answers it, or what went wrong.
-/

namespace StyleDecl

/-- The comment that marks a file as generated: its title in a box of stars. -/
def banner (title : String) : String :=
  let border := "/" ++ String.ofList (List.replicate (title.length + 8) '*') ++ "/"
  "\n".intercalate [border, "/*   " ++ title ++ "   */", border]

/-- The banner and the style type. -/
def Options.preamble (o : Options) : String :=
  banner o.headerTitle ++ "\n\ndeclare type " ++ o.styleType ++ " = " ++ styleBody ++ ";\n"

/-- The variable for the root of a tree, and its export. -/
def Options.exportText (o : Options) (root : String) : String :=
  "declare let " ++ o.exportName ++ ": " ++ root ++ " & " ++ o.styleType ++
    ";\n\nexport default " ++ o.exportName ++ ";\n"

/-- The declarations of the root of a file. Only an object can be a root, for nothing else
    has children. -/
def Node.emitRoot (o : Options) : Node → EmitM String
  | .object s children => emit o (.object s children)
  | node => throw (.noObject node.sort)

/-- The declaration file of a tree as it comes. -/
def Node.rawFile (o : Options) (root : Node) : EmitM String := do
  EmitM.record .preamble o.styleType o.preamble
  let body ← root.emitRoot o
  EmitM.record .exportDecl o.exportName (o.exportText root.name)
  return "\n".intercalate [o.preamble, body, o.exportText root.name]

/-- What goes wrong in generating a file. -/
inductive GenerateError (ε : Type)
  /-- The tree cannot be emitted. -/
  | emission (e : EmitError)
  /-- The file is rejected for `cause`, and so is this declaration for `detail`. -/
  | blockRejected (block : Block) (detail cause : Rejection)
  /-- The file is rejected, but none of its declarations is. -/
  | fileRejected (root : String) (cause : Rejection)
  /-- The formatter does not work. -/
  | formatter (e : ε)

/-- A declaration that is no declaration text, in words. -/
def Block.rejectionMessage (block : Block) (detail : Rejection) : String :=
  "Generated " ++ block.stage.name ++ " declaration \"" ++ block.node ++
    "\" is not valid TypeScript: " ++ detail.message

/-- A file that is no declaration text though its declarations are, in words. -/
def fileRejectionMessage (root : String) (cause : Rejection) : String :=
  "Assembled declarations for \"" ++ root ++ "\" are not valid TypeScript: " ++ cause.message

/-- Where a rejected file is at fault: the name of the part of the file, the name that it
    declares, and the rejection of the file. If none of the declarations is rejected, putting
    them together for the root of the tree is at fault. -/
def GenerateError.place? {ε : Type} : GenerateError ε → Option (String × String × Rejection)
  | .blockRejected block _ cause => some (block.stage.name, block.node, cause)
  | .fileRejected root cause => some ("assembly", root, cause)
  | .emission _ => none
  | .formatter _ => none

/-- What generating a file came to. -/
structure Run (σ ε : Type) where
  /-- The file, or what went wrong. -/
  result : Except (GenerateError ε) String
  /-- The declarations and the warnings. -/
  log : Log
  /-- The level of the indent in the end. -/
  level : Int
  /-- The texts handed to the formatter. -/
  calls : List String := []
  /-- The state that the formatter was left in. -/
  state : σ
  /-- What is reported about the warnings. -/
  report : String := ""

variable {σ ε : Type}

/-- What to make of a file rejected for `cause`: the declarations are handed over
    one by one, up to the first that is not accepted. Answers what went wrong, the
    texts handed over and the state of the formatter. -/
def blame (formatter : Formatter σ ε) (root : String) (cause : Rejection) :
    List Block → σ → GenerateError ε × List String × σ
  | [], state => (.fileRejected root cause, [], state)
  | block :: blocks, state =>
    match formatter block.text state with
    | (.accepted _, state) =>
      let (error, calls, state) := blame formatter root cause blocks state
      (error, block.text :: calls, state)
    | (.rejected detail, state) => (.blockRejected block detail cause, [block.text], state)
    | (.failed e, state) => (.formatter e, [block.text], state)

/-- Generating the declaration file of a tree with a formatter in the state
    `state`. -/
def generate (o : Options) (formatter : Formatter σ ε) (root : Node) (state : σ) : Run σ ε :=
  match root.rawFile o ⟨o.indentLevel, {}⟩ with
  | .error e ⟨level, log⟩ => { result := .error (.emission e), log, level, state }
  | .ok source ⟨level, log⟩ =>
    match formatter source state with
    | (.accepted text, state) =>
      { result := .ok text, log, level, calls := [source], state
        report := if o.verbose then Warning.report true log.warnings else "" }
    | (.rejected cause, state) =>
      let (error, calls, state) := blame formatter root.name cause log.blocks state
      { result := .error error, log, level, calls := source :: calls, state }
    | (.failed e, state) =>
      { result := .error (.formatter e), log, level, calls := [source], state }

end StyleDecl
