import StyleDecl.Emit.Warning

/-!
# The log of an emission

An emission keeps the text of every declaration that it completes, together with
the warnings that it raises. The log only ever grows, and what it holds when an
emission fails stays. Besides, an emission has a level of the indent, which it moves
as it goes into a declaration and out of it again.
-/

namespace StyleDecl

/-- The part of a file that a declaration belongs to. -/
inductive Stage
  | preamble
  | interfaceDecl
  | classDecl
  | exportDecl
  /-- A part that is named by the caller. -/
  | other (label : String)
  deriving DecidableEq

/-- The name of a part. -/
def Stage.name : Stage → String
  | preamble => "preamble"
  | interfaceDecl => "interface"
  | classDecl => "class"
  | exportDecl => "export"
  | other label => label

/-- A declaration that was completed. -/
structure Block where
  /-- The part that it belongs to. -/
  stage : Stage
  /-- The name that it declares. -/
  node : String
  /-- Its text. -/
  text : String
  deriving DecidableEq

/-- The declarations and the warnings of an emission, in order. -/
structure Log where
  /-- The declarations. -/
  blocks : List Block := []
  /-- The warnings. -/
  warnings : List Warning := []
  deriving DecidableEq

/-- Why a tree cannot be emitted. -/
inductive EmitError
  /-- The list of states of a member is empty; a nameless member stands for the
      node itself, which is called. -/
  | noStates (node member : String)
  /-- There is nothing to declare for a bare name. -/
  | bareName (name : String)
  /-- The root of a file is no object but a node of the sort `sort`. -/
  | noObject (sort : String)
  deriving DecidableEq

/-- Why a tree cannot be emitted, in words. -/
def EmitError.message : EmitError → String
  | noStates node member =>
    let target := if member.isEmpty then "call signature" else "member \"" ++ member ++ "\""
    "Empty state list for " ++ target ++ " of \"" ++ node ++ "\""
  | bareName _ => ""
  | noObject sort => "'" ++ sort ++ "' object has no attribute 'children'"

/-- Where an emission stands: how deep it indents, and its log. -/
structure EmitState where
  /-- The level of the indent. -/
  level : Int
  /-- The log. -/
  log : Log := {}
  deriving DecidableEq

namespace EmitState

/-- The state with one more declaration in its log. -/
def recorded (s : EmitState) (stage : Stage) (node text : String) : EmitState :=
  { s with log.blocks := s.log.blocks ++ [⟨stage, node, text⟩] }

/-- The state with more warnings in its log. -/
def warned (s : EmitState) (warnings : List Warning) : EmitState :=
  { s with log.warnings := s.log.warnings ++ warnings }

/-- The state with the level of the indent moved. -/
def shifted (s : EmitState) (steps : Int) : EmitState := { s with level := s.level + steps }

end EmitState

/-- Emitting into a log. The log outlives a failure, and so does the level of the
    indent. -/
abbrev EmitM := EStateM EmitError EmitState

namespace EmitM

/-- Adding a declaration to the log. -/
def record (stage : Stage) (node text : String) : EmitM Unit := fun s =>
  .ok () (s.recorded stage node text)

/-- Adding warnings to the log. -/
def warn (warnings : List Warning) : EmitM Unit := fun s => .ok () (s.warned warnings)

/-- Moving the level of the indent. -/
def shift (steps : Int) : EmitM Unit := fun s => .ok () (s.shifted steps)

end EmitM

end StyleDecl
