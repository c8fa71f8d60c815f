import StyleDecl.Emit.Declaration

/-!
# Emission sessions

Several emissions may share one log. A session holds the options and the log, and
its actions emit trees or parts of them, change the level of the indent or look at
the log. An action that fails leaves in the log what it had added before.
-/

namespace StyleDecl

/-- The options and the log of several emissions. -/
structure EmitSession where
  /-- The options. -/
  options : Options
  /-- The log. -/
  log : Log

namespace EmitSession

/-- A session with an empty log. -/
def start (options : Options) : EmitSession := ⟨options, {}⟩

/-- What can be done in a session. -/
inductive Action
  /-- To emit a tree. -/
  | emit (node : Node)
  /-- To list the properties of an object. -/
  | properties (surface : Surface)
  /-- To list the methods of an object. -/
  | methods (surface : Surface)
  /-- To change the level of the indent. -/
  | setLevel (level : Int)
  /-- To look at the indent. -/
  | indent
  /-- To add a declaration to the log. -/
  | record (block : Block)
  /-- To look at the declarations of the log. -/
  | blocks
  /-- To look at the warnings of the log. -/
  | warnings

/-- What an action answers. -/
inductive Answer
  | nothing
  | text (s : String)
  | lines (ls : List String)
  | level (n : Int)
  | blocks (bs : List Block)
  | warnings (ws : List Warning)

/-- A session as an emission leaves it. -/
def left (s : EmitSession) (state : EmitState) : EmitSession :=
  { s with options.indentLevel := state.level, log := state.log }

/-- Emitting into the log of a session. -/
def emitting {α : Type} (s : EmitSession) (emission : EmitM α) (answer : α → Answer) :
    Except EmitError Answer × EmitSession :=
  match emission ⟨s.options.indentLevel, s.log⟩ with
  | .ok value state => (.ok (answer value), s.left state)
  | .error e state => (.error e, s.left state)

/-- Performing an action. -/
def perform (s : EmitSession) : Action → Except EmitError Answer × EmitSession
  | .emit node => s.emitting (node.emit s.options) .text
  | .properties surface => s.emitting (pure (surface.propertyLines s.options)) .lines
  | .methods surface => s.emitting (surface.methodLines s.options) .lines
  | .setLevel level =>
    (.ok (.level level), { s with options := { s.options with indentLevel := level } })
  | .indent => (.ok (.text (s.options.indentAt s.options.indentLevel)), s)
  | .record block => s.emitting (EmitM.record block.stage block.node block.text) fun _ => .nothing
  | .blocks => (.ok (.blocks s.log.blocks), s)
  | .warnings => (.ok (.warnings s.log.warnings), s)

end EmitSession

end StyleDecl
