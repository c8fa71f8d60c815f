import StyleDecl.Proofs.Canonical
import StyleDecl.Proofs.Grammar.Comments

/-!
# The comments that are kept

A comment is kept if the next token that is no comment is the first one of a statement, the
semicolon of an empty statement, the end of the text, the first token of a member of an interface
or a class, or the brace that closes such a body. All other comments are lost, those within object
types among them.

This is said here of the tokens themselves: a list of items is marked (`FileMarks`) with the
statements and members that it holds and, in between, with the comments before their first tokens
and before what closes a list of them. A file has its marks, too (`Statement.marks`), and they are
those of the tokens that it is read from.

* `Mark`: what a file holds, one after the other;
* `Grammar.FileMarks`: the marks of a list of items;
* `Grammar.fileMarks_iff`: they are those of the file that it derives.
-/

namespace StyleDecl

/-! ### Marks -/

/-- What stands at the top level of a file or in the body of an interface or a class. -/
inductive Mark
  /-- A comment, in a body or at the top level. -/
  | note (inBody : Bool) (text : String)
  /-- A statement that is neither an interface nor a class. -/
  | statement (s : Statement)
  /-- The beginning of an interface or a class, as one without members. -/
  | opening (s : Statement)
  /-- A member of an interface or a class. -/
  | member (m : Member)
  /-- The end of an interface or a class. -/
  | closing

/-- The text of a comment. -/
def Mark.note? : Mark → Option String
  | note _ text => some text
  | _ => none

/-- A mark as it is laid out: a comment line by line behind the indent of its place, anything else
    in its canonical form. -/
def Mark.laid (cfg : LayoutConfig) : Mark → Mark
  | note inBody text => note inBody (Layout.relaid (if inBody then cfg.indent else "") text)
  | statement s => statement (s.canonical cfg)
  | opening s => opening s
  | member m => member (m.canonical cfg)
  | closing => closing

/-- The mark of a member or a comment between members. -/
def Member.mark : Member → Mark
  | .comment text => .note true text
  | m => .member m

/-- The marks of the body of an interface or a class. -/
def Member.bodyMarks (ms : List Member) : List Mark := ms.map Member.mark ++ [.closing]

/-- Whether a statement is an interface or a class. -/
def Statement.hasBody : Statement → Bool
  | .interfaceDecl _ _ _ | .classDecl _ _ _ => true
  | _ => false

/-- The marks of a statement. -/
def Statement.marks : Statement → List Mark
  | .comment text _ => [.note false text]
  | .interfaceDecl name members modifiers =>
    .opening (.interfaceDecl name [] modifiers) :: Member.bodyMarks members
  | .classDecl name members modifiers =>
    .opening (.classDecl name [] modifiers) :: Member.bodyMarks members
  | s => [.statement s]

section

variable {cfg : LayoutConfig}

theorem Member.mark_of_not_comment {m : Member} (h : m.isComment = false) :
    m.mark = .member m := by
  cases m <;> first | rfl | cases h

theorem Statement.marks_of_not_hasBody {s : Statement} (hc : s.isComment = false)
    (h : s.hasBody = false) : s.marks = [.statement s] := by
  cases s with
  | comment => cases hc
  | interfaceDecl | classDecl => cases h
  | _ => rfl

theorem Member.mark_canonical (m : Member) : (m.canonical cfg).mark = m.mark.laid cfg := by
  cases m <;> rfl

/-- A body is laid out mark by mark. -/
theorem Member.bodyMarks_canonical (ms : List Member) :
    Member.bodyMarks (ms.map (Member.canonical cfg)) =
      (Member.bodyMarks ms).map (Mark.laid cfg) := by
  rw [Member.bodyMarks, Member.bodyMarks, List.map_append, List.map_map, List.map_map]
  exact congrArg (· ++ [Mark.closing]) (List.map_congr_left fun m _ => m.mark_canonical)

/-- A statement is laid out mark by mark. -/
theorem Statement.marks_canonical (s : Statement) :
    (s.canonical cfg).marks = s.marks.map (Mark.laid cfg) := by
  cases s with
  | interfaceDecl name ms modifiers | classDecl name ms modifiers =>
    exact congrArg (Mark.opening _ :: ·) (Member.bodyMarks_canonical ms)
  | _ => rfl

theorem Statement.marks_canonicalAll (ss : List Statement) :
    (Statement.canonicalAll cfg ss).flatMap Statement.marks =
      (ss.flatMap Statement.marks).map (Mark.laid cfg) := by
  induction ss with
  | nil => rfl
  | cons s ss ih =>
    rw [List.flatMap_cons, List.map_append, ← ih, ← Statement.marks_canonical]
    -- Whether the last comment is attached is no matter of its mark.
    cases ss with
    | nil => cases s <;> rfl
    | cons t ss => rw [Statement.canonicalAll_cons_cons, List.flatMap_cons]

end

/-! ### Marks of tokens -/

namespace Grammar

/-- The comments before an item. -/
def notes (inBody : Bool) (i : Item) : List Mark := i.comments.map fun t => .note inBody t.text

/-- The items from the first word of an interface or a class to the brace that opens its body. -/
inductive Opens : List Item → Statement → Prop
  | interfaceDecl {k n b : Item} {u : List Item} {words : List String} :
    Words u words → k.token.kind = .keyword .interface → n.token.kind = .identifier →
      b.token.kind = .punct .openBrace →
      Opens (u ++ [k, n, b]) (.interfaceDecl n.token.text [] words)
  | classDecl {k n b : Item} {u : List Item} {words : List String} :
    Words u words → k.token.kind = .keyword .classWord → n.token.kind = .identifier →
      b.token.kind = .punct .openBrace →
      Opens (u ++ [k, n, b]) (.classDecl n.token.text [] words)

/-- The marks of the items of a body, up to the brace that closes it. The comments before the first
    token of a member and before the brace are among them. -/
inductive BodyMarks : List Item → List Mark → Prop
  | closing {i : Item} :
    i.token.kind = .punct .closeBrace → BodyMarks [i] (notes true i ++ [.closing])
  | member {i : Item} {w e v : List Item} {m : Member} {ms : List Mark} :
    Derives true .member (i.bare :: w) m →
      Terminator true [.punct .closeBrace] (i.bare :: w) e v → BodyMarks v ms →
      BodyMarks (i :: w ++ e ++ v) (notes true i ++ .member m :: ms)

/-- The marks of the items of a file. The comments before the first token of a statement, before the
    semicolon of an empty statement and before the end of the text are among them. -/
inductive FileMarks : List Item → List Mark → Prop
  | ending {i : Item} : i.token.kind = .eof → FileMarks [i] (notes false i)
  | empty {i : Item} {v : List Item} {ms : List Mark} :
    i.token.kind = .punct .semicolon → FileMarks v ms → FileMarks (i :: v) (notes false i ++ ms)
  | statement {i : Item} {w v : List Item} {s : Statement} {ms : List Mark} :
    DerivesStatement true v (i.bare :: w) s → s.hasBody = false → FileMarks v ms →
      FileMarks (i :: w ++ v) (notes false i ++ .statement s :: ms)
  | body {i : Item} {u w v : List Item} {s : Statement} {bs ms : List Mark} :
    Opens (i.bare :: u) s → BodyMarks w bs → FileMarks v ms →
      FileMarks (i :: u ++ w ++ v) (notes false i ++ .opening s :: bs ++ ms)

variable {i : Item} {w v : List Item} {s : Statement} {ms : List Member} {marks : List Mark}

theorem bodyMarks_memberNotes (i : Item) :
    Member.bodyMarks (memberNotes true i) = notes true i ++ [.closing] := by
  rw [Member.bodyMarks, memberNotes, if_pos rfl, Reader.commentMembers, List.map_map]
  rfl

theorem bodyMarks_append_cons {m : Member} (hm : m.isComment = false) :
    Member.bodyMarks (memberNotes true i ++ m :: ms) =
      notes true i ++ .member m :: Member.bodyMarks ms := by
  have hnotes := bodyMarks_memberNotes i
  rw [Member.bodyMarks, List.append_cancel_right_eq] at hnotes
  rw [Member.bodyMarks, Member.bodyMarks, List.map_append, hnotes, List.map_cons,
    Member.mark_of_not_comment hm, List.append_assoc, List.cons_append]

theorem flatMap_marks_statementNotes (i : Item) :
    (statementNotes true i).flatMap Statement.marks = notes false i := by
  have hall (cs : List Token) (t : Token) : (Reader.commentStatements cs t).flatMap
      Statement.marks = cs.map fun t => .note false t.text := by
    fun_induction Reader.commentStatements cs t with
    | case1 => rfl
    | case2 => rfl
    | case3 _ _ _ _ ih =>
      rw [List.flatMap_cons, ih]
      rfl
  exact hall i.comments i.token

/-! ### Bodies -/

/-- The items that a list of members is derived from have its marks. -/
def Symbol.Marked : (c : Symbol) → List Item → c.Value → Prop
  | .members, w, ms => BodyMarks w (Member.bodyMarks ms)
  | _, _, _ => True

theorem Derives.marked {c : Symbol} {a : c.Value} (h : Derives true c w a) : c.Marked w a := by
  induction h with
  | @noMember i hi =>
    change BodyMarks [i] (Member.bodyMarks (memberNotes true i))
    rw [bodyMarks_memberNotes]
    exact .closing hi
  | @nextMember i w e v m ms hm he _ _ ih =>
    have hmarks := BodyMarks.member hm he ih
    rwa [← bodyMarks_append_cons hm.isComment_eq_false] at hmarks
  | _ => trivial

theorem BodyMarks.exists_derives (h : BodyMarks w marks) :
    ∃ ms : List Member, Derives true .members w ms ∧ marks = Member.bodyMarks ms := by
  induction h with
  | @closing i hi => exact ⟨_, .noMember hi, (bodyMarks_memberNotes i).symm⟩
  | @member i w e v m ms hm he _ ih =>
    obtain ⟨ms, hv, rfl⟩ := ih
    exact ⟨_, .nextMember hm he hv, (bodyMarks_append_cons hm.isComment_eq_false).symm⟩

/-! ### Statements and files -/

/-- An interface or a class is derived from what opens it and from its body. -/
theorem Opens.derives {u : List Item} (h : Opens u s) (hv : Derives true .members v ms)
    (after : List Item) :
    ∃ a, DerivesStatement true after (u ++ v) a ∧ a.marks = .opening s :: Member.bodyMarks ms := by
  cases h with
  | interfaceDecl hwords hk hn hb =>
    exact ⟨_, by simpa using DerivesStatement.interfaceDecl hwords hk hn hb hv, rfl⟩
  | classDecl hwords hk hn hb =>
    exact ⟨_, by simpa using DerivesStatement.classDecl hwords hk hn hb hv, rfl⟩

/-- An interface or a class is derived from what opens it and from its body only. -/
theorem DerivesStatement.exists_opens {a : Statement} (h : DerivesStatement true v w a)
    (ha : a.hasBody) :
    ∃ s u b, ∃ ms : List Member, w = u ++ b ∧ u ≠ [] ∧ Opens u s ∧ Derives true .members b ms ∧
      a.marks = .opening s :: Member.bodyMarks ms := by
  cases h with
  | @interfaceDecl k n b u w words ms hwords hk hn hb hw =>
    exact ⟨_, u ++ [k, n, b], w, ms, by simp, by simp, .interfaceDecl hwords hk hn hb, hw, rfl⟩
  | @classDecl k n b u w words ms hwords hk hn hb hw =>
    exact ⟨_, u ++ [k, n, b], w, ms, by simp, by simp, .classDecl hwords hk hn hb, hw, rfl⟩
  | _ => cases ha

/-- The items of a file have its marks. -/
theorem DerivesFile.marked {ss : List Statement} (h : DerivesFile true w ss) :
    FileMarks w (ss.flatMap Statement.marks) := by
  induction h with
  | @done i hi =>
    rw [flatMap_marks_statementNotes]
    exact .ending hi
  | @empty i v ss hi _ ih =>
    rw [List.flatMap_append, flatMap_marks_statementNotes]
    exact .empty hi ih
  | @statement i w v s ss hs _ ih =>
    rw [List.flatMap_append, flatMap_marks_statementNotes, List.flatMap_cons]
    cases hbody : s.hasBody with
    | false =>
      rw [Statement.marks_of_not_hasBody hs.isComment_eq_false hbody]
      exact .statement hs hbody ih
    | true =>
      obtain ⟨s', u, b, ms, hitems, hne, hopen, hms, hmarks⟩ := hs.exists_opens hbody
      obtain ⟨j, u, rfl⟩ := List.exists_cons_of_ne_nil hne
      obtain ⟨rfl, rfl⟩ := List.cons.inj hitems
      rw [hmarks]
      simpa using FileMarks.body hopen hms.marked ih

theorem FileMarks.exists_derives (h : FileMarks w marks) :
    ∃ ss, DerivesFile true w ss ∧ marks = ss.flatMap Statement.marks := by
  induction h with
  | ending hi => exact ⟨_, .done hi, (flatMap_marks_statementNotes _).symm⟩
  | empty hi _ ih =>
    obtain ⟨ss, hv, rfl⟩ := ih
    exact ⟨_, .empty hi hv, by rw [List.flatMap_append, flatMap_marks_statementNotes]⟩
  | @statement i w v s ms hs hbody _ ih =>
    obtain ⟨ss, hv, rfl⟩ := ih
    refine ⟨_, .statement hs hv, ?_⟩
    rw [List.flatMap_append, flatMap_marks_statementNotes, List.flatMap_cons,
      Statement.marks_of_not_hasBody hs.isComment_eq_false hbody]
    rfl
  | @body i u w v s bs ms hopen hw _ ih =>
    obtain ⟨ss, hv, rfl⟩ := ih
    obtain ⟨members, hmembers, rfl⟩ := hw.exists_derives
    obtain ⟨a, ha, hmarks⟩ := hopen.derives hmembers v
    refine ⟨statementNotes true i ++ a :: ss, .statement ha hv, ?_⟩
    rw [List.flatMap_append, flatMap_marks_statementNotes, List.flatMap_cons, hmarks]
    simp

/-- The marks of items are those of the file that they derive. -/
theorem fileMarks_iff {ss : List Statement} (h : DerivesFile true w ss) :
    FileMarks w marks ↔ marks = ss.flatMap Statement.marks := by
  refine ⟨fun hmarks => ?_, fun heq => heq ▸ h.marked⟩
  obtain ⟨ss', h', rfl⟩ := hmarks.exists_derives
  -- Reading comes to both files.
  let s : Stream := { Stream.ofTokens [] with items := w }
  obtain ⟨m, hm⟩ := h.read (s := s) rfl
  obtain ⟨m', hm'⟩ := h'.read (s := s) rfl
  rw [hm] at hm'
  cases hm'
  rfl

end Grammar

end StyleDecl
