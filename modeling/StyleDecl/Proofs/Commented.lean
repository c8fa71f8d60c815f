import StyleDecl.Proofs.Grammar.Marks
import StyleDecl.Proofs.Grammar.Moved
import StyleDecl.Proofs.RoundTrip

/-!
# The comments of formatted texts

Formatting keeps the comments between the statements of a file and between the members of its
interfaces and classes, each of them once, in order and where it stands, and no other comments.

The statements, members and comments that are kept are the marks of a text
(`Grammar.FileMarks`). A formatted text has the marks of the text that it was made from, each laid
out by itself, and it has no comments but those among its marks (`format_notes`).

* `Token.notes`: the comments among tokens;
* `Member.picks_lines`, `Statement.picks_lines`: the comments of what is printed;
* `format_notes`: the comments of a formatted text.
-/

namespace StyleDecl

open Grammar

variable {cfg : LayoutConfig}

/-! ### Comments of pieces of text -/

/-- The text of a token that is a comment. -/
def Token.note? (t : Token) : Option String := if t.kind = .comment then some t.text else none

/-- The texts of the comments among tokens. -/
def Token.notes (ts : List Token) : List String := ts.filterMap Token.note?

section

variable {cs : List Char} {P : List Item → Prop} {text : String} {s : Statement}
  {m : Member} {ms : List Member} {ss : List Statement}

/-- There are no comments in what is written without them. -/
theorem picks_of_writes (h : Writes cs (fun _ => True) P) : Picks Token.note? cs [] := by
  intro p rest
  obtain ⟨ts, w, hfind, hgroup, -, hplain⟩ := h p rest trivial
  refine ⟨ts, hfind, List.filterMap_eq_nil_iff.2 fun t ht => ?_⟩
  have hmem : t ∈ (Item.group ts).map Item.token := by
    have hitems : Item.group ts = w := by simpa [Item.group] using hgroup []
    have hspread : ts = Item.spread w := hgroup.eq_spread
    rw [hspread, Item.spread, List.mem_flatMap] at ht
    obtain ⟨i, hi, ht⟩ := ht
    rw [hplain i hi, List.nil_append, List.mem_singleton] at ht
    exact hitems ▸ ht ▸ List.mem_map_of_mem hi
  rw [Item.map_token_group] at hmem
  exact if_neg (Token.mem_uncommented.1 hmem).2

/-- A comment on lines of its own. -/
theorem picks_comment (h : Kind.comment.Spells text) :
    Picks Token.note? (text.toList ++ ['\n']) [text] := by
  intro p rest
  obtain ⟨t, hfind, hk, ht, -⟩ := Cursor.finds_comment (p := p) h
    (Reading.stops_cons_iff.2 rfl : Reading.Stops (· ≠ '\n') ('\n' :: rest))
  refine ⟨[t] ++ [], ?_, ?_⟩
  · rw [List.append_assoc, Position.after_append]
    exact hfind.trans (Cursor.finds_blank rfl)
  · exact List.filterMap_cons_some (ht ▸ if_pos hk)

theorem picks_newline : Picks Token.note? ['\n'] [] :=
  picks_blanks (List.forall_mem_singleton.2 rfl)

/-! ### Comments of printed declarations -/

/-- The comments among marks, as they are laid out. -/
def Mark.notes (cfg : LayoutConfig) (marks : List Mark) : List String :=
  (marks.map (Mark.laid cfg)).filterMap Mark.note?

theorem Mark.notes_append (marks marks' : List Mark) :
    Mark.notes cfg (marks ++ marks') = Mark.notes cfg marks ++ Mark.notes cfg marks' := by
  rw [Mark.notes, List.map_append, List.filterMap_append, Mark.notes, Mark.notes]

/-- There are no comments in the line of a member that is none. -/
theorem Member.picks_line (h : m.WellFormed) (hc : m.isComment = false) :
    Picks Token.note? (Layout.linesText (m.lines cfg)).toList (Mark.notes cfg [m.mark]) := by
  have hr : Renders .member (m.text cfg) (m.respelled cfg.spelling) := Member.renders_text h hc
  have hmember := picks_of_writes
    (Writes.append hr (writes_punct .semicolon) fun _ _ => ends_cons rfl)
  have hline := (picks_blanks cfg.isWhitespace_of_mem_indent).append hmember
  rw [Member.lines_of_not_comment hc, Layout.linesText_singleton, Member.mark_of_not_comment hc]
  change Picks _ _ []
  simpa [Punct.char] using hline.append picks_newline

/-- The comments of a member are those of its lines. -/
theorem Member.picks_lines (h : m.WellFormed) :
    Picks Token.note? (Layout.linesText (m.lines cfg)).toList (Mark.notes cfg [m.mark]) := by
  cases m with
  | comment text =>
    have hcomment := picks_comment (Layout.relaid_spells cfg.eq_space_of_mem_indent h)
    change Picks _ _ [Layout.relaid cfg.indent text]
    rw [Member.lines, Layout.linesText_commentLines]
    simpa using (picks_blanks cfg.isWhitespace_of_mem_indent).append hcomment
  | _ => exact Member.picks_line h rfl

theorem Member.picks_allLines (h : ∀ m ∈ ms, m.WellFormed) :
    Picks Token.note? (Layout.linesText (ms.flatMap (Member.lines cfg))).toList
      (Mark.notes cfg (ms.map Member.mark)) := by
  induction ms with
  | nil => exact .nil
  | cons m ms ih =>
    rw [List.forall_mem_cons] at h
    rw [List.flatMap_cons, Layout.linesText_append, String.toList_append, List.map_cons,
      ← List.singleton_append, Mark.notes_append]
    exact (Member.picks_lines h.1).append (ih h.2)

/-- The comments of a body are those of its members. -/
theorem Layout.picks_bodyLines {opener : String} (h : Member.AllWellFormed ms)
    (hopener : Writes (opener ++ " \x7b").toList (fun _ => True) P) :
    Picks Token.note? (linesText (bodyLines cfg opener ms)).toList
      (Mark.notes cfg (Member.bodyMarks ms)) := by
  rw [Member.allWellFormed_iff] at h
  have hclose := (picks_of_writes (writes_punct .closeBrace)).append picks_newline
  have hmarks : Mark.notes cfg (Member.bodyMarks ms) = Mark.notes cfg (ms.map Member.mark) := by
    rw [Member.bodyMarks, Mark.notes_append]
    exact List.append_nil _
  rw [hmarks]
  cases ms with
  | nil =>
    change Picks _ _ []
    simpa [bodyLines, linesText_singleton, Punct.char] using (picks_of_writes hopener).append hclose
  | cons m ms =>
    have hlines : Picks Token.note? (linesText ((m :: ms).flatMap (Member.lines cfg))).toList _ :=
      Member.picks_allLines h
    have hbody := (picks_newline.append hlines).append hclose
    rw [bodyLines, linesText_append, linesText_cons, linesText_singleton]
    · simpa [Punct.char] using (picks_of_writes hopener).append hbody
    · exact List.cons_ne_nil _ _

/-- The comments of an interface or a class are those of its body. -/
theorem Layout.picks_declaration {k : Keyword} {word name : String} {modifiers : List String}
    (hword : k.text ++ " " = word) (hn : Kind.identifier.Spells name)
    (hms : Member.AllWellFormed ms) (hm : Modifiers modifiers) :
    Picks Token.note?
      (linesText (bodyLines cfg (modifiersText modifiers ++ word ++ name) ms)).toList
      (Mark.notes cfg (Member.bodyMarks ms)) := by
  have hwords : modifiersText modifiers ++ k.text ++ " " = modifiersText modifiers ++ word := by
    rw [String.append_assoc, hword]
  have hopener := writes_opener hm k hn
  rw [hwords] at hopener
  exact picks_bodyLines hms hopener

/-- There are no comments in a line that is written without them. -/
theorem Layout.picks_line (h : Writes text.toList (fun _ => True) P) :
    Picks Token.note? (linesText [text]).toList [] := by
  rw [linesText_singleton, String.toList_append]
  exact (picks_of_writes h).append picks_newline

theorem Statement.notes_of_not_hasBody (hc : s.isComment = false) (h : s.hasBody = false) :
    Mark.notes cfg s.marks = [] := by
  rw [Statement.marks_of_not_hasBody hc h]
  rfl

/-- The comments of a statement are those of its lines. -/
theorem Statement.picks_lines (h : s.WellFormed) :
    Picks Token.note? (Layout.linesText (s.lines cfg)).toList (Mark.notes cfg s.marks) := by
  cases s with
  | comment text attached =>
    have hspells : Kind.comment.Spells (Layout.relaid "" text) := Layout.relaid_spells nofun h
    change Picks _ _ [Layout.relaid "" text]
    rw [Statement.lines, Layout.linesText_commentLines]
    simpa using picks_comment hspells
  -- Comments within types are not printed, so that only bodies have comments in their lines.
  | typeAlias name t modifiers =>
    obtain ⟨hn, ht, hm⟩ := h
    rw [Statement.lines, Statement.notes_of_not_hasBody rfl rfl]
    exact Layout.picks_line (writes_typeAlias hm hn (TypeExpr.renders_text ht).union)
  | interfaceDecl name ms modifiers =>
    obtain ⟨hn, hms, hm⟩ := h
    exact Layout.picks_declaration (k := .interface) rfl hn hms hm
  | classDecl name ms modifiers =>
    obtain ⟨hn, hms, hm⟩ := h
    exact Layout.picks_declaration (k := .classWord) rfl hn hms hm
  | variableDecl kind name t modifiers =>
    obtain ⟨⟨k, hk, rfl⟩, hn, ht, hm⟩ := h
    rw [Statement.notes_of_not_hasBody rfl rfl]
    cases t with
    | none =>
      change Picks _ (Layout.linesText
        [Layout.modifiersText modifiers ++ k.text ++ " " ++ name ++ "" ++ ";"]).toList []
      rw [String.append_empty]
      exact Layout.picks_line (writes_untyped hm hk hn)
    | some t =>
      change Picks _ (Layout.linesText
        [Layout.modifiersText modifiers ++ k.text ++ " " ++ name ++ (": " ++ t.text cfg) ++
          ";"]).toList []
      rw [← String.append_assoc]
      exact Layout.picks_line (writes_typed hm hk hn (TypeExpr.renders_text (ht t rfl)).union)
  | exportDefault name =>
    rw [Statement.lines, Statement.notes_of_not_hasBody rfl rfl]
    exact Layout.picks_line (writes_exportDefault h)

/-- The comments of statements are those of their lines. -/
theorem Statement.picks_listLines (h : ∀ s ∈ ss, s.WellFormed) :
    Picks Token.note? (Layout.linesText (Statement.listLines cfg ss)).toList
      (Mark.notes cfg (ss.flatMap Statement.marks)) := by
  induction ss with
  | nil => exact .nil
  | cons s ss ih =>
    rw [List.forall_mem_cons] at h
    have hs : Picks Token.note? (Layout.linesText (s.lines cfg)).toList _ :=
      Statement.picks_lines h.1
    cases ss with
    | nil => simpa [Statement.listLines] using hs
    | cons t ss =>
      have hblank : Picks Token.note? (if s.isAttached then [] else ['\n']) [] := by
        split
        · exact .nil
        · exact picks_newline
      rw [Statement.toList_listLines, List.flatMap_cons, Mark.notes_append]
      simpa using (hs.append hblank).append (ih h.2)

end

/-! ### Formatted texts -/

/-- The comments of a file are those of its text. -/
theorem DeclFile.notes_text {file : DeclFile} (h : file.WellFormed) (cfg : LayoutConfig) :
    ∃ us, Token.scan (file.text cfg) = .ok us ∧
      Token.notes us = Mark.notes cfg (file.statements.flatMap Statement.marks) := by
  have hpicks : Picks Token.note? (file.text cfg).toList _ := Statement.picks_listLines h
  obtain ⟨us, hfind, hnotes⟩ := hpicks .start []
  rw [List.append_nil] at hfind
  refine ⟨_, Token.scan_of_finds hfind, ?_⟩
  rw [Token.notes, List.filterMap_append, hnotes]
  exact List.append_nil _

section

variable {source text : String}

/-- The marks of a text that is formatted are those of the formatted text, each laid out by itself.
    In both of them, no other marks can be told, and the comments of the formatted text are all
    among its marks. -/
theorem format_notes (h : format cfg source = .ok text) :
    ∃ ts us marks, Token.scan source = .ok ts ∧ Token.scan text = .ok us ∧
      (∀ ms, FileMarks (Item.group ts) ms ↔ ms = marks) ∧
      (∀ ms, FileMarks (Item.group us) ms ↔ ms = marks.map (Mark.laid cfg)) ∧
      Token.notes us = (marks.map (Mark.laid cfg)).filterMap Mark.note? := by
  obtain ⟨file, hfile, hprint⟩ := format_eq_ok_iff.1 h
  have hwf := DeclFile.wellFormed_of_ofText? hfile
  obtain rfl := Except.ok.inj ((DeclFile.print_eq_ok hwf cfg).symm.trans hprint)
  obtain ⟨ts, e, hts, -, -, hd, -⟩ := DeclFile.derives_of_ofText? hfile
  obtain ⟨us, e', hus, -, -, hd', -⟩ := DeclFile.derives_of_ofText? (DeclFile.ofText?_text hwf cfg)
  obtain ⟨us', hus', hnotes⟩ := DeclFile.notes_text hwf cfg
  obtain rfl := Except.ok.inj (hus.symm.trans hus')
  refine ⟨_, _, _, hts, hus, fun ms => fileMarks_iff hd, fun ms => ?_, hnotes⟩
  rw [fileMarks_iff hd', DeclFile.canonical, Statement.marks_canonicalAll]

/-- A comment before the end of a member is lost, and those around the member are kept. -/
theorem format_notes_class :
    let source := "// a\nclass A \x7b /* b */\nx: B /* c */; // d\n\x7d"
    let text := "// a\nclass A \x7b\n  /* b */\n  x: B;\n  // d\n\x7d\n"
    format {} source = .ok text ∧ ∃ ts us marks, Token.scan source = .ok ts ∧
      Token.scan text = .ok us ∧ (∀ ms, FileMarks (Item.group ts) ms ↔ ms = marks) ∧
      (∀ ms, FileMarks (Item.group us) ms ↔ ms = marks.map (Mark.laid {})) ∧
      Token.notes us = (marks.map (Mark.laid {})).filterMap Mark.note? ∧
      Token.notes ts = ["// a", "/* b */", "/* c */", "// d"] ∧
      Token.notes us = ["// a", "/* b */", "// d"] := by
  intro source text
  have hformat : format {} source = .ok text := eq_ok_of_toOption (by decide +kernel)
  have hsource : (Token.scan source).toOption.map Token.notes =
      some ["// a", "/* b */", "/* c */", "// d"] := by decide +kernel
  have htext : (Token.scan text).toOption.map Token.notes =
      some ["// a", "/* b */", "// d"] := by decide +kernel
  obtain ⟨ts, us, marks, hts, hus, hmarks, hlaid, hnotes⟩ := format_notes hformat
  rw [hts] at hsource
  rw [hus] at htext
  exact ⟨hformat, ts, us, marks, hts, hus, hmarks, hlaid, hnotes, Option.some_inj.1 hsource,
    Option.some_inj.1 htext⟩

end

end StyleDecl
