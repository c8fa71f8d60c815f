import Mathlib.Data.List.Forall2
import StyleDecl.Formatter.Basic
import StyleDecl.Proofs.Canonical
import StyleDecl.Proofs.Grammar.RenderFile

/-!
# The round trip

The text of a well-formed file is read as the canonical form of the file
(`DeclFile.ofText?_text`): parentheses stand where they are needed, no two lexemes run
into each other, all declarations end where they should, and comments are on the
lines that they are expected on.

* `TypeExpr.renders_text`, `Member.renders_text`: types and members, wherever they
  stand;
* `Statement.renders_text`: statements other than comments;
* `Statement.readsFile_text`: the statements of a file.
-/

namespace StyleDecl

open Grammar Reader

variable {cfg : LayoutConfig} {t : TypeExpr} {text : String} {a : TypeExpr}

/-! ### Types and members -/

/-- The text of the type `t` is scanned as `a` wherever it stands, in parentheses where
    `t` binds too loosely. -/
structure RendersType (t : TypeExpr) (text : String) (a : TypeExpr) : Prop where
  union : Renders .union text a
  intersection : Renders .intersection (t.enclosed 1 text) a
  array : Renders .array (t.enclosed 2 text) a

theorem TypeExpr.enclosed_of_lt {least : Nat} (h : t.level < least) :
    t.enclosed least text = "(" ++ text ++ ")" :=
  if_pos h

theorem TypeExpr.enclosed_of_le {least : Nat} (h : least ≤ t.level) :
    t.enclosed least text = text :=
  if_neg (Nat.not_lt.2 h)

theorem rendersType_of_union (ht : t.level = 0) (h : Renders .union text a) :
    RendersType t text a := by
  have hp := renders_array_of_primary (renders_parentheses h)
  refine ⟨h, ?_, ?_⟩
  · rw [TypeExpr.enclosed_of_lt (by omega)]
    exact renders_intersection_of_array hp
  · rwa [TypeExpr.enclosed_of_lt (by omega)]

theorem rendersType_of_intersection (ht : t.level = 1) (h : Renders .intersection text a) :
    RendersType t text a := by
  have hu := renders_union_of_intersection h
  refine ⟨hu, ?_, ?_⟩
  · rwa [TypeExpr.enclosed_of_le (by omega)]
  · rw [TypeExpr.enclosed_of_lt (by omega)]
    exact renders_array_of_primary (renders_parentheses hu)

theorem rendersType_of_array (ht : t.level = 2) (h : Renders .array text a) :
    RendersType t text a := by
  have hi := renders_intersection_of_array h
  refine ⟨renders_union_of_intersection hi, ?_, ?_⟩
  · rwa [TypeExpr.enclosed_of_le (by omega)]
  · rwa [TypeExpr.enclosed_of_le (by omega)]

theorem combined_of_length {make : List TypeExpr → TypeExpr} {ts : List TypeExpr}
    (h : 2 ≤ ts.length) : combined make ts = make ts := by
  rcases ts with - | ⟨t, - | ⟨u, ts⟩⟩
  · exact absurd h (by simp)
  · exact absurd h (by simp)
  · rfl

/-- Two lists that are made from one are related if what is made from each of its
    elements is. -/
theorem forall₂_map {α β γ : Type} {R : β → γ → Prop} {f : α → β} {g : α → γ} {l : List α}
    (h : ∀ x ∈ l, R (f x) (g x)) : List.Forall₂ R (l.map f) (l.map g) := by
  rw [List.forall₂_map_left_iff, List.forall₂_map_right_iff, List.forall₂_same]
  exact h

mutual

/-- The text of a type is scanned as this type. -/
theorem TypeExpr.renders_text : {t : TypeExpr} → t.WellFormed →
    RendersType t (t.text cfg) (t.respelled cfg.spelling)
  | .hole, h => h.elim
  | .reference _, ⟨_, _, rfl, hparts⟩ =>
    rendersType_of_array rfl (renders_array_of_primary (renders_reference hparts))
  | .literal _, h =>
    rendersType_of_array rfl
      (renders_array_of_primary (renders_literal (LayoutConfig.spelling_anySpells h)))
  | .union ts, h => by
    have hts := TypeExpr.allWellFormed_iff.1 h.2
    have hne : ts ≠ [] := List.ne_nil_of_length_pos (Nat.lt_of_lt_of_le Nat.two_pos h.1)
    have hr : Renders .union _ (combined .union (ts.map (TypeExpr.respelled cfg.spelling))) :=
      renders_union (forall₂_map fun t ht => (TypeExpr.renders_text (hts t ht)).intersection)
        (List.map_eq_nil_iff.not.2 hne)
    have htype : RendersType (.union ts) _ _ := rendersType_of_union rfl hr
    rw [combined_of_length (by simpa using h.1)] at htype
    rwa [TypeExpr.text, TypeExpr.operandTexts_eq_map, TypeExpr.respelled,
      TypeExpr.respelledAll_eq_map]
  | .intersection ts, h => by
    have hts := TypeExpr.allWellFormed_iff.1 h.2
    have hne : ts ≠ [] := List.ne_nil_of_length_pos (Nat.lt_of_lt_of_le Nat.two_pos h.1)
    have hr : Renders .intersection _
        (combined .intersection (ts.map (TypeExpr.respelled cfg.spelling))) :=
      renders_intersection (forall₂_map fun t ht => (TypeExpr.renders_text (hts t ht)).array)
        (List.map_eq_nil_iff.not.2 hne)
    have htype : RendersType (.intersection ts) _ _ := rendersType_of_intersection rfl hr
    rw [combined_of_length (by simpa using h.1)] at htype
    rwa [TypeExpr.text, TypeExpr.operandTexts_eq_map, TypeExpr.respelled,
      TypeExpr.respelledAll_eq_map]
  | .array t, h => by
    have ht : RendersType t (t.text cfg) (t.respelled cfg.spelling) := TypeExpr.renders_text h
    exact rendersType_of_array rfl (renders_array ht.array)
  | .object ms, h => by
    have hms := Member.allWellFormed_iff.1 h
    refine rendersType_of_array rfl (renders_array_of_primary ?_)
    have hr : List.Forall₂ (Renders .member) (Member.inlineTexts cfg ms)
        (Member.respelledAll cfg.spelling ms) := by
      rw [Member.inlineTexts_eq_map, Member.respelledAll_eq_map]
      refine forall₂_map fun m hm => ?_
      obtain ⟨hm, hc⟩ := List.mem_filter.1 hm
      exact Member.renders_text (hms m hm) (by simpa using hc)
    rw [TypeExpr.text, TypeExpr.respelled]
    split
    · next hnil =>
      have hlen := hr.length_eq
      rw [hnil] at hlen
      rw [List.eq_nil_of_length_eq_zero hlen.symm]
      exact renders_emptyObject
    · next hne => exact renders_object hr hne

theorem Parameter.renders_text : {p : Parameter} → p.WellFormed →
    Renders .parameter (p.text cfg) (p.respelled cfg.spelling)
  | .mk _ _ _, h => renders_parameter h.1 (TypeExpr.renders_text h.2).union

theorem Member.renders_text : {m : Member} → m.WellFormed → m.isComment = false →
    Renders .member (m.text cfg) (m.respelled cfg.spelling)
  | .hole, h, _ => h.elim
  | .property _ _ _ _, h, _ =>
    renders_property (LayoutConfig.spelling_anySpells h.1) (TypeExpr.renders_text h.2).union
  | .method _ ps _ _, h, _ => by
    have hps : ∀ p ∈ ps, Renders .parameter (p.text cfg) (p.respelled cfg.spelling) := by
      intro p hp
      have hlt := List.sizeOf_lt_of_mem hp
      exact Parameter.renders_text (Parameter.allWellFormed_iff.1 h.2.1 p hp)
    rw [Member.text, Parameter.texts_eq_map, Member.respelled, Parameter.respelledAll_eq_map]
    exact renders_method (LayoutConfig.spelling_anySpells h.1) (forall₂_map hps)
      (TypeExpr.renders_text h.2.2).union
  | .call ps _, h, _ => by
    have hps : ∀ p ∈ ps, Renders .parameter (p.text cfg) (p.respelled cfg.spelling) := by
      intro p hp
      have hlt := List.sizeOf_lt_of_mem hp
      exact Parameter.renders_text (Parameter.allWellFormed_iff.1 h.1 p hp)
    rw [Member.text, Parameter.texts_eq_map, Member.respelled, Parameter.respelledAll_eq_map]
    exact renders_call (forall₂_map hps) (TypeExpr.renders_text h.2).union
  | .index (.mk _ _ _) _, h, _ => by
    obtain ⟨rfl, hp, ht⟩ := h
    exact renders_index hp.1 (TypeExpr.renders_text hp.2).union (TypeExpr.renders_text ht).union
  | .comment _, _, hc => nomatch hc

end

/-! ### Bodies and statements -/

namespace Layout

/-- Lines one below the other, each with a line feed after it. -/
def linesText (lines : List String) : String := String.join (lines.map (· ++ "\n"))

theorem linesText_cons (line : String) (lines : List String) :
    linesText (line :: lines) = line ++ "\n" ++ linesText lines := by
  rw [linesText, List.map_cons, String.join_cons, linesText]

@[simp] theorem linesText_append (lines lines' : List String) :
    linesText (lines ++ lines') = linesText lines ++ linesText lines' := by
  rw [linesText, List.map_append, String.join_append, linesText, linesText]

theorem linesText_singleton (line : String) : linesText [line] = line ++ "\n" := by
  rw [linesText_cons]
  exact String.append_empty

theorem linesText_of_ne_nil {lines : List String} (h : lines ≠ []) :
    linesText lines = "\n".intercalate lines ++ "\n" := by
  induction lines with
  | nil => exact absurd rfl h
  | cons line lines ih =>
    cases lines with
    | nil => rw [linesText_singleton, String.intercalate_singleton]
    | cons line' lines =>
      rw [linesText_cons, ih (List.cons_ne_nil _ _), String.intercalate_cons_cons]
      simp only [String.append_assoc]

theorem linesText_commentLines (indent text : String) :
    linesText (commentLines indent text) = indent ++ relaid indent text ++ "\n" := by
  rw [linesText_of_ne_nil, intercalate_commentLines]
  obtain ⟨first, others, h⟩ := exists_lines text
  simp [commentLines, h]

end Layout

theorem LayoutConfig.isWhitespace_of_mem_indent (cfg : LayoutConfig) :
    ∀ c ∈ cfg.indent.toList, c.isWhitespace := by
  intro c hc
  rw [cfg.eq_space_of_mem_indent c hc]
  rfl

/-- A member other than a comment is on one line. -/
theorem Member.lines_of_not_comment {m : Member} (h : m.isComment = false) :
    m.lines cfg = [cfg.indent ++ m.text cfg ++ ";"] := by
  cases m <;> first | rfl | cases h

/-- The lines of a member are scanned as this member, ahead of others. -/
theorem Member.scans_lines {m : Member} {ms : List Member} {ds : List Char}
    {F : List Char → Prop} (hm : m.WellFormed) (h : Scans ds F (Derives true .members · ms)) :
    Scans ((Layout.linesText (m.lines cfg)).toList ++ ds) F
      (Derives true .members · (m.canonical cfg :: ms)) := by
  have hindent := cfg.isWhitespace_of_mem_indent
  by_cases hc : m.isComment
  · obtain ⟨text, rfl⟩ : ∃ text, m = .comment text := by
      cases m <;> first | exact ⟨_, rfl⟩ | cases hc
    have hs := Scans.blanks hindent
      (scans_comment (Layout.relaid_spells cfg.eq_space_of_mem_indent hm) h)
    rw [Member.lines, Layout.linesText_commentLines, Member.canonical]
    simpa using hs
  · rw [Bool.not_eq_true] at hc
    have hr : Renders .member (m.text cfg) (m.respelled cfg.spelling) := Member.renders_text hm hc
    have hs := Scans.blanks hindent (scans_member hr h.newline)
    have hcanonical : m.canonical cfg = m.respelled cfg.spelling := by
      cases m <;> first | rfl | cases hc
    rw [Member.lines_of_not_comment hc, hcanonical, Layout.linesText_singleton]
    simpa using hs

theorem Member.scans_allLines {ms : List Member} (h : ∀ m ∈ ms, m.WellFormed) :
    Scans ((Layout.linesText (ms.flatMap (Member.lines cfg))).toList ++ ['}']) (fun _ => True)
      (Derives true .members · (ms.map (Member.canonical cfg))) := by
  induction ms with
  | nil => exact Scans.imp writes_noMember fun _ hw => hw.1
  | cons m ms ih =>
    rw [List.forall_mem_cons] at h
    rw [List.flatMap_cons, Layout.linesText_append, String.toList_append, List.append_assoc]
    exact Member.scans_lines h.1 (ih h.2)

/-- What comes after the opening brace of an interface or a class. -/
theorem Layout.exists_body {ms : List Member} (opener : String) (h : Member.AllWellFormed ms) :
    ∃ bs, linesText (bodyLines cfg opener ms) = opener ++ " \x7b" ++ bs ++ "\n" ∧
      Scans bs.toList (fun _ => True)
        (Derives true .members · (ms.map (Member.canonical cfg))) := by
  rw [Member.allWellFormed_iff] at h
  have hs : Scans ((linesText (ms.flatMap (Member.lines cfg))).toList ++ ['}']) (fun _ => True)
      (Derives true .members · (ms.map (Member.canonical cfg))) := Member.scans_allLines h
  cases ms with
  | nil =>
    refine ⟨"\x7d", ?_, hs⟩
    rw [bodyLines, linesText_singleton]
    simp [← String.toList_inj]
  | cons m ms =>
    refine ⟨"\n" ++ linesText ((m :: ms).flatMap (Member.lines cfg)) ++ "\x7d", ?_, ?_⟩
    · rw [bodyLines, linesText_append, linesText_cons, linesText_singleton]
      · simp only [String.append_assoc]
      · nofun
    · simpa using hs.newline

/-- The lines of a statement other than a comment are scanned as this statement. -/
theorem Statement.renders_text {s : Statement} (h : s.WellFormed) (hc : s.isComment = false) :
    ∃ text, Layout.linesText (s.lines cfg) = text ++ "\n" ∧
      RendersStatement text (s.canonical cfg) := by
  cases s with
  | comment => cases hc
  | typeAlias name t modifiers =>
    obtain ⟨hn, ht, hm⟩ := h
    exact ⟨_, Layout.linesText_singleton _,
      renders_typeAlias hm hn (TypeExpr.renders_text ht).union⟩
  | interfaceDecl name ms modifiers =>
    obtain ⟨hn, hms, hm⟩ := h
    obtain ⟨bs, htext, hs⟩ :=
      Layout.exists_body (Layout.modifiersText modifiers ++ "interface " ++ name) hms
    exact ⟨_, htext, renders_interface hm hn hs⟩
  | classDecl name ms modifiers =>
    obtain ⟨hn, hms, hm⟩ := h
    obtain ⟨bs, htext, hs⟩ :=
      Layout.exists_body (Layout.modifiersText modifiers ++ "class " ++ name) hms
    exact ⟨_, htext, renders_class hm hn hs⟩
  | variableDecl kind name t modifiers =>
    obtain ⟨⟨k, hk, rfl⟩, hn, ht, hm⟩ := h
    cases t with
    | none =>
      refine ⟨_, Layout.linesText_singleton _, ?_⟩
      rw [String.append_empty]
      exact renders_untyped hm hk hn
    | some t =>
      refine ⟨_, Layout.linesText_singleton _, ?_⟩
      rw [← String.append_assoc]
      exact renders_typed hm hk hn (TypeExpr.renders_text (ht t rfl)).union
  | exportDefault name => exact ⟨_, Layout.linesText_singleton _, renders_exportDefault h⟩

/-! ### Files -/

theorem Statement.canonicalAll_singleton {s : Statement} (hs : s.isComment = false) :
    Statement.canonicalAll cfg [s] = [s.canonical cfg] := by
  cases s <;> first | rfl | cases hs

theorem Statement.isAttached_eq_false {s : Statement} (hs : s.isComment = false) :
    s.isAttached = false := by
  cases s <;> first | rfl | cases hs

/-- The lines of a statement, the empty line after it unless it is attached, and the
    lines of the statements that follow. -/
theorem Statement.toList_listLines (s t : Statement) (ss : List Statement) :
    (Layout.linesText (Statement.listLines cfg (s :: t :: ss))).toList =
      (Layout.linesText (s.lines cfg)).toList ++ (if s.isAttached then [] else ['\n']) ++
        (Layout.linesText (Statement.listLines cfg (t :: ss))).toList := by
  rw [Statement.listLines, Layout.linesText_append, Layout.linesText_append, String.toList_append,
    String.toList_append]
  by_cases hs : s.isAttached
  · rw [if_pos hs, if_pos hs]
    rfl
  · rw [if_neg hs, if_neg hs]
    rfl

/-- The statements of a file are read from their lines. -/
theorem Statement.readsFile_text {ss : List Statement} (h : ∀ s ∈ ss, s.WellFormed) :
    ReadsFile 0 (Layout.linesText (Statement.listLines cfg ss)).toList
      (Statement.canonicalAll cfg ss) := by
  induction ss with
  | nil => exact ReadsFile.nil
  | cons s ss ih =>
    rw [List.forall_mem_cons] at h
    by_cases hc : s.isComment
    · obtain ⟨text, attached, rfl⟩ : ∃ text attached, s = .comment text attached := by
        cases s <;> first | exact ⟨_, _, rfl⟩ | cases hc
      have hspells : Kind.comment.Spells (Layout.relaid "" text) := Layout.relaid_spells nofun h.1
      cases ss with
      | nil =>
        -- The end of the text begins on the line after the comment.
        have hread := ReadsFile.nil.newline.comment hspells
        rw [Statement.listLines, Statement.lines, Layout.linesText_commentLines,
          Statement.canonicalAll]
        simpa using hread
      | cons t ss =>
        rw [Statement.canonicalAll_cons_cons, Statement.toList_listLines, Statement.lines,
          Layout.linesText_commentLines, Statement.isAttached, Statement.canonical]
        cases attached with
        | true => simpa using (ih h.2).newline.comment hspells
        | false => simpa using (ih h.2).newline.newline.comment hspells
    · rw [Bool.not_eq_true] at hc
      obtain ⟨text, htext, hs⟩ : ∃ text, Layout.linesText (s.lines cfg) = text ++ "\n" ∧
          RendersStatement text (s.canonical cfg) := Statement.renders_text h.1 hc
      cases ss with
      | nil =>
        have hread := ReadsFile.nil.newline.statement hs
        rw [Statement.listLines, Statement.canonicalAll_singleton hc, htext]
        simpa using hread
      | cons t ss =>
        rw [Statement.canonicalAll_cons_cons, Statement.toList_listLines,
          Statement.isAttached_eq_false hc, htext]
        simpa using (ih h.2).newline.newline.statement hs

/-- The text of a well-formed file is read as its canonical form. -/
theorem DeclFile.ofText?_text {file : DeclFile} (h : file.WellFormed) (cfg : LayoutConfig) :
    DeclFile.ofText? (file.text cfg) = .ok (file.canonical cfg) :=
  (Statement.readsFile_text h).ofText?

/-- A well-formed file can be printed, and its text is read as its canonical form. -/
theorem DeclFile.ofText?_print {file : DeclFile} (h : file.WellFormed) (cfg : LayoutConfig) :
    ∃ text, file.print cfg = .ok text ∧ DeclFile.ofText? text = .ok (file.canonical cfg) :=
  ⟨file.text cfg, DeclFile.print_eq_ok h cfg, DeclFile.ofText?_text h cfg⟩

/-- A class with a comment over two lines, and with a keyword and a literal for keys. -/
theorem DeclFile.ofText?_print_class :
    ∃ text, (DeclFile.mk [.classDecl "A" [.comment "/*\n * a */",
        .property "readonly" (.array (.union [.reference "B", .literal "'b'"])) true false]
        []]).print {} = .ok text ∧
      DeclFile.ofText? text = .ok ⟨[.classDecl "A" [.comment "/*\n   * a */",
        .property "readonly" (.array (.union [.reference "B", .literal "\"b\""])) true false]
        []]⟩ := by
  have hword : Kind.identifier.Spells "A" ∧ Kind.identifier.Spells "B" :=
    ⟨Literal.spells_of_isName rfl rfl, Literal.spells_of_isName rfl rfl⟩
  have hcomment : Lexeme.comment.Forms "/*\n * a */".toList :=
    .blockComment (by decide : ¬['*', '/'] <:+: "\n * a ".toList ++ ['*'])
  have hliteral : Kind.AnySpells [.string, .number] "'b'" :=
    ⟨_, by decide, Kind.spells_iff.2 ⟨.string, ⟨⟨_, _, rfl, rfl⟩, rfl, rfl⟩, rfl⟩⟩
  have hkey : Kind.AnySpells Kind.keys "readonly" := ⟨_, by decide, Keyword.readonly.spells⟩
  have htype : (TypeExpr.union [.reference "B", .literal "'b'"]).WellFormed :=
    ⟨by decide, ⟨"B", [], rfl, List.forall_mem_singleton.2 hword.2⟩, hliteral, trivial⟩
  have hclass : (Statement.classDecl "A" [.comment "/*\n * a */",
      .property "readonly" (.array (.union [.reference "B", .literal "'b'"])) true false]
      []).WellFormed :=
    ⟨hword.1, ⟨hcomment, ⟨hkey, htype⟩, trivial⟩, nofun⟩
  have hfile := DeclFile.ofText?_print (List.forall_mem_singleton.2 hclass) {}
  rwa [show DeclFile.canonical {} _ = _ from by with_unfolding_all rfl] at hfile

/-! ### Formatting -/

section

variable {cfg' : LayoutConfig} {source : String}

/-- Formatting a text is reading it as a file and taking the text of this file. -/
theorem format_eq_ok_iff_text : format cfg source = .ok text ↔
    ∃ file, DeclFile.ofText? source = .ok file ∧ file.text cfg = text := by
  rw [format]
  cases hs : DeclFile.ofText? source with
  | error r => simp [Except.map]
  | ok file => simp [Except.map]

/-- Formatting a text is reading it as a file and printing this file. -/
theorem format_eq_ok_iff : format cfg source = .ok text ↔
    ∃ file, DeclFile.ofText? source = .ok file ∧ file.print cfg = .ok text := by
  rw [format_eq_ok_iff_text]
  refine exists_congr fun file => and_congr_right fun hfile => ?_
  rw [DeclFile.print_eq_ok (DeclFile.wellFormed_of_ofText? hfile) cfg, Except.ok.injEq]

/-- A text that was formatted before is formatted like the text it was made from,
    whatever the two layouts are. -/
theorem format_format (h : format cfg' source = .ok text) :
    ∃ text', format cfg text = .ok text' ∧ format cfg source = .ok text' := by
  obtain ⟨file, hfile, hprint⟩ := format_eq_ok_iff.1 h
  have hwf := DeclFile.wellFormed_of_ofText? hfile
  have hread := DeclFile.ofText?_text hwf cfg'
  obtain rfl := Except.ok.inj (hprint.symm.trans (DeclFile.print_eq_ok hwf cfg'))
  refine ⟨file.text cfg, ?_, format_eq_ok_iff.2 ⟨file, hfile, DeclFile.print_eq_ok hwf cfg⟩⟩
  refine format_eq_ok_iff.2 ⟨file.canonical cfg', hread, ?_⟩
  rw [DeclFile.print_eq_ok (DeclFile.wellFormed_of_ofText? hread), DeclFile.text_canonical hwf]

/-- A comment and a literal whose quotes change twice. -/
theorem format_format_literal :
    ∃ text', format ⟨2, true⟩ "// a\ntype A = \"it's\";\n" = .ok text' ∧
      format ⟨2, true⟩ "// a \ntype A='it\\'s'" = .ok text' := by
  have hformat : format ⟨4, false⟩ "// a \ntype A='it\\'s'" =
      .ok "// a\ntype A = \"it's\";\n" := eq_ok_of_toOption (by decide +kernel)
  exact format_format hformat

end

end StyleDecl
