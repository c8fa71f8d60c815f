import StyleDecl.Proofs.Grammar.Comments
import StyleDecl.Proofs.Grammar.Render

/-!
# Texts of files

The rules for the texts of statements and of whole files. A comment is attached to
what comes after it if this begins on the next line, so a file is described together
with the line on which its first token stands.

* `RendersStatement text a`: the text is scanned as items that derive `a`;
* `ReadsFile n cs ss`: the characters `cs` are scanned as items that derive the
  statements `ss` of a file, and `n` lines are in front of the first of them;
* `ReadsFile.ofText?`: such a text is read as this file.
-/

namespace StyleDecl.Grammar

open Reader Layout

variable {text name : String} {t : TypeExpr}

/-! ### Statements -/

/-- The items `w` derive the statement `a` whatever comes after them, and there is no
    comment before the first of them. -/
def Stated (a : Statement) (w : List Item) : Prop :=
  (∀ v, DerivesStatement true v w a) ∧ ∃ t v, w = ⟨[], t⟩ :: v

/-- The text begins with no blank. -/
def Unindented (cs : List Char) : Prop := ∃ c rest, cs = c :: rest ∧ c.isWhitespace = false

/-- The text is scanned as items that derive the statement `a`, right from the start. -/
structure RendersStatement (text : String) (a : Statement) : Prop where
  /-- The text begins with no blank. -/
  unindented : Unindented text.toList
  /-- The items of the text derive the statement. -/
  scans : Scans text.toList (fun _ => True) (Stated a)

theorem rendersStatement_of_scans {cs : List Char} {P : List Item → Prop} {a : Statement}
    (h : Scans cs (fun _ => True) P) (hcs : text.toList = cs) (hu : Unindented cs)
    (hP : ∀ w, P w → Stated a w) : RendersStatement text a :=
  ⟨hcs ▸ hu, hcs ▸ h.imp hP⟩

/-- A statement that is written without comments. -/
theorem rendersStatement_of_writes {a : Statement}
    (h : Writes text.toList (fun _ => True) (Stated a)) (hu : Unindented text.toList) :
    RendersStatement text a :=
  ⟨hu, Scans.imp h fun _ => And.left⟩

theorem unindented_keyword (k : Keyword) (cs : List Char) : Unindented (k.text.toList ++ cs) := by
  cases k <;> exact ⟨_, _, rfl, rfl⟩

theorem opens_of_plain {w : List Item} (hw : Plain w) (hne : w ≠ []) (v : List Item) :
    ∃ t u, w ++ v = ⟨[], t⟩ :: u := by
  obtain ⟨⟨cs, t⟩, u, rfl⟩ := List.exists_cons_of_ne_nil hne
  obtain rfl : cs = [] := (plain_cons_iff.1 hw).1
  exact ⟨t, u ++ v, rfl⟩

theorem writes_modifiers {modifiers : List String}
    (h : ∀ m ∈ modifiers, m = Keyword.exportWord.text ∨ m = Keyword.declare.text) :
    Writes (modifiersText modifiers).toList (fun _ => True) (Words · modifiers) := by
  induction modifiers with
  | nil => exact .nil .nil
  | cons m modifiers ih =>
    rw [List.forall_mem_cons] at h
    have hwords := ih h.2
    rw [modifiersText, List.map_cons, String.join_cons, String.toList_append, String.toList_append,
      List.append_assoc]
    obtain rfl | rfl := h.1
    · refine (Writes.keyword .exportWord hwords).imp ?_
      rintro _ ⟨_, w, rfl, ⟨t, rfl, ht, hm⟩, hw⟩
      exact hm ▸ Words.cons (i := ⟨[], t⟩) (.inl ht) hw
    · refine (Writes.keyword .declare hwords).imp ?_
      rintro _ ⟨_, w, rfl, ⟨t, rfl, ht, hm⟩, hw⟩
      exact hm ▸ Words.cons (i := ⟨[], t⟩) (.inr ht) hw

theorem unindented_modifiers {modifiers : List String} {cs : List Char}
    (h : ∀ m ∈ modifiers, m = Keyword.exportWord.text ∨ m = Keyword.declare.text)
    (hcs : Unindented cs) : Unindented ((modifiersText modifiers).toList ++ cs) := by
  cases modifiers with
  | nil => exact hcs
  | cons m modifiers =>
    rw [modifiersText, List.map_cons, String.join_cons, String.toList_append, String.toList_append,
      List.append_assoc, List.append_assoc]
    obtain rfl | rfl := h m List.mem_cons_self <;> exact unindented_keyword _ _

section

variable {modifiers : List String} {ms : List Member}

/-- A default export is four tokens. -/
theorem writes_exportDefault (hn : Kind.identifier.Spells name) :
    Writes ("export default " ++ name ++ ";").toList (fun _ => True) fun w =>
      ∃ i d n t : Token, w = [⟨[], i⟩, ⟨[], d⟩, ⟨[], n⟩, ⟨[], t⟩] ∧
        i.kind = .keyword .exportWord ∧ d.kind = .keyword .default ∧ n.kind = .identifier ∧
        n.text = name ∧ t.kind = .punct .semicolon := by
  have hend := (writes_of_spells hn nofun).append (writes_punct .semicolon) fun _ _ => ends_cons rfl
  have hs := Writes.keyword .exportWord (Writes.keyword .default hend)
  have htext : ("export default " ++ name ++ ";").toList = Keyword.exportWord.text.toList ++
      ' ' :: (Keyword.default.text.toList ++ ' ' :: (name.toList ++ [';'])) := by
    simp [Keyword.text]
  rw [htext]
  refine hs.imp ?_
  rintro _ ⟨_, _, rfl, ⟨i, rfl, hi, -⟩, _, _, rfl, ⟨d, rfl, hd, -⟩, _, _, rfl, ⟨n, rfl, hnk, hnt⟩,
    t, rfl, ht⟩
  exact ⟨i, d, n, t, rfl, hi, hd, hnk, hnt, ht⟩

theorem renders_exportDefault (hn : Kind.identifier.Spells name) :
    RendersStatement ("export default " ++ name ++ ";") (.exportDefault name) := by
  have hu : Unindented ("export default " ++ name ++ ";").toList :=
    ⟨'e', "xport default ".toList ++ name.toList ++ [';'], by simp, rfl⟩
  refine rendersStatement_of_scans (writes_exportDefault hn) rfl hu ?_
  rintro _ ⟨⟨i, d, n, t, rfl, hi, hd, hnk, rfl, ht⟩, -⟩
  exact ⟨fun v => DerivesStatement.exportDefault .nil hi hd hnk (.mark (.inl ht)), i, _, rfl⟩

variable (hm : ∀ m ∈ modifiers, m = Keyword.exportWord.text ∨ m = Keyword.declare.text)
include hm

theorem writes_typeAlias (hn : Kind.identifier.Spells name) (ht : Renders .union text t) :
    Writes (modifiersText modifiers ++ "type " ++ name ++ " = " ++ text ++ ";").toList
      (fun _ => True) (Stated (.typeAlias name t modifiers)) := by
  have htype := ht.append (writes_punct .semicolon) fun _ _ => ends_cons rfl
  have hname := (writes_of_spells hn nofun).append (Writes.punct .equals htype.space).space
    fun _ _ => ends_cons rfl
  have hs := (writes_modifiers hm).append (Writes.keyword .type hname) fun _ _ => trivial
  have htext : (modifiersText modifiers ++ "type " ++ name ++ " = " ++ text ++ ";").toList =
      (modifiersText modifiers).toList ++ (Keyword.type.text.toList ++
        ' ' :: (name.toList ++ ' ' :: '=' :: ' ' :: (text.toList ++ [';']))) := by
    simp [Keyword.text]
  rw [htext]
  refine Scans.imp hs ?_
  rintro _ ⟨⟨u, _, rfl, hu, _, _, rfl, ⟨i, rfl, hi, -⟩, _, _, rfl, ⟨n, rfl, hnk, rfl⟩, _, _, rfl,
    ⟨q, rfl, hq⟩, w, _, rfl, hw, e, rfl, he⟩, hp⟩
  refine ⟨⟨fun v => ?_, by simpa using opens_of_plain hp (by simp) []⟩, hp⟩
  simpa using DerivesStatement.typeAlias (i := ⟨[], i⟩) (n := ⟨[], n⟩) (q := ⟨[], q⟩)
    (e := [⟨[], e⟩]) hu hi hnk hq hw (.mark (.inl he))

theorem renders_typeAlias (hn : Kind.identifier.Spells name) (ht : Renders .union text t) :
    RendersStatement (modifiersText modifiers ++ "type " ++ name ++ " = " ++ text ++ ";")
      (.typeAlias name t modifiers) := by
  have htype : "type ".toList = Keyword.type.text.toList ++ [' '] := by simp [Keyword.text]
  refine rendersStatement_of_writes (writes_typeAlias hm hn ht) ?_
  simp only [String.toList_append, htype, List.append_assoc]
  exact unindented_modifiers hm (unindented_keyword _ _)

theorem writes_untyped {k : Keyword} (hk : k ∈ [Keyword.letWord, .const, .var])
    (hn : Kind.identifier.Spells name) :
    Writes (modifiersText modifiers ++ k.text ++ " " ++ name ++ ";").toList (fun _ => True)
      (Stated (.variableDecl k.text name none modifiers)) := by
  have hname := (writes_of_spells hn nofun).append (writes_punct .semicolon)
    fun _ _ => ends_cons rfl
  have hs := (writes_modifiers hm).append (Writes.keyword k hname) fun _ _ => trivial
  have htext : (modifiersText modifiers ++ k.text ++ " " ++ name ++ ";").toList =
      (modifiersText modifiers).toList ++ (k.text.toList ++ ' ' :: (name.toList ++ [';'])) := by
    simp
  rw [htext]
  refine Scans.imp hs ?_
  rintro _ ⟨⟨u, _, rfl, hu, _, _, rfl, ⟨i, rfl, hi, hik⟩, _, _, rfl, ⟨n, rfl, hnk, rfl⟩, e, rfl,
    he⟩, hp⟩
  refine ⟨⟨fun v => ?_, by simpa using opens_of_plain hp (by simp) []⟩, hp⟩
  rw [← hik]
  exact DerivesStatement.untyped (i := ⟨[], i⟩) hu (hi ▸ List.mem_map_of_mem hk) hnk
    (.mark (.inl he))

theorem renders_untyped {k : Keyword} (hk : k ∈ [Keyword.letWord, .const, .var])
    (hn : Kind.identifier.Spells name) :
    RendersStatement (modifiersText modifiers ++ k.text ++ " " ++ name ++ ";")
      (.variableDecl k.text name none modifiers) := by
  refine rendersStatement_of_writes (writes_untyped hm hk hn) ?_
  simp only [String.toList_append, List.append_assoc]
  exact unindented_modifiers hm (unindented_keyword _ _)

theorem writes_typed {k : Keyword} (hk : k ∈ [Keyword.letWord, .const, .var])
    (hn : Kind.identifier.Spells name) (ht : Renders .union text t) :
    Writes (modifiersText modifiers ++ k.text ++ " " ++ name ++ ": " ++ text ++ ";").toList
      (fun _ => True) (Stated (.variableDecl k.text name (some t) modifiers)) := by
  have htype := ht.append (writes_punct .semicolon) fun _ _ => ends_cons rfl
  have hname := (writes_of_spells hn nofun).append (Writes.punct .colon htype.space)
    fun _ _ => ends_cons rfl
  have hs := (writes_modifiers hm).append (Writes.keyword k hname) fun _ _ => trivial
  have htext : (modifiersText modifiers ++ k.text ++ " " ++ name ++ ": " ++ text ++ ";").toList =
      (modifiersText modifiers).toList ++ (k.text.toList ++
        ' ' :: (name.toList ++ ':' :: ' ' :: (text.toList ++ [';']))) := by
    simp
  rw [htext]
  refine Scans.imp hs ?_
  rintro _ ⟨⟨u, _, rfl, hu, _, _, rfl, ⟨i, rfl, hi, hik⟩, _, _, rfl, ⟨n, rfl, hnk, rfl⟩, _, _, rfl,
    ⟨c, rfl, hc⟩, w, _, rfl, hw, e, rfl, he⟩, hp⟩
  refine ⟨⟨fun v => ?_, by simpa using opens_of_plain hp (by simp) []⟩, hp⟩
  rw [← hik]
  simpa using DerivesStatement.typed (i := ⟨[], i⟩) (n := ⟨[], n⟩) (c := ⟨[], c⟩) (e := [⟨[], e⟩])
    hu (hi ▸ List.mem_map_of_mem hk) hnk hc hw (.mark (.inl he))

theorem renders_typed {k : Keyword} (hk : k ∈ [Keyword.letWord, .const, .var])
    (hn : Kind.identifier.Spells name) (ht : Renders .union text t) :
    RendersStatement (modifiersText modifiers ++ k.text ++ " " ++ name ++ ": " ++ text ++ ";")
      (.variableDecl k.text name (some t) modifiers) := by
  refine rendersStatement_of_writes (writes_typed hm hk hn ht) ?_
  simp only [String.toList_append, List.append_assoc]
  exact unindented_modifiers hm (unindented_keyword _ _)

/-- What opens an interface or a class: the words up to the brace. -/
theorem writes_opener (k : Keyword) (hn : Kind.identifier.Spells name) :
    Writes (modifiersText modifiers ++ k.text ++ " " ++ name ++ " \x7b").toList (fun _ => True)
      fun w => ∃ u i n b, w = u ++ [i, n, b] ∧ Words u modifiers ∧ i.token.kind = .keyword k ∧
        n.token.kind = .identifier ∧ n.token.text = name ∧ b.token.kind = .punct .openBrace := by
  have hname := (writes_of_spells hn nofun).append (writes_punct .openBrace).space
    fun _ _ => ends_cons rfl
  have hs := (writes_modifiers hm).append (Writes.keyword k hname) fun _ _ => trivial
  have htext : (modifiersText modifiers ++ k.text ++ " " ++ name ++ " \x7b").toList =
      (modifiersText modifiers).toList ++
        (k.text.toList ++ ' ' :: (name.toList ++ [' ', '{'])) := by
    simp
  rw [htext]
  refine hs.imp ?_
  rintro _ ⟨u, _, rfl, hu, _, _, rfl, ⟨i, rfl, hi, -⟩, _, _, rfl, ⟨n, rfl, hnk, hnt⟩, b, rfl, hb⟩
  exact ⟨u, ⟨[], i⟩, ⟨[], n⟩, ⟨[], b⟩, rfl, hu, hi, hnk, hnt, hb⟩

theorem unindented_opener (k : Keyword) {bs : List Char} :
    Unindented ((modifiersText modifiers ++ k.text ++ " " ++ name ++ " \x7b").toList ++ bs) := by
  simp only [String.toList_append, List.append_assoc]
  exact unindented_modifiers hm (unindented_keyword _ _)

theorem renders_interface {bs : String} (hn : Kind.identifier.Spells name)
    (hb : Scans bs.toList (fun _ => True) (Derives true .members · ms)) :
    RendersStatement (modifiersText modifiers ++ "interface " ++ name ++ " \x7b" ++ bs)
      (.interfaceDecl name ms modifiers) := by
  have hs := Scans.append (writes_opener hm .interface hn) hb fun _ _ => trivial
  have htext : (modifiersText modifiers ++ "interface " ++ name ++ " \x7b" ++ bs).toList =
      (modifiersText modifiers ++ Keyword.interface.text ++ " " ++ name ++ " \x7b").toList ++
        bs.toList := by
    simp [Keyword.text]
  refine rendersStatement_of_scans hs htext (unindented_opener hm _) ?_
  rintro _ ⟨_, w, rfl, ⟨⟨u, i, n, b, rfl, hu, hi, hnk, rfl, hbk⟩, hp⟩, hw⟩
  refine ⟨fun v => ?_, opens_of_plain hp (by simp) w⟩
  simpa using DerivesStatement.interfaceDecl hu hi hnk hbk hw

theorem renders_class {bs : String} (hn : Kind.identifier.Spells name)
    (hb : Scans bs.toList (fun _ => True) (Derives true .members · ms)) :
    RendersStatement (modifiersText modifiers ++ "class " ++ name ++ " \x7b" ++ bs)
      (.classDecl name ms modifiers) := by
  have hs := Scans.append (writes_opener hm .classWord hn) hb fun _ _ => trivial
  have htext : (modifiersText modifiers ++ "class " ++ name ++ " \x7b" ++ bs).toList =
      (modifiersText modifiers ++ Keyword.classWord.text ++ " " ++ name ++ " \x7b").toList ++
        bs.toList := by
    simp [Keyword.text]
  refine rendersStatement_of_scans hs htext (unindented_opener hm _) ?_
  rintro _ ⟨_, w, rfl, ⟨⟨u, i, n, b, rfl, hu, hi, hnk, rfl, hbk⟩, hp⟩, hw⟩
  refine ⟨fun v => ?_, opens_of_plain hp (by simp) w⟩
  simpa using DerivesStatement.classDecl hu hi hnk hbk hw

end

/-! ### Files -/

/-- The characters `cs` up to the end of the text are scanned as items that derive the
    statements `ss` of a file, and `n` lines are in front of the first of them. -/
def ReadsFile (n : Nat) (cs : List Char) (ss : List Statement) : Prop :=
  ∀ p : Position, ∃ ts cur i w, Cursor.scan ⟨cs, p⟩ = ⟨ts, none, cur⟩ ∧
    Item.group (ts ++ [cur.eof]) = i :: w ∧ DerivesFile true (i :: w) ss ∧
      i.first.line = p.line + n

section

variable {n : Nat} {cs : List Char} {ss : List Statement}

theorem ReadsFile.nil : ReadsFile 0 [] [] := fun p =>
  ⟨[], ⟨[], p⟩, ⟨[], Cursor.eof ⟨[], p⟩⟩, [], Cursor.scan_nil, rfl, .done rfl, rfl⟩

theorem ReadsFile.blank {c : Char} (h : ReadsFile n cs ss) (hc : c.isWhitespace) (hn : c ≠ '\n') :
    ReadsFile n (c :: cs) ss := by
  intro p
  obtain ⟨ts, cur, i, w, hscan, hgroup, hd, hline⟩ := h (p.next c)
  refine ⟨ts, cur, i, w, (Cursor.scan_congr (Cursor.step_blank hc)).trans hscan, hgroup, hd, ?_⟩
  rw [hline, Position.next, if_neg hn]

theorem ReadsFile.newline (h : ReadsFile n cs ss) : ReadsFile (n + 1) ('\n' :: cs) ss := by
  intro p
  obtain ⟨ts, cur, i, w, hscan, hgroup, hd, hline⟩ := h (p.next '\n')
  refine ⟨ts, cur, i, w, (Cursor.scan_congr (Cursor.step_blank rfl)).trans hscan, hgroup, hd, ?_⟩
  rw [hline, Position.next, if_pos rfl]
  exact Nat.succ_add_eq_add_succ p.line n

theorem statementNotes_cons (t : Token) (i : Item) :
    statementNotes true { i with comments := t :: i.comments } =
      commentStatement t i.first :: statementNotes true i := by
  obtain ⟨cs, u⟩ := i
  cases cs <;> rfl

/-- A comment before the first token of a file belongs to the file. -/
theorem DerivesFile.comment {i : Item} {w : List Item} (h : DerivesFile true (i :: w) ss)
    (t : Token) :
    DerivesFile true ({ i with comments := t :: i.comments } :: w)
      (commentStatement t i.first :: ss) := by
  generalize hu : i :: w = u at h
  cases h with
  | done hi =>
    cases hu
    rw [← statementNotes_cons]
    exact .done hi
  | empty hi hv =>
    cases hu
    rw [← List.cons_append, ← statementNotes_cons]
    exact .empty hi hv
  | statement hd hv =>
    cases hu
    rw [← List.cons_append, ← statementNotes_cons]
    exact DerivesFile.statement (i := { i with comments := t :: i.comments }) hd hv

/-- The first token of a list is the first one of its items. -/
theorem head?_of_group {ts : List Token} {i : Item} {w : List Item} (h : Item.group ts = i :: w) :
    ts.head? = some i.first := by
  cases ts with
  | nil => cases h
  | cons t ts =>
    rw [Item.group] at h
    split at h
    · split at h <;> cases h
      rfl
    · cases h
      rfl

/-- A comment is attached if what comes next begins on the line after it. -/
theorem ReadsFile.comment (hc : Kind.comment.Spells text) (h : ReadsFile n ('\n' :: cs) ss) :
    ReadsFile 0 (text.toList ++ '\n' :: cs) (.comment text (n = 1) :: ss) := by
  intro p
  obtain ⟨t, hfind, hk, rfl, hline, hend⟩ := Cursor.finds_comment (p := p) hc
    (Reading.stops_cons_iff.2 rfl : Reading.Stops (· ≠ '\n') ('\n' :: cs))
  obtain ⟨ts, cur, i, w, hscan, hgroup, hd, hfirst⟩ := h (p.after t.text.toList)
  refine ⟨t :: ts, cur, { i with comments := t :: i.comments }, w, ?_, ?_, ?_, hline⟩
  · rw [hfind, hscan]
    rfl
  · rw [List.cons_append, Item.group, if_pos hk, hgroup]
  · have hattached : commentStatement t i.first = .comment t.text (n = 1) := by
      rw [commentStatement, hfirst, hend]
      simp
    exact hattached ▸ hd.comment t

theorem ReadsFile.statement {a : Statement} (ha : RendersStatement text a) (h : ReadsFile n cs ss) :
    ReadsFile 0 (text.toList ++ cs) (a :: ss) := by
  intro p
  obtain ⟨ts, w, hfind, hgroup, hd, t, v, rfl⟩ := ha.scans p cs trivial
  obtain ⟨us, cur, i, v', hscan, hgroup', hd', -⟩ := h (p.after text.toList)
  obtain ⟨c, rest, hcs, hc⟩ := ha.unindented
  have hscan' : Cursor.scan ⟨text.toList ++ cs, p⟩ = ⟨ts ++ us, none, cur⟩ := by
    rw [hfind, hscan]
  have hgroups : Item.group (ts ++ us ++ [cur.eof]) = ⟨[], t⟩ :: v ++ i :: v' := by
    rw [List.append_assoc, hgroup, hgroup']
  refine ⟨ts ++ us, cur, ⟨[], t⟩, v ++ i :: v', hscan', hgroups, ?_, ?_⟩
  · exact DerivesFile.statement (i := ⟨[], t⟩) (hd _) hd'
  · have hfirst : ts.head? = some t := head?_of_group (by simpa using hgroup [])
    have hmem : t ∈ (Cursor.scan ⟨c :: (rest ++ cs), p⟩).tokens.head? := by
      rw [← List.cons_append, ← hcs, hscan', List.head?_append, hfirst]
      rfl
    exact Cursor.line_of_scan hc hmem

/-- A text that is scanned as a file is read as this file. -/
theorem ReadsFile.ofText? (h : ReadsFile n text.toList ss) : DeclFile.ofText? text = .ok ⟨ss⟩ := by
  obtain ⟨ts, cur, i, w, hscan, hgroup, hd, -⟩ := h .start
  have htokens : Token.scan text = .ok (ts ++ [cur.eof]) := by
    rw [Token.scan, Cursor.start, hscan]
  rw [← hgroup] at hd
  rw [DeclFile.ofText?, htokens]
  exact hd.ofTokens?

end

end StyleDecl.Grammar
