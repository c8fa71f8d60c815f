import StyleDecl.Proofs.Pasted.Lines

/-!
# Declarations with names that are pasted

The tokens of a generated file are those of its declarations, each with its name and its body, if
the names of its tree are plain and the types of its properties are closed.

* `Declaration d ts`: the tokens of the declaration of a node;
* `Part.yields_block`: the tokens of a declaration;
* `Node.yields_source`: the tokens of a file.
-/

namespace StyleDecl

open Grammar Literal

variable {o : Options} {name text line : String} {ts us : List Token}

/-! ### Declarations -/

/-- The tokens of the declaration of `d`: its name is pasted, and its body closes no brace
    but its own. -/
inductive Declaration (d : Keyword × String) : List Token → Prop
  | intro {ws ns body : List Token} {i b j : Token} : Calm ws → i.declares? = some d.1 →
    Pasted d.2 ns → b.kind = .punct .openBrace → Rises 0 body → j.kind = .punct .closeBrace →
      Declaration d (ws ++ i :: (ns ++ (b :: body ++ [j])))

/-- The lines of a body, each behind an indent. -/
theorem yields_lines {indent : String} {lines : List String}
    (hi : ∀ c ∈ indent.toList, c.isWhitespace)
    (h : ∀ line ∈ lines, Yields line.toList NextLine (Rises 0)) :
    Yields (Layout.linesText (lines.map (indent ++ ·))).toList Anything (Rises 0) := by
  induction lines with
  | nil => exact .of_blanks (List.forall_mem_nil _) (Int.le_refl 0)
  | cons line lines ih =>
    rw [List.forall_mem_cons] at h
    have hfirst : Yields _ Anything (Rises 0) :=
      (h.1.blanks_before hi).blanks_after (List.forall_mem_singleton.2 rfl) fun rest _ =>
        ⟨rest, rfl⟩
    rw [List.map_cons, Layout.linesText_cons, String.toList_append, String.toList_append,
      String.toList_append]
    exact hfirst.combine (ih h.2) Rises.append fun _ _ => trivial

/-- A word for a class or an interface, with the words before it and a space after it. -/
def Opens (k : Keyword) (text : String) : Prop :=
  Yields text.toList Anything fun ts => ∃ ws i, ts = ws ++ [i] ∧ Calm ws ∧ i.declares? = some k

theorem opens_class : Opens .classWord "declare class " := by
  have hwords := Writes.keyword .declare
    (Writes.keyword .classWord (.nil (F := Anything) (P := (· = [])) rfl))
  refine (Yields.of_scans hwords).mono ?_ fun _ => id
  rintro _ ⟨_, rfl, ⟨_, _, rfl, ⟨d, rfl, hd, -⟩, _, _, rfl, ⟨i, rfl, hi, -⟩, rfl⟩, -⟩
  exact ⟨[d], i, rfl, .token (by simp [hd]), by rw [Token.declares?, hi]⟩

theorem opens_interface : Opens .interface "interface " := by
  have hwords := Writes.keyword .interface (.nil (F := Anything) (P := (· = [])) rfl)
  refine (Yields.of_scans hwords).mono ?_ fun _ => id
  rintro _ ⟨_, rfl, ⟨_, _, rfl, ⟨i, rfl, hi, -⟩, rfl⟩, -⟩
  exact ⟨[], i, rfl, .nil, by rw [Token.declares?, hi]⟩

theorem yields_punct (m : Punct) :
    Yields [m.char] Anything fun ts => ∃ t, ts = [t] ∧ t.kind = .punct m := by
  refine (Yields.of_scans (writes_punct m)).mono ?_ fun _ => id
  rintro _ ⟨_, rfl, ⟨t, rfl, ht⟩, -⟩
  exact ⟨t, rfl, ht⟩

/-- The body of a declaration, from the space before it to the brace that closes it. -/
theorem yields_body {indent closer : String} {lines : List String}
    (hi : ∀ c ∈ indent.toList, c.isWhitespace) (hc : ∀ c ∈ closer.toList, c.isWhitespace)
    (h : ∀ line ∈ lines, Yields line.toList NextLine (Rises 0)) :
    Yields (' ' :: '{' :: '\n' :: ((Layout.linesText (lines.map (indent ++ ·))).toList ++
        (closer.toList ++ ['}'])))
      Anything fun ts => ∃ b body j, ts = b :: body ++ [j] ∧ b.kind = .punct .openBrace ∧
        Rises 0 body ∧ j.kind = .punct .closeBrace := by
  have hclose := (yields_punct .closeBrace).blanks_before hc
  have hlines := (yields_lines hi h).append hclose fun _ _ => trivial
  have hbraces := (yields_punct .openBrace).append hlines.newline fun _ _ => trivial
  refine hbraces.space.mono ?_ fun _ => id
  rintro _ ⟨_, _, rfl, ⟨b, rfl, hb⟩, body, _, rfl, hrises, j, rfl, hj⟩
  exact ⟨b, body, j, rfl, hb, hrises, hj⟩

theorem Options.yields_declarationText (ho : o.WellFormed) (level : Int) {k : Keyword}
    {words : String} {lines : List String} (hwords : Opens k words) (hname : PlainText name)
    (hlines : ∀ line ∈ lines, Yields line.toList NextLine (Rises 0)) :
    Yields (o.declarationText level (words ++ name) lines).toList Anything
      (Declaration (k, name)) := by
  have hindent := isWhitespace_of_mem_indentAt ho
  have hbody := yields_body (hindent (level + 1)) (hindent level) hlines
  have hbrace : Trailing [' ', '{'] :=
    ⟨rfl, List.forall_mem_cons.2 ⟨by decide, List.forall_mem_singleton.2 (by decide)⟩⟩
  have hnamed := hname.yields.append hbody fun rest _ => ⟨_, _, rfl, hbrace⟩
  have hd := (hwords.append hnamed fun _ _ => trivial).blanks_before (hindent level)
  have htext : (o.declarationText level (words ++ name) lines).toList =
      (o.indentAt level).toList ++ (words.toList ++ (name.toList ++ (' ' :: '{' :: '\n' ::
        ((Layout.linesText (lines.map (o.indentAt (level + 1) ++ ·))).toList ++
          ((o.indentAt level).toList ++ ['}']))))) ++ ['\n'] := by
    simp [declarationText_eq]
  rw [htext]
  refine hd.newline_after.mono ?_ fun _ => id
  rintro _ ⟨_, _, rfl, ⟨ws, i, rfl, hws, hi⟩, ns, _, rfl, hns, b, body, j, rfl, hb, hrises, hj⟩
  rw [List.append_assoc]
  exact .intro hws hi hns hb hrises hj

/-- The signatures of a method or a call close all of their braces. -/
theorem Options.yields_signatures (ho : o.WellFormed) {k : String}
    {make : Parameter → TypeExpr → Member} (hmake : Signs k make) (states : Option (List String)) :
    ∀ line ∈ o.signatures k (settled states), Yields line.toList NextLine (Rises 0) := by
  intro line hline
  obtain ⟨m, -, hm⟩ := exists_of_mem_right (rendersLine_signatures ho hmake states).flip hline
  exact (RendersLine.yields hm).mono (fun _ => id) fun _ _ => trivial

namespace Part

/-- What a part declares. -/
def declared : Part → Keyword × String
  | object s => (.classWord, s.name)
  | callable name _ => (.interface, name)

/-- The name of a part is plain, and the types of each of its properties, side by side, are
    closed. -/
def Contained : Part → Prop
  | object s =>
    PlainText s.name ∧ ∀ p ∈ s.properties.entries, ClosedText (" & ".intercalate p.2)
  | callable name _ => PlainText name

theorem Contained.plainText {p : Part} (h : p.Contained) : PlainText p.declared.2 := by
  cases p with
  | object s => exact h.1
  | callable name states => exact h

/-- The tokens of a part. -/
theorem yields_block (ho : o.WellFormed) (level : Int) {p : Part} (h : p.Contained) :
    Yields (p.block o level).text.toList Anything (Declaration p.declared) := by
  cases p with
  | object s =>
    refine Options.yields_declarationText ho level opens_class h.1 ?_
    refine List.forall_mem_append.2 ⟨List.forall_mem_map.2 fun p hp => ?_, ?_⟩
    · exact Surface.yields_propertyLine ho (h.2 p (s.properties.sorted_perm.mem_iff.1 hp))
    · exact List.forall_mem_flatMap.2 fun m _ => Options.yields_signatures ho (signs_method m.1) m.2
  | callable name states =>
    exact Options.yields_declarationText ho level opens_interface h
      (Options.yields_signatures ho signs_call states)

end Part

/-- The tokens of several declarations. -/
inductive Declarations : List (Keyword × String) → List Token → Prop
  | nil : Declarations [] []
  | cons {d : Keyword × String} {ds : List (Keyword × String)} {ts us : List Token} :
    Declaration d ts → Declarations ds us → Declarations (d :: ds) (ts ++ us)

/-- Declarations with a line feed between any two. -/
theorem yields_intercalate {α : Type} {f : α → String} {g : α → Keyword × String} {as : List α}
    (h : ∀ a ∈ as, Yields (f a).toList Anything (Declaration (g a))) :
    Yields ("\n".intercalate (as.map f)).toList Anything (Declarations (as.map g)) := by
  induction as with
  | nil => exact .of_blanks (List.forall_mem_nil _) .nil
  | cons a as ih =>
    rw [List.forall_mem_cons] at h
    cases as with
    | nil =>
      refine h.1.mono (fun ts hts => ?_) fun _ => id
      rw [← List.append_nil ts]
      exact .cons hts .nil
    | cons b as =>
      rw [List.map_cons, List.map_cons, String.intercalate_cons_cons, String.toList_append,
        String.toList_append, List.append_assoc]
      exact h.1.combine (ih h.2).newline .cons fun _ _ => trivial

namespace Node

mutual

/-- The classes and interfaces that a tree stands for: those of the children of an object come
    ahead of its own. -/
def declared : Node → List (Keyword × String)
  | .object s children => declaredAll children ++ [(.classWord, s.name)]
  | .callable name _ => [(.interface, name)]
  | .bare _ => []

/-- The classes and interfaces that several trees stand for. -/
def declaredAll : List Node → List (Keyword × String)
  | [] => []
  | node :: nodes => declared node ++ declaredAll nodes

end

mutual

theorem declared_eq_map : (node : Node) →
    node.declared = (Event.parts node.timeline).map Part.declared
  | .object s children => by
    simp [declared, declaredAll_eq_map children, Part.declared]
  | .callable name args => by simp [declared, Part.declared]
  | .bare _ => rfl

theorem declaredAll_eq_map : (nodes : List Node) →
    declaredAll nodes = (Event.parts (timelineAll nodes)).map Part.declared
  | [] => rfl
  | node :: nodes => by
    rw [declaredAll, declared_eq_map node, declaredAll_eq_map nodes, parts_timelineAll_cons,
      List.map_append]

end

/-- All names in a tree are plain, and all types of properties are closed. -/
def Contained (node : Node) : Prop := ∀ p ∈ Event.parts node.timeline, p.Contained

theorem yields_text (ho : o.WellFormed) (level : Int) {node : Node} (h : node.Contained)
    (hwhole : node.Whole) :
    Yields (node.text o level).toList Anything (Declarations node.declared) := by
  rw [text_eq_intercalate o level hwhole, declared_eq_map]
  exact yields_intercalate fun p hp => p.yields_block ho level (h p hp)

end Node

/-! ### Files -/

/-- A statement without classes and interfaces. -/
theorem yields_statement {a : Statement} (h : RendersStatement text a)
    (ha : a.declared? = none) : Yields text.toList Anything (Outlines · []) := by
  refine (Yields.of_scans h.scans).mono ?_ fun _ => id
  rintro _ ⟨w, rfl, hw, -⟩
  have houtlined := (hw []).outlined
  rwa [ha] at houtlined

namespace Options

/-- The banner and the style type declare no class. -/
theorem yields_preamble (ho : o.WellFormed) :
    Yields o.preamble.toList Anything (Outlines · []) := by
  have halias := (yields_statement (renders_styleAlias ho) rfl).newline
  have hborder := border_spells o.headerTitle
  have hbanner := (((halias.comment hborder).comment (title_spells ho)).comment hborder)
  have hpreamble := hbanner.newline_after
  have hbetween : ("\n\ndeclare type ").toList = '\n' :: '\n' :: ("declare type ").toList := rfl
  have hend : (";\n").toList = (";").toList ++ ['\n'] := rfl
  have htext : o.preamble.toList = ((border o.headerTitle).toList ++ '\n' ::
      (("/*   " ++ o.headerTitle ++ "   */").toList ++ '\n' :: ((border o.headerTitle).toList ++
        '\n' :: '\n' :: ("declare type " ++ o.styleType ++ " = " ++ styleBody ++ ";").toList))) ++
          ['\n'] := by
    rw [preamble, banner_eq]
    simp [hbetween, hend]
  rw [htext]
  exact hpreamble

/-- The variable for the root of a tree, up to its type. -/
theorem yields_variable (ho : o.WellFormed) :
    Yields ("declare let " ++ o.exportName ++ ": ").toList Anything (Outlines · []) := by
  have hname := (writes_of_spells ho.exportName nofun).append (writes_punct .colon)
    fun _ _ => ends_cons rfl
  have hline : Yields _ Anything _ :=
    .of_scans (Writes.keyword .declare (Writes.keyword .letWord hname))
  have htext : ("declare let " ++ o.exportName ++ ": ").toList =
      Keyword.declare.text.toList ++ ' ' :: (Keyword.letWord.text.toList ++
        ' ' :: (o.exportName.toList ++ [Punct.colon.char])) ++ [' '] := by
    simp [Keyword.text, Punct.char]
  rw [htext]
  refine (hline.mono ?_ fun _ => id).blanks_after (List.forall_mem_singleton.2 rfl) fun _ => id
  rintro _ ⟨_, rfl, ⟨_, _, rfl, ⟨i, rfl, hi, -⟩, _, _, rfl, ⟨j, rfl, hj, -⟩, _, _, rfl,
    ⟨n, rfl, hn, -⟩, c, rfl, hc⟩, -⟩
  exact .of_calm (.cons (by simp [hi]) (.cons (by simp [hj]) (.cons (by simp [hn])
    (.token (by simp [hc])))))

/-- The root of a tree is pasted between the variable and its export. -/
theorem yields_exportText (ho : o.WellFormed) {root : String} (h : PlainText root) :
    Yields (o.exportText root).toList Anything
      (Then (Outlines · []) (Then (Pasted root) (Outlines · []))) := by
  have hexport := (yields_statement (renders_exportDefault ho.exportName) rfl).newline_after
  have hstyle := (yields_andStyle ho).mono (fun _ => Outlines.of_calm) fun _ => id
  have hend : Yields _ Anything (Outlines · []) :=
    hstyle.combine hexport.newline.newline Outlines.append fun _ _ => trivial
  have hroot := h.yields.append hend fun rest _ =>
    ⟨_, _, List.append_assoc .., trailing_andStyle ho⟩
  have hall := (yields_variable ho).append hroot fun _ _ => trivial
  have htext : (o.exportText root).toList = ("declare let " ++ o.exportName ++ ": ").toList ++
      (root.toList ++ ((" & " ++ o.styleType ++ ";").toList ++ '\n' :: '\n' ::
        (("export default " ++ o.exportName ++ ";").toList ++ ['\n']))) := by
    simp [exportText_eq]
  rw [htext]
  exact hall

end Options

/-- The tokens of the file of a tree: the root is pasted once more at its end. -/
def FileTokens (root : Node) : List Token → Prop :=
  Then (Outlines · []) (Then (Declarations root.declared)
    (Then (Outlines · []) (Then (Pasted root.name) (Outlines · []))))

theorem Node.yields_source (ho : o.WellFormed) {root : Node} (h : root.Contained)
    (hroot : PlainText root.name) (hwhole : root.Whole) :
    Yields ("\n".intercalate ((root.blocks o).map Block.text)).toList Anything
      (FileTokens root) := by
  have hend := ((yields_text ho o.indentLevel h hwhole).append
    (Options.yields_exportText ho hroot).newline fun _ _ => trivial).newline
  have hall := (Options.yields_preamble ho).append hend fun _ _ => trivial
  rw [← source_eq_intercalate hwhole, String.intercalate_cons_cons, String.intercalate_cons_cons,
    String.intercalate_singleton]
  simpa [FileTokens] using hall

end StyleDecl
