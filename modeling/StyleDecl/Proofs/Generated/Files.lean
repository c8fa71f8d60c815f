import StyleDecl.Proofs.Generated.Declarations

/-!
# Generated files

The declarations of a tree stand between a banner with the style type and the variable for the
root, which are read as such. So generating a file succeeds, and what comes out is the file of the
tree in its canonical text (`generate_result`).

* `Options.readsFile_banner`: the banner;
* `Node.ofText?_source`: the file as it comes;
* `generate_result`: the file as it is formatted.
-/

namespace StyleDecl

open Grammar Literal Reader

variable {o : Options} {name text : String}

/-! ### The banner -/

/-- A block comment goes on over a text that does not hold what closes it. -/
theorem Reading.closes_append_iff {u v : List Char} (hu : ¬['*', '/'] <:+: u)
    (hv : v.head? ≠ some '/') : Reading.Closes (u ++ v) ↔ Reading.Closes v := by
  induction u with
  | nil => rfl
  | cons c u ih =>
    have hend : ¬(c = '*' ∧ (u ++ v).head? = some '/') := by
      rintro ⟨rfl, h⟩
      cases u with
      | nil => exact hv h
      | cons d u =>
        obtain rfl : d = '/' := Option.some_inj.1 h
        exact hu ⟨[], u, rfl⟩
    rw [List.cons_append, closes_cons_iff hend]
    exact ih fun h => hu (h.trans (List.suffix_cons c u).isInfix)

/-- A line of stars between slashes is a comment, if there are enough of them. -/
theorem Reading.closes_stars (n : Nat) : Reading.Closes (List.replicate (n + 1) '*' ++ ['/']) := by
  induction n with
  | zero => exact Reading.blockTail_end
  | succ n ih =>
    rw [List.replicate_succ, List.cons_append, closes_cons_iff (by simp [List.replicate_succ])]
    exact ih

theorem Options.border_spells (title : String) : Kind.comment.Spells (Options.border title) := by
  have htext : (Options.border title).toList =
      '/' :: '*' :: (List.replicate (title.length + 6 + 1) '*' ++ ['/']) := by
    simp [border, List.replicate_succ]
  rw [Kind.comment_spells_iff, htext]
  exact Lexeme.spells_blockComment (Reading.closes_stars _)

theorem Options.title_spells (ho : o.WellFormed) :
    Kind.comment.Spells ("/*   " ++ o.headerTitle ++ "   */") := by
  have htext : ("/*   " ++ o.headerTitle ++ "   */").toList =
      '/' :: '*' :: ([' ', ' ', ' '] ++ (o.headerTitle.toList ++ [' ', ' ', ' ', '*', '/'])) := by
    simp
  have hcloses : Reading.Closes (o.headerTitle.toList ++ [' ', ' ', ' ', '*', '/']) :=
    (Reading.closes_append_iff ho.headerTitle (by decide)).2 rfl
  rw [Kind.comment_spells_iff, htext]
  exact Lexeme.spells_blockComment ((Reading.keeps_append (by simp)).closes hcloses)

theorem banner_eq (title : String) :
    banner title = Options.border title ++ "\n" ++ ("/*   " ++ title ++ "   */") ++ "\n" ++
      Options.border title := by
  rw [banner, String.intercalate_cons_cons, String.intercalate_cons_cons,
    String.intercalate_singleton, ← Options.border]
  simp only [String.append_assoc]

/-- The banner is read as three comments, the last of them apart from what follows. -/
theorem Options.readsFile_banner (ho : o.WellFormed) {cs : List Char} {ts : List Statement}
    (h : ReadsFile 0 cs ts) :
    ReadsFile 0 ((banner o.headerTitle).toList ++ '\n' :: '\n' :: cs) (o.header ++ ts) := by
  have hborder := h.newline.newline.comment (Options.border_spells o.headerTitle)
  have htitle := hborder.newline.comment (Options.title_spells ho)
  have hread := htitle.newline.comment (Options.border_spells o.headerTitle)
  rw [banner_eq]
  simpa [Options.header] using hread

/-! ### Files -/

theorem renders_styleBody : Renders .union styleBody
    (.intersection [.object [.index (.mk "str" (.reference "string") false) (.reference "boolean")],
      .reference "symbol"]) := by
  have hname : Kind.AnySpells Kind.names "str" :=
    names_spells_of_identifier (spells_of_isName rfl rfl)
  have hkey : Renders .union "string" (.reference "string") :=
    renders_union_dotted (.of_spells (spells_of_isName rfl rfl))
  have hflag : Renders .union "boolean" (.reference "boolean") :=
    renders_union_dotted (.of_spells (spells_of_isName rfl rfl))
  have hindex : Renders .member _
      (.index (.mk "str" (.reference "string") false) (.reference "boolean")) :=
    renders_index hname hkey hflag
  have hobject := renders_array_of_primary
    (renders_object (.cons hindex .nil) (List.cons_ne_nil _ _))
  have hsymbol : Renders .array "symbol" (.reference "symbol") :=
    renders_dotted (.of_spells (spells_of_isName rfl rfl))
  have htext : styleBody = " & ".intercalate
      ["\x7b " ++ "; ".intercalate ["[" ++ "str" ++ ": " ++ "string" ++ "]: " ++ "boolean"] ++
        " \x7d", "symbol"] := by decide
  rw [htext]
  exact renders_union_of_intersection
    (renders_intersection (.cons hobject (.cons hsymbol .nil)) (List.cons_ne_nil _ _))

/-- The words before the declarations of a file. -/
theorem modifiers_declare : Modifiers [Keyword.declare.text] :=
  List.forall_mem_singleton.2 (.inr rfl)

theorem Options.renders_styleAlias (ho : o.WellFormed) :
    RendersStatement ("declare type " ++ o.styleType ++ " = " ++ styleBody ++ ";")
      o.styleAlias := by
  have hwords : Layout.modifiersText [Keyword.declare.text] ++ "type " = "declare type " := by
    decide
  have halias := renders_typeAlias modifiers_declare ho.styleType renders_styleBody
  rwa [hwords] at halias

theorem Options.exportText_eq (o : Options) (root : String) :
    o.exportText root = "declare let " ++ o.exportName ++ ": " ++
      " & ".intercalate [root, o.styleType] ++ ";" ++ "\n" ++ "\n" ++
        ("export default " ++ o.exportName ++ ";" ++ "\n") := by
  have hbetween : (";\n\nexport default ").toList =
      (";" ++ "\n" ++ "\n" ++ "export default ").toList := rfl
  have hend : (";\n").toList = (";" ++ "\n").toList := rfl
  apply String.toList_injective
  unfold exportText
  simp only [String.toList_append, hbetween, hend, String.intercalate_cons_cons,
    String.intercalate_singleton, List.append_assoc]

/-- The variable for the root of a tree and its export are read as such. -/
theorem Options.declares_exportText (ho : o.WellFormed) {root : String}
    (hroot : Kind.identifier.Spells root) : Declares (o.exportText root) (o.exported root) := by
  have hwords : Layout.modifiersText [Keyword.declare.text] ++ Keyword.letWord.text ++ " " =
      "declare let " := by decide
  have htype : Renders .intersection (" & ".intercalate [root, o.styleType])
      (.intersection [.reference root, o.style]) :=
    renders_intersection (.cons (renders_dotted (.of_spells hroot))
      (.cons (renders_dotted (.of_spells ho.styleType)) .nil)) (List.cons_ne_nil _ _)
  have hvariable := renders_typed modifiers_declare (k := .letWord) (by decide) ho.exportName
    (renders_union_of_intersection htype)
  rw [hwords] at hvariable
  have hexport := renders_exportDefault ho.exportName
  have hlet := ((declares_statement hvariable).append declares_newline).append declares_newline
  have hd := hlet.append ((declares_statement hexport).append declares_newline)
  rw [exportText_eq]
  exact hd

/-- The file of a tree, as it comes, is read as the file of its declarations. -/
theorem Node.ofText?_source (ho : o.WellFormed) {root : Node} (hroot : root.WellFormed)
    (hname : Kind.identifier.Spells root.name) (hwhole : root.Whole) :
    DeclFile.ofText? ("\n".intercalate ((root.blocks o).map Block.text)) = .ok (root.file o) := by
  have hbody := root.declares_text ho o.indentLevel hroot hwhole
  -- From the end of the file to its beginning, since what comes next decides where a declaration
  -- ends and what a comment is attached to.
  obtain ⟨n, hexport⟩ := Options.declares_exportText ho hname 0 [] [] ReadsFile.nil
  obtain ⟨m, hfile⟩ := hbody _ _ _ hexport.newline
  have halias := hfile.newline.newline.statement (Options.renders_styleAlias ho)
  have hread := Options.readsFile_banner ho halias
  refine ReadsFile.ofText? (n := 0) ?_
  rw [← source_eq_intercalate hwhole, Options.preamble, String.intercalate_cons_cons,
    String.intercalate_cons_cons, String.intercalate_singleton]
  simpa using hread

/-- Generating the file of a tree succeeds, and its text is the canonical text of just the
    declarations of the tree. -/
theorem generate_result {σ ε : Type} (ho : o.WellFormed) {s : Surface} {children : List Node}
    (hroot : (Node.object s children).WellFormed)
    (hstates : o.strict = false ∨ (Node.object s children).HasStates) (cfg : LayoutConfig)
    (state : σ) :
    ∃ text, ((Node.object s children).file o).print cfg = .ok text ∧
      (generate o (Formatter.builtIn cfg : Formatter σ ε) (.object s children) state).result =
        .ok text := by
  have hgo : ∀ e ∈ (Node.object s children).rootTimeline, e.stop? o = none := hroot.go hstates
  have hread := Node.ofText?_source ho hroot hroot.1 (Node.whole_of_root_go hgo)
  have hprint := DeclFile.print_eq_ok (DeclFile.wellFormed_of_ofText? hread) cfg
  have hformat := format_eq_ok_iff.2 ⟨_, hread, hprint⟩
  refine ⟨_, hprint, ?_⟩
  rw [generate, Node.rawFile_of_go hgo]
  simp only [Formatter.builtIn, hformat]
  rfl

/-- A class with a keyword and a literal for keys, and a toggle. Neither the keys nor the states are
    entered in the order in which they are declared. -/
theorem generate_result_class :
    (generate { headerTitle := "T" } (Formatter.builtIn {} : Formatter Unit Unit)
      (.object ⟨"A", ⟨[("readonly", ["b.C"]), ("a", ["Z", "Y"])], by decide⟩,
        ⟨[("on", none), ("it's", some ["b", "*/"])], by decide⟩⟩ [.callable "B" []]) ()).result =
      .ok (Layout.linesText ["/*********/", "/*   T   */", "/*********/", "",
        "declare type Style = \x7b [str: string]: boolean \x7d & symbol;", "",
        "interface B \x7b", "  (enabled?: any): Style;", "\x7d", "",
        "declare class A \x7b", "  readonly a: Z & Y & Style;",
        "  readonly readonly: b.C & Style;",
        "  \"it's\"(substate: \"*/\" | \"b\"): Style;",
        "  \"it's\"(substate: string): Style;", "  on(enabled?: any): Style;", "\x7d", "",
        "declare let out: A & Style;", "", "export default out;"]) := by
  have hname : ∀ {name : String}, isName name → Keyword.ofText? name = none →
      Kind.identifier.Spells name := spells_of_isName
  have ho : Options.WellFormed { headerTitle := "T" } :=
    ⟨hname rfl rfl, hname rfl rfl, by decide, by simp⟩
  have hmember : DottedName "b.C" :=
    ⟨"b", ["C"], rfl,
      List.forall_mem_cons.2 ⟨hname rfl rfl, List.forall_mem_singleton.2 (hname rfl rfl)⟩⟩
  have htypes : ∀ type ∈ ["Z", "Y"], DottedName type :=
    List.forall_mem_cons.2 ⟨.of_spells (hname rfl rfl),
      List.forall_mem_singleton.2 (.of_spells (hname rfl rfl))⟩
  have hroot : (Node.object ⟨"A", ⟨[("readonly", ["b.C"]), ("a", ["Z", "Y"])], by decide⟩,
      ⟨[("on", none), ("it's", some ["b", "*/"])], by decide⟩⟩ [.callable "B" []]).WellFormed :=
    ⟨hname rfl rfl, List.forall_mem_cons.2
      ⟨List.forall_mem_singleton.2 hmember, List.forall_mem_singleton.2 htypes⟩,
      hname rfl rfl, trivial⟩
  have hstates : sorted ["b", "*/"] = ["*/", "b"] := by simp [sorted, List.mergeSort]
  have hproperties (h) : (⟨[("readonly", ["b.C"]), ("a", ["Z", "Y"])], h⟩ :
      Table (List String)).sorted = [("a", ["Z", "Y"]), ("readonly", ["b.C"])] := by
    simp [Table.sorted, List.mergeSort]
  have hmethods (h) : (⟨[("on", none), ("it's", some ["b", "*/"])], h⟩ :
      Table (Option (List String))).sorted = [("it's", some ["b", "*/"]), ("on", none)] := by
    simp [Table.sorted, List.mergeSort]
  obtain ⟨text, hprint, hresult⟩ := generate_result ho hroot (.inl rfl) {} ()
  rw [hresult]
  have htext : (DeclFile.print {} (Node.file { headerTitle := "T" } _)).toOption = some text :=
    congrArg Except.toOption hprint
  simp only [Node.file, Node.statements, Node.statementsAll, Surface.members, hproperties,
    hmethods, List.map_cons, List.map_nil, List.flatMap_cons, List.flatMap_nil,
    Options.overloads, hstates] at htext
  refine congrArg Except.ok (Option.some.inj (htext.symm.trans ?_))
  decide +kernel

end StyleDecl
