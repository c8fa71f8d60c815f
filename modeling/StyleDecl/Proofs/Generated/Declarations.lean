import StyleDecl.Proofs.Declared
import StyleDecl.Proofs.Literal
import StyleDecl.Proofs.RoundTrip
import StyleDecl.Proofs.Timeline.Files

/-!
# Generated declarations

The declarations of a style tree are written so that they are read as just these
declarations, whatever the names of its members and its states are.

* `Declares text ss`: wherever it stands, the text is read as the statements `ss`;
* `Options.rendersLine_signatures`, `Surface.rendersLine_propertyLine`: members;
* `Part.declares_block`, `Node.declares_text`: the declarations of a tree.
-/

namespace StyleDecl

open Grammar Literal Reader

variable {o : Options} {name text : String}

/-! ### Types and members -/

theorem renders_dotted (h : DottedName name) : Renders .array name (.reference name) := by
  obtain ⟨first, others, rfl, hparts⟩ := h
  exact renders_array_of_primary (renders_reference hparts)

theorem DottedName.of_spells (h : Kind.identifier.Spells name) : DottedName name :=
  ⟨name, [], rfl, List.forall_mem_singleton.2 h⟩

theorem renders_union_dotted (h : DottedName name) : Renders .union name (.reference name) :=
  renders_union_of_intersection (renders_intersection_of_array (renders_dotted h))

/-- The line reads as the member `m` and the semicolon after it. -/
def RendersLine (line : String) (m : Member) : Prop :=
  ∃ text, line = text ++ ";" ∧ Renders .member text m

/-- A property is read with all of its types. -/
theorem Surface.rendersLine_propertyLine (ho : o.WellFormed) {types : List String}
    (h : ∀ type ∈ types, DottedName type) :
    RendersLine (Surface.propertyLine o name types) (Surface.propertyMember o name types) := by
  have hall : ∀ type ∈ types ++ [o.styleType], DottedName type := List.forall_mem_append.2
    ⟨h, List.forall_mem_singleton.2 (.of_spells ho.styleType)⟩
  have hrefs := forall₂_map (f := id) fun type ht => renders_dotted (hall type ht)
  rw [List.map_id] at hrefs
  have htype : Renders .intersection (" & ".intercalate (types ++ [o.styleType]))
      (combined .intersection ((types ++ [o.styleType]).map .reference)) :=
    renders_intersection hrefs (by simp)
  have hm : Renders .member _ (Surface.propertyMember o name types) :=
    renders_property (key_spells name) (renders_union_of_intersection htype)
  refine ⟨_, ?_, hm⟩
  simp [propertyLine, Layout.optionalMark]

/-- The parameter of a method with states: one of them, as a literal. -/
theorem renders_states {states : List String} (hne : states ≠ []) :
    Renders .union (Literal.union states)
      (combined .union ((sorted states).map fun s => .literal (quote s))) := by
  have hquotes : ∀ s ∈ sorted states, Renders .intersection (quote s) (.literal (quote s)) :=
    fun s _ => renders_intersection_of_array (renders_array_of_primary
      (renders_literal ⟨.string, by decide, quote_spells s⟩))
  have hsorted : (sorted states).map quote ≠ [] := fun h =>
    hne (List.nil_perm.1 (List.map_eq_nil_iff.1 h ▸ sorted_perm states))
  exact renders_union (forall₂_map hquotes) hsorted

theorem names_spells_of_identifier (h : Kind.identifier.Spells name) :
    Kind.AnySpells Kind.names name :=
  ⟨.identifier, by decide, h⟩

/-- With the key `k` in front of its parameter, a signature is read as the member that
    `make` makes. -/
def Signs (k : String) (make : Parameter → TypeExpr → Member) : Prop :=
  ∀ {text result : String} {p : Parameter} {t : TypeExpr}, Renders .parameter text p →
    Renders .union result t → Renders .member (k ++ "(" ++ text ++ "): " ++ result) (make p t)

theorem signs_method (name : String) :
    Signs (key name) fun parameter result => .method (key name) [parameter] result false := by
  intro text result p t hp ht
  have hm : Renders .member _ (.method (key name) [p] t false) :=
    renders_method (key_spells name) (.cons hp .nil) ht
  rwa [Layout.optionalMark, if_neg Bool.false_ne_true, String.append_empty,
    String.intercalate_singleton] at hm

theorem signs_call : Signs "" fun parameter result => .call [parameter] result := by
  intro text result p t hp ht
  have hm := renders_call (.cons hp .nil) ht
  rwa [String.intercalate_singleton] at hm

namespace Options

/-- The parameter of a toggle. -/
theorem renders_toggle :
    Renders .parameter toggleParameter (.mk "enabled" (.reference "any") true) := by
  have hname : Kind.AnySpells Kind.names "enabled" :=
    names_spells_of_identifier (spells_of_isName rfl rfl)
  have hp : Renders .parameter ("enabled" ++ Layout.optionalMark true ++ ": " ++ "any")
      (.mk "enabled" (.reference "any") true) :=
    renders_parameter hname (renders_union_dotted (.of_spells (spells_of_isName rfl rfl)))
  exact hp

/-- The parameter of a method with states. -/
theorem renders_state {t : TypeExpr} (ht : Renders .union text t) :
    Renders .parameter (stateParameter ++ ": " ++ text) (.mk stateParameter t false) := by
  have hname : Kind.AnySpells Kind.names stateParameter :=
    names_spells_of_identifier (spells_of_isName rfl rfl)
  have hp : Renders .parameter _ (.mk stateParameter t false) := renders_parameter hname ht
  rwa [Layout.optionalMark, if_neg Bool.false_ne_true, String.append_empty] at hp

/-- The signatures of a method or a call are read as its overloads. -/
theorem rendersLine_signatures (ho : o.WellFormed) {k : String}
    {make : Parameter → TypeExpr → Member} (hmake : Signs k make) (states : Option (List String)) :
    List.Forall₂ RendersLine (o.signatures k (settled states)) (o.overloads make states) := by
  have hline : ∀ {parameter : String} {p : Parameter}, Renders .parameter parameter p →
      RendersLine (o.signature k parameter) (make p o.style) := fun hp =>
    ⟨_, rfl, hmake hp (renders_union_dotted (.of_spells ho.styleType))⟩
  have hany : Renders .union fallbackType (.reference fallbackType) :=
    renders_union_dotted (.of_spells (spells_of_isName rfl rfl))
  rcases states with - | - | ⟨s, states⟩
  · exact .cons (hline renders_toggle) .nil
  · exact .cons (hline renders_toggle) .nil
  · have hstates := renders_states (List.cons_ne_nil s states)
    exact .cons (hline (renders_state hstates)) (.cons (hline (renders_state hany)) .nil)

end Options

/-! ### Texts of several statements -/

/-- Wherever it stands, the text is read as the statements `ss`. -/
def Declares (text : String) (ss : List Statement) : Prop :=
  ∀ (n : Nat) (cs : List Char) (ts : List Statement), ReadsFile n cs ts →
    ∃ m, ReadsFile m (text.toList ++ cs) (ss ++ ts)

section

variable {text' : String} {a : Statement} {ss ss' : List Statement}

theorem Declares.append (h : Declares text ss) (h' : Declares text' ss') :
    Declares (text ++ text') (ss ++ ss') := by
  intro n cs ts hr
  obtain ⟨m, hm⟩ := h' n cs ts hr
  obtain ⟨m', hm'⟩ := h m _ _ hm
  rw [String.toList_append, List.append_assoc, List.append_assoc]
  exact ⟨m', hm'⟩

theorem declares_blanks (h : ∀ c ∈ text.toList, c.isWhitespace) : Declares text [] := by
  intro n cs ts hr
  rw [List.nil_append]
  generalize text.toList = bs at h
  induction bs with
  | nil => exact ⟨n, hr⟩
  | cons c bs ih =>
    rw [List.forall_mem_cons] at h
    obtain ⟨m, hm⟩ := ih h.2
    by_cases hc : c = '\n'
    · exact ⟨m + 1, hc ▸ hm.newline⟩
    · exact ⟨m, hm.blank h.1 hc⟩

theorem declares_newline : Declares "\n" [] := fun n _ _ hr => ⟨n + 1, hr.newline⟩

theorem declares_statement (h : RendersStatement text a) : Declares text [a] :=
  fun _ _ _ hr => ⟨0, hr.statement h⟩

/-- Texts with a line feed between any two declare their statements in order. -/
theorem declares_intercalate {texts : List String} {sss : List (List Statement)}
    (h : List.Forall₂ Declares texts sss) : Declares ("\n".intercalate texts) sss.flatten := by
  induction h with
  | nil => exact declares_blanks (List.forall_mem_nil _)
  | @cons text ss texts sss htext htexts ih =>
    cases htexts with
    | nil => simpa using htext
    | @cons text' ss' texts sss htext' htexts =>
      rw [String.intercalate_cons_cons, List.flatten_cons]
      simpa using (htext.append declares_newline).append ih

end

/-! ### Classes and interfaces -/

theorem Options.isWhitespace_of_mem_indentAt (ho : o.WellFormed) (level : Int) :
    ∀ c ∈ (o.indentAt level).toList, c.isWhitespace := by
  intro c hc
  rw [Options.indentAt, Text.repeated_eq_join, String.toList_join, List.mem_flatMap] at hc
  obtain ⟨s, hs, hc⟩ := hc
  exact ho.indentText c (List.eq_of_mem_replicate hs ▸ hc)

/-- The lines of a body, each behind an indent, and the brace that closes it. -/
theorem scans_rendersLines {indent closer : String} {lines : List String} {ms : List Member}
    (hi : ∀ c ∈ indent.toList, c.isWhitespace) (hc : ∀ c ∈ closer.toList, c.isWhitespace)
    (h : List.Forall₂ RendersLine lines ms) :
    Scans ((Layout.linesText (lines.map (indent ++ ·))).toList ++ (closer.toList ++ ['}']))
      (fun _ => True) (Derives true .members · ms) := by
  induction h with
  | nil =>
    have hclose : Scans ['}'] (fun _ => True) (Derives true .members · []) :=
      Scans.imp writes_noMember fun _ hw => hw.1
    simpa [Layout.linesText] using Scans.blanks hc hclose
  | @cons line m lines ms hline _ ih =>
    obtain ⟨text, rfl, hm⟩ := hline
    rw [List.map_cons, Layout.linesText_cons]
    simpa using Scans.blanks hi (scans_member hm ih.newline)

/-- A declaration goes from the indent to the line feed after its closing brace. -/
theorem Options.declarationText_eq (o : Options) (level : Int) (opener : String)
    (lines : List String) :
    o.declarationText level opener lines = o.indentAt level ++ (opener ++ " \x7b" ++
      ("\n" ++ Layout.linesText (lines.map (o.indentAt (level + 1) ++ ·)) ++
        o.indentAt level ++ "\x7d")) ++ "\n" := by
  rw [declarationText, ← Layout.linesText, Layout.linesText_append, Layout.linesText_cons,
    Layout.linesText_singleton]
  simp only [String.append_assoc]

/-- A declaration with members between braces is read as the statement that it opens. -/
theorem Options.declares_declarationText (ho : o.WellFormed) {level : Int} {opener : String}
    {lines : List String} {ms : List Member} {a : Statement}
    (hlines : List.Forall₂ RendersLine lines ms)
    (ha : ∀ {bs : String}, Scans bs.toList (fun _ => True) (Derives true .members · ms) →
      RendersStatement (opener ++ " \x7b" ++ bs) a) :
    Declares (o.declarationText level opener lines) [a] := by
  have hindent := isWhitespace_of_mem_indentAt ho
  have hbody := scans_rendersLines (hindent (level + 1)) (hindent level) hlines
  have hstatement : RendersStatement (opener ++ " \x7b" ++ ("\n" ++
      Layout.linesText (lines.map (o.indentAt (level + 1) ++ ·)) ++
        o.indentAt level ++ "\x7d")) a := ha (by simpa using hbody.newline)
  have hopen := (declares_blanks (hindent level)).append (declares_statement hstatement)
  have hd := hopen.append declares_newline
  rw [declarationText_eq]
  simpa using hd

/-! ### Parts -/

namespace Part

/-- A part is named by an identifier, and so are the types of its properties, up to dots. -/
def WellFormed : Part → Prop
  | object s =>
    Kind.identifier.Spells s.name ∧ ∀ p ∈ s.properties.entries, ∀ type ∈ p.2, DottedName type
  | callable name _ => Kind.identifier.Spells name

/-- The statement that declares a part. -/
def statement (o : Options) : Part → Statement
  | object s => .classDecl s.name (s.members o) [Keyword.declare.text]
  | callable name states =>
    .interfaceDecl name (o.overloads (fun parameter result => .call [parameter] result) states) []

/-- The lines of the members of an object are read as its members. -/
theorem rendersLine_members (ho : o.WellFormed) {s : Surface} (h : (object s).WellFormed) :
    List.Forall₂ RendersLine (s.propertyLines o ++ s.settledLines o) (s.members o) := by
  refine List.rel_append (forall₂_map fun p hmem => ?_) ?_
  · exact Surface.rendersLine_propertyLine ho (h.2 p (s.properties.sorted_perm.mem_iff.1 hmem))
  · refine List.rel_flatMap (List.forall₂_same.2 fun _ _ => rfl) ?_
    rintro m _ rfl
    exact Options.rendersLine_signatures ho (signs_method m.1) m.2

/-- The declaration of a part is read as such. -/
theorem declares_block (ho : o.WellFormed) (level : Int) {p : Part} (h : p.WellFormed) :
    Declares (p.block o level).text [p.statement o] := by
  cases p with
  | object s =>
    exact Options.declares_declarationText ho (rendersLine_members ho h) fun hb =>
      renders_class (List.forall_mem_singleton.2 (.inr rfl)) h.1 hb
  | callable name states =>
    exact Options.declares_declarationText ho
      (Options.rendersLine_signatures ho signs_call states) fun hb =>
        renders_interface (List.forall_mem_nil _) h hb

end Part

/-! ### Trees -/

namespace Node

mutual

/-- A tree is declared part by part. -/
theorem statements_eq_map (o : Options) : (node : Node) →
    node.statements o = (Event.parts node.timeline).map (Part.statement o)
  | .object s children => by
    simp [statements, statementsAll_eq_map o children, Part.statement]
  | .callable name args => by simp [statements, Part.statement]
  | .bare _ => rfl

theorem statementsAll_eq_map (o : Options) : (nodes : List Node) →
    statementsAll o nodes = (Event.parts (timelineAll nodes)).map (Part.statement o)
  | [] => rfl
  | node :: nodes => by
    rw [statementsAll, statements_eq_map o node, statementsAll_eq_map o nodes,
      parts_timelineAll_cons, List.map_append]

end

mutual

/-- The parts of a well-formed tree are well formed. -/
theorem WellFormed.parts : {node : Node} → node.WellFormed →
    ∀ p ∈ Event.parts node.timeline, p.WellFormed
  | .object s children, ⟨hname, hp, hchildren⟩ => by
    rw [parts_timeline_object]
    exact List.forall_mem_append.2
      ⟨AllWellFormed.parts hchildren, List.forall_mem_singleton.2 ⟨hname, hp⟩⟩
  | .callable name args, hname => by
    rw [parts_timeline_callable]
    exact List.forall_mem_singleton.2 hname
  | .bare _, h => h.elim

theorem AllWellFormed.parts : {nodes : List Node} → AllWellFormed nodes →
    ∀ p ∈ Event.parts (timelineAll nodes), p.WellFormed
  | [], _ => List.forall_mem_nil _
  | node :: nodes, ⟨hnode, hnodes⟩ => by
    rw [parts_timelineAll_cons]
    exact List.forall_mem_append.2 ⟨hnode.parts, AllWellFormed.parts hnodes⟩

end

/-- Warnings about empty lists of states stop no emission, unless there are any in strict
    mode. -/
theorem stop?_unstated {node : String} {methods : List (String × Option (List String))}
    (h : o.strict = false ∨ ∀ m ∈ methods, m.2 ≠ some []) :
    ∀ e ∈ (Surface.unstated node methods).map Event.warned, e.stop? o = none := by
  refine List.forall_mem_map.2 fun w hw => ?_
  obtain ⟨m, hm, hw⟩ := List.mem_filterMap.1 hw
  obtain hs | hs := h
  · split at hw
    · cases hw
      rw [Event.stop?, hs]
      rfl
    · cases hw
  · rw [if_neg (hs m hm)] at hw
    cases hw

mutual

/-- Nothing stops the emission of a well-formed tree, but for an empty list of states in
    strict mode. -/
theorem WellFormed.go : {node : Node} → node.WellFormed → o.strict = false ∨ node.HasStates →
    ∀ e ∈ node.timeline, e.stop? o = none
  | .object s children, ⟨_, _, hchildren⟩, hstates => by
    have hsorted : o.strict = false ∨ ∀ m ∈ s.methods.sorted, m.2 ≠ some [] :=
      hstates.imp_right fun hm m hmem => hm.1 m (s.methods.sorted_perm.mem_iff.1 hmem)
    simp only [timeline, List.forall_mem_append]
    exact ⟨List.forall_mem_map.2 (s.stop?_clashes o _),
      AllWellFormed.go hchildren (hstates.imp_right And.right), stop?_unstated hsorted,
      List.forall_mem_singleton.2 rfl⟩
  | .callable name args, _, hstates => by
    rw [timeline, List.forall_mem_append]
    exact ⟨stop?_unstated (hstates.imp_right List.forall_mem_singleton.2),
      List.forall_mem_singleton.2 rfl⟩
  | .bare _, h, _ => h.elim

theorem AllWellFormed.go : {nodes : List Node} → AllWellFormed nodes →
    o.strict = false ∨ AllHaveStates nodes → ∀ e ∈ timelineAll nodes, e.stop? o = none
  | [], _, _ => List.forall_mem_nil _
  | node :: nodes, ⟨hnode, hnodes⟩, hstates => by
    rw [timelineAll, List.forall_mem_append]
    exact ⟨hnode.go (hstates.imp_right And.left),
      AllWellFormed.go hnodes (hstates.imp_right And.right)⟩

end

/-- The text of a tree is read as its declarations. -/
theorem declares_text (ho : o.WellFormed) (level : Int) {node : Node} (h : node.WellFormed)
    (hwhole : node.Whole) : Declares (node.text o level) (node.statements o) := by
  have hparts : List.Forall₂ Declares
      ((Event.parts node.timeline).map fun p => (p.block o level).text)
      ((Event.parts node.timeline).map fun p => [p.statement o]) :=
    forall₂_map fun p hmem => p.declares_block ho level (h.parts p hmem)
  have hd := declares_intercalate hparts
  rwa [← text_eq_intercalate o level hwhole, ← List.flatMap_def, ← List.map_eq_flatMap,
    ← statements_eq_map] at hd

end Node

end StyleDecl
