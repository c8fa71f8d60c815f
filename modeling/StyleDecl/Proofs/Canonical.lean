import StyleDecl.Proofs.CommentText
import StyleDecl.Proofs.Literal
import StyleDecl.Proofs.WellFormed

/-!
# Canonical declarations

What remains of a declaration when it is laid out. String literals are in their
preferred form, the comments within object types are gone, and all other comments
are laid out line by line. A comment at the end of a file is attached, for what
follows it, the end of the text, begins on the next line.

* `DeclFile.canonical cfg`: the file that its text stands for;
* `DeclFile.text_canonical`: its text is that of the file it was made from, whatever
  layout was chosen before.
-/

namespace StyleDecl

variable {cfg cfg' : LayoutConfig} {f : String → String}

/-! ### Canonical files -/

/-- A member of an interface or a class as its text stands for it. -/
def Member.canonical (cfg : LayoutConfig) : Member → Member
  | .comment text => .comment (Layout.relaid cfg.indent text)
  | m => m.respelled cfg.spelling

/-- A statement as its text stands for it. -/
def Statement.canonical (cfg : LayoutConfig) : Statement → Statement
  | .comment text attached => .comment (Layout.relaid "" text) attached
  | s => s.mapped (TypeExpr.respelled cfg.spelling) (List.map (Member.canonical cfg))

/-- A list of statements as the text of a file stands for it: a comment at the end is
    attached. -/
def Statement.canonicalAll (cfg : LayoutConfig) : List Statement → List Statement
  | [] => []
  | [.comment text _] => [.comment (Layout.relaid "" text) true]
  | s :: ss => s.canonical cfg :: Statement.canonicalAll cfg ss

/-- A file as its text stands for it. -/
def DeclFile.canonical (cfg : LayoutConfig) (file : DeclFile) : DeclFile :=
  ⟨Statement.canonicalAll cfg file.statements⟩

/-! ### Texts of lists -/

theorem TypeExpr.operandTexts_eq_map (least : Nat) (ts : List TypeExpr) :
    TypeExpr.operandTexts cfg least ts = ts.map fun t => t.enclosed least (t.text cfg) := by
  induction ts with
  | nil => rfl
  | cons t ts ih => rw [TypeExpr.operandTexts, ih, List.map_cons]

theorem Parameter.texts_eq_map (ps : List Parameter) :
    Parameter.texts cfg ps = ps.map (Parameter.text cfg) := by
  induction ps with
  | nil => rfl
  | cons p ps ih => rw [Parameter.texts, ih, List.map_cons]

theorem Member.inlineTexts_eq_map (ms : List Member) :
    Member.inlineTexts cfg ms = (ms.filter (!·.isComment)).map (Member.text cfg) := by
  induction ms with
  | nil => rfl
  | cons m ms ih =>
    cases m with
    | comment => exact ih
    | _ => rw [Member.inlineTexts, ih]; rfl; nofun

theorem Member.respelledAll_eq_map (ms : List Member) :
    Member.respelledAll f ms = (ms.filter (!·.isComment)).map (Member.respelled f) := by
  induction ms with
  | nil => rfl
  | cons m ms ih =>
    cases m with
    | comment => exact ih
    | _ => rw [Member.respelledAll, ih]; rfl; nofun

@[simp] theorem Member.isComment_respelled (m : Member) :
    (m.respelled f).isComment = m.isComment := by
  cases m <;> rfl

@[simp] theorem TypeExpr.level_respelled (t : TypeExpr) : (t.respelled f).level = t.level := by
  cases t <;> rfl

theorem TypeExpr.enclosed_respelled (t : TypeExpr) (least : Nat) (text : String) :
    (t.respelled f).enclosed least text = t.enclosed least text := by
  rw [TypeExpr.enclosed, TypeExpr.enclosed, TypeExpr.level_respelled]

/-- The operands of a union or an intersection have the same texts if each of them
    has. -/
theorem TypeExpr.operandTexts_respelled {ts : List TypeExpr} (least : Nat)
    (h : ∀ t ∈ ts, (t.respelled f).text cfg = t.text cfg) :
    TypeExpr.operandTexts cfg least (TypeExpr.respelledAll f ts) =
      TypeExpr.operandTexts cfg least ts := by
  rw [TypeExpr.operandTexts_eq_map, TypeExpr.operandTexts_eq_map, TypeExpr.respelledAll_eq_map,
    List.map_map]
  refine List.map_congr_left fun t ht => ?_
  rw [Function.comp_apply, TypeExpr.enclosed_respelled, h t ht]

theorem Parameter.texts_respelled {ps : List Parameter}
    (h : ∀ p ∈ ps, (p.respelled f).text cfg = p.text cfg) :
    Parameter.texts cfg (Parameter.respelledAll f ps) = Parameter.texts cfg ps := by
  rw [Parameter.texts_eq_map, Parameter.texts_eq_map, Parameter.respelledAll_eq_map, List.map_map]
  exact List.map_congr_left h

theorem Member.inlineTexts_respelled {ms : List Member}
    (h : ∀ m ∈ ms, m.isComment = false → (m.respelled f).text cfg = m.text cfg) :
    Member.inlineTexts cfg (Member.respelledAll f ms) = Member.inlineTexts cfg ms := by
  rw [Member.inlineTexts_eq_map, Member.inlineTexts_eq_map, Member.respelledAll_eq_map,
    List.filter_map, List.map_map]
  have hfilter : ((!·.isComment) ∘ Member.respelled f) = (!·.isComment) := by
    funext m
    simp
  rw [hfilter, List.filter_filter]
  simp only [Bool.and_self]
  refine List.map_congr_left fun m hm => ?_
  rw [List.mem_filter] at hm
  exact h m hm.1 (by simpa using hm.2)

/-! ### Layout of canonical files -/

mutual

/-- The last spelling of the literals of a type is the one that counts. -/
theorem TypeExpr.text_respelled :
    {t : TypeExpr} → t.WellFormed → (t.respelled cfg'.spelling).text cfg = t.text cfg
  | .hole, h => h.elim
  | .reference _, _ => rfl
  | .literal _, h => LayoutConfig.spelling_spelling h
  | .union ts, h => by
    have hts := TypeExpr.allWellFormed_iff.1 h.2
    rw [TypeExpr.respelled, TypeExpr.text, TypeExpr.text,
      TypeExpr.operandTexts_respelled 1 fun t ht => TypeExpr.text_respelled (hts t ht)]
  | .intersection ts, h => by
    have hts := TypeExpr.allWellFormed_iff.1 h.2
    rw [TypeExpr.respelled, TypeExpr.text, TypeExpr.text,
      TypeExpr.operandTexts_respelled 2 fun t ht => TypeExpr.text_respelled (hts t ht)]
  | .array t, h => by
    have ht : (t.respelled cfg'.spelling).text cfg = t.text cfg := TypeExpr.text_respelled h
    rw [TypeExpr.respelled, TypeExpr.text, TypeExpr.text, TypeExpr.enclosed_respelled, ht]
  | .object ms, h => by
    have hms := Member.allWellFormed_iff.1 h
    rw [TypeExpr.respelled, TypeExpr.text, TypeExpr.text,
      Member.inlineTexts_respelled fun m hm _ => Member.text_respelled (hms m hm)]

theorem Parameter.text_respelled :
    {p : Parameter} → p.WellFormed → (p.respelled cfg'.spelling).text cfg = p.text cfg
  | .mk _ t _, h => by
    rw [Parameter.respelled, Parameter.text, Parameter.text, TypeExpr.text_respelled h.2]

theorem Member.text_respelled :
    {m : Member} → m.WellFormed → (m.respelled cfg'.spelling).text cfg = m.text cfg
  | .hole, h => h.elim
  | .property _ t _ _, h => by
    rw [Member.respelled, Member.text, Member.text, LayoutConfig.spelling_spelling h.1,
      TypeExpr.text_respelled h.2]
  | .method _ ps t _, h => by
    have hps : ∀ p ∈ ps, (p.respelled cfg'.spelling).text cfg = p.text cfg := by
      intro p hp
      have hlt := List.sizeOf_lt_of_mem hp
      exact Parameter.text_respelled (Parameter.allWellFormed_iff.1 h.2.1 p hp)
    rw [Member.respelled, Member.text, Member.text, LayoutConfig.spelling_spelling h.1,
      TypeExpr.text_respelled h.2.2, Parameter.texts_respelled hps]
  | .call ps t, h => by
    have hps : ∀ p ∈ ps, (p.respelled cfg'.spelling).text cfg = p.text cfg := by
      intro p hp
      have hlt := List.sizeOf_lt_of_mem hp
      exact Parameter.text_respelled (Parameter.allWellFormed_iff.1 h.1 p hp)
    rw [Member.respelled, Member.text, Member.text, TypeExpr.text_respelled h.2,
      Parameter.texts_respelled hps]
  | .index (.mk _ k _) t, h => by
    rw [Member.respelled, Parameter.respelled, Member.text, Member.text,
      TypeExpr.text_respelled h.2.1.2, TypeExpr.text_respelled h.2.2]
  | .comment _, _ => rfl

end

theorem LayoutConfig.eq_space_of_mem_indent (cfg : LayoutConfig) :
    ∀ c ∈ cfg.indent.toList, c = ' ' := by
  intro c hc
  rw [LayoutConfig.indent, String.toList_ofList] at hc
  exact List.eq_of_mem_replicate hc

theorem Member.lines_canonical {m : Member} (h : m.WellFormed) :
    (m.canonical cfg').lines cfg = m.lines cfg := by
  cases m with
  | comment text => exact Layout.commentLines_relaid cfg'.eq_space_of_mem_indent
  | hole => exact h.elim
  | _ => exact congrArg (fun text => [cfg.indent ++ text ++ ";"]) (Member.text_respelled h)

theorem Layout.bodyLines_canonical {ms : List Member} (opener : String)
    (h : Member.AllWellFormed ms) :
    Layout.bodyLines cfg opener (ms.map (Member.canonical cfg')) =
      Layout.bodyLines cfg opener ms := by
  rw [Member.allWellFormed_iff] at h
  have hlines : (ms.map (Member.canonical cfg')).flatMap (Member.lines cfg) =
      ms.flatMap (Member.lines cfg) := by
    rw [List.flatMap_map]
    exact List.flatMap_congr fun m hm => Member.lines_canonical (h m hm)
  cases ms with
  | nil => rfl
  | cons m ms => exact congrArg (fun lines => (opener ++ " \x7b") :: lines ++ ["\x7d"]) hlines

theorem Statement.lines_canonical {s : Statement} (h : s.WellFormed) :
    (s.canonical cfg').lines cfg = s.lines cfg := by
  cases s with
  | comment text attached => exact Layout.commentLines_relaid nofun
  | typeAlias name t modifiers =>
    rw [Statement.canonical, Statement.mapped, Statement.lines, Statement.lines,
      TypeExpr.text_respelled h.2.1]
    nofun
  | interfaceDecl name ms modifiers => exact Layout.bodyLines_canonical _ h.2.1
  | classDecl name ms modifiers => exact Layout.bodyLines_canonical _ h.2.1
  | variableDecl kind name t modifiers =>
    cases t with
    | none => rfl
    | some t =>
      have ht : (t.respelled cfg'.spelling).text cfg = t.text cfg :=
        TypeExpr.text_respelled (h.2.2.1 t rfl)
      exact congrArg (fun text => [Layout.modifiersText modifiers ++ kind ++ " " ++ name ++
        (": " ++ text) ++ ";"]) ht
  | exportDefault => rfl

theorem Statement.isAttached_canonical (s : Statement) :
    (s.canonical cfg).isAttached = s.isAttached := by
  cases s <;> rfl

/-- A statement that is not the last one is brought into its canonical form by itself. -/
theorem Statement.canonicalAll_cons_cons (s t : Statement) (ss : List Statement) :
    Statement.canonicalAll cfg (s :: t :: ss) =
      s.canonical cfg :: Statement.canonicalAll cfg (t :: ss) := by
  cases s <;> rfl

theorem Statement.exists_canonicalAll (s : Statement) (ss : List Statement) :
    ∃ t ts, Statement.canonicalAll cfg (s :: ss) = t :: ts := by
  cases ss with
  | nil => cases s <;> exact ⟨_, _, rfl⟩
  | cons => exact ⟨_, _, Statement.canonicalAll_cons_cons _ _ _⟩

theorem Statement.listLines_canonicalAll {ss : List Statement} (h : ∀ s ∈ ss, s.WellFormed) :
    Statement.listLines cfg (Statement.canonicalAll cfg' ss) = Statement.listLines cfg ss := by
  induction ss with
  | nil => rfl
  | cons s ss ih =>
    rw [List.forall_mem_cons] at h
    have hs : (s.canonical cfg').lines cfg = s.lines cfg := Statement.lines_canonical h.1
    cases ss with
    | nil =>
      -- Whether the last comment is attached makes no difference.
      cases s <;> exact hs
    | cons t ss =>
      have htail := ih h.2
      obtain ⟨u, us, hu⟩ : ∃ u us, Statement.canonicalAll cfg' (t :: ss) = u :: us :=
        Statement.exists_canonicalAll t ss
      rw [hu] at htail
      rw [Statement.canonicalAll_cons_cons, hu, Statement.listLines, Statement.listLines, hs,
        Statement.isAttached_canonical, htail]

/-- The canonical form of a file is laid out like the file. -/
theorem DeclFile.text_canonical {file : DeclFile} (h : file.WellFormed) :
    (file.canonical cfg').text cfg = file.text cfg := by
  rw [DeclFile.text, DeclFile.canonical, Statement.listLines_canonicalAll h, DeclFile.text]

end StyleDecl
