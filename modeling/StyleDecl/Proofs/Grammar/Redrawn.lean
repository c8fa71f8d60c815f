import StyleDecl.Proofs.Canonical
import StyleDecl.Proofs.Grammar.Moved

/-!
# Redrawing what is derived

A derivation with comments also looks at the comments between the tokens, at their texts and at
whether the next token or comment begins on the line below. So it stays a derivation of the same
file, but for the layout of its comments, if all tokens and comments are moved down by the same
number of lines and comments are exchanged for others that are laid out alike
(`DerivesFile.redrawn`). Such files have the same text (`DeclFile.text_congr`).
-/

namespace StyleDecl

/-- The token `u` is the token `t`, but `n` lines further down. If it is a comment, it only has to
    be laid out like `t`. -/
structure Token.Redrawn (n : Nat) (t u : Token) : Prop where
  kind : u.kind = t.kind
  text : t.kind ≠ .comment → u.text = t.text
  lines : Layout.commentLines "" u.text = Layout.commentLines "" t.text
  line : u.line = t.line + n
  endLine : u.endLine = t.endLine + n

/-- The item `j` is the item `i`, but `n` lines further down and with comments that are laid out
    alike. -/
structure Item.Redrawn (n : Nat) (i j : Item) : Prop where
  comments : List.Forall₂ (Token.Redrawn n) i.comments j.comments
  token : i.token.Moved n j.token

variable {n : Nat} {i j : Item} {w w' v v' e : List Item} {ts us : List Token} {t u : Token}
  {cfg : LayoutConfig}

theorem Token.Moved.redrawn (h : t.Moved n u) : t.Redrawn n u where
  kind := h.kind
  text _ := h.text
  lines := by rw [h.text]
  line := h.line
  endLine := h.endLine

theorem Token.Redrawn.moved (h : t.Redrawn n u) (ht : t.kind ≠ .comment) : t.Moved n u :=
  ⟨h.kind, h.text ht, h.line, h.endLine⟩

theorem Token.Redrawn.relaid (h : t.Redrawn n u) (indent : String) :
    Layout.relaid indent u.text = Layout.relaid indent t.text := by
  rw [Layout.relaid_eq_intercalate, h.lines, ← Layout.relaid_eq_intercalate]

namespace Item

theorem Redrawn.bare (h : Redrawn n i j) : Redrawn n i.bare j.bare := ⟨.nil, h.token⟩

theorem redrawn_group (h : List.Forall₂ (Token.Redrawn n) ts us) :
    List.Forall₂ (Redrawn n) (group ts) (group us) := by
  induction h with
  | nil => exact .nil
  | @cons t u ts us htu _ ih =>
    rw [group, group, htu.kind]
    split
    · generalize group ts = w at ih
      generalize group us = v at ih
      cases ih with
      | nil => exact .nil
      | cons hij hwv => exact .cons ⟨.cons htu hij.comments, hij.token⟩ hwv
    · next ht => exact .cons ⟨.nil, htu.moved ht⟩ ih

theorem Redrawn.relocated (h : List.Forall₂ (Redrawn n) w w') :
    Relocated (Token.Moved n) w w' :=
  h.imp fun _ _ hij => hij.token

end Item

/-! ### Canonical forms -/

/-- Of a member that is no comment, the canonical form is a matter of what is left without the
    comments in it. -/
theorem Member.canonical_congr {m m' : Member} (hm : m.isComment = false)
    (h : m'.respelled id = m.respelled id) : m'.canonical cfg = m.canonical cfg := by
  have hm' : m'.isComment = false := by
    rw [← Member.isComment_respelled (f := id), h, Member.isComment_respelled, hm]
  have hcanonical {m : Member} (hm : m.isComment = false) :
      m.canonical cfg = m.respelled cfg.spelling := by
    cases m with
    | comment => cases hm
    | _ => rfl
  rw [hcanonical hm, hcanonical hm', Member.respelled_congr _ h]

/-- A file is laid out like its statements in their canonical form. -/
theorem Statement.listLines_map_canonical {ss : List Statement} (h : ∀ s ∈ ss, s.WellFormed) :
    Statement.listLines cfg (ss.map (Statement.canonical cfg)) = Statement.listLines cfg ss := by
  induction ss with
  | nil => rfl
  | cons s ss ih =>
    rw [List.forall_mem_cons] at h
    have hs : (s.canonical cfg).lines cfg = s.lines cfg := Statement.lines_canonical h.1
    cases ss with
    | nil => exact hs
    | cons t ss =>
      have hattached : (s.canonical cfg).isAttached = s.isAttached :=
        Statement.isAttached_canonical s
      rw [List.map_cons, List.map_cons, Statement.listLines, Statement.listLines, hs, hattached,
        ← List.map_cons, ih h.2]

/-- Files with the same canonical statements have the same text. -/
theorem DeclFile.text_congr {file file' : DeclFile} (h : file.WellFormed) (h' : file'.WellFormed)
    (heq : file'.statements.map (Statement.canonical cfg) =
      file.statements.map (Statement.canonical cfg)) : file'.text cfg = file.text cfg := by
  rw [DeclFile.text, DeclFile.text, ← Statement.listLines_map_canonical h',
    ← Statement.listLines_map_canonical h, heq]

namespace Grammar

variable {c : Symbol}

/-! ### Comments -/

theorem canonical_commentStatement {c d : Token} {next next' : Token} (h : c.Redrawn n d)
    (hnext : next'.line = next.line + n) : (Reader.commentStatement d next').canonical cfg =
      (Reader.commentStatement c next).canonical cfg := by
  have hline : (next'.line = d.endLine + 1) = (next.line = c.endLine + 1) := by
    rw [hnext, h.endLine]
    exact propext (by omega)
  simp only [Reader.commentStatement, Statement.canonical, h.relaid, hline]

theorem canonical_commentStatements (h : List.Forall₂ (Token.Redrawn n) ts us)
    (ht : u.line = t.line + n) :
    (Reader.commentStatements us u).map (Statement.canonical cfg) =
      (Reader.commentStatements ts t).map (Statement.canonical cfg) := by
  induction h with
  | nil => rfl
  | @cons c d cs ds hcd hcs ih =>
    cases hcs with
    | nil => exact congrArg ([·]) (canonical_commentStatement hcd ht)
    | cons hnext _ =>
      rw [Reader.commentStatements, Reader.commentStatements, List.map_cons, List.map_cons, ih,
        canonical_commentStatement hcd hnext.line]

theorem canonical_statementNotes (h : Item.Redrawn n i j) :
    (statementNotes true j).map (Statement.canonical cfg) =
      (statementNotes true i).map (Statement.canonical cfg) :=
  canonical_commentStatements h.comments h.token.line

theorem canonical_commentMembers (h : List.Forall₂ (Token.Redrawn n) ts us) :
    (Reader.commentMembers us).map (Member.canonical cfg) =
      (Reader.commentMembers ts).map (Member.canonical cfg) := by
  induction h with
  | nil => rfl
  | cons hcd _ ih => exact congrArg₂ List.cons (congrArg Member.comment (hcd.relaid _)) ih

theorem canonical_memberNotes (h : Item.Redrawn n i j) :
    (memberNotes true j).map (Member.canonical cfg) =
      (memberNotes true i).map (Member.canonical cfg) :=
  canonical_commentMembers h.comments

theorem canonical_nextMember {m m' : Member} {ms ms' : List Member} (h : Item.Redrawn n i j)
    (hm : m.isComment = false) (hmm : m'.respelled id = m.respelled id)
    (hms : ms'.map (Member.canonical cfg) = ms.map (Member.canonical cfg)) :
    (memberNotes true j ++ m' :: ms').map (Member.canonical cfg) =
      (memberNotes true i ++ m :: ms).map (Member.canonical cfg) := by
  rw [List.map_append, List.map_append, canonical_memberNotes h, List.map_cons, List.map_cons,
    Member.canonical_congr hm hmm, hms]

/-! ### Types and members -/

/-- What is derived is derived elsewhere as well, up to comments. -/
theorem Derives.relocated_kept {R : Token → Token → Prop} (hR : Token.Relocates R) {a : c.Value}
    (h : Derives true c w a) (hw : Item.Relocated R w w') :
    ∃ a', Derives true c w' a' ∧ c.respelled id a' = c.respelled id a :=
  (h.forget.relocated hR hw).recall

/-- A type is derived elsewhere as well, in the same canonical form. -/
theorem Derives.redrawn_type {t : TypeExpr} (h : Derives true .union w t)
    (hw : List.Forall₂ (Item.Redrawn n) w w') :
    ∃ t', Derives true .union w' t' ∧ ∀ f, t'.respelled f = t.respelled f := by
  obtain ⟨t', ht', heq⟩ := h.relocated_kept (Token.relocates_moved n) (Item.Redrawn.relocated hw)
  exact ⟨t', ht', fun f => TypeExpr.respelled_congr f heq⟩

/-- The members that are derived from some items are derived wherever these are redrawn. -/
def Symbol.Redraws (n : Nat) : (c : Symbol) → List Item → c.Value → Prop
  | .members, w, ms => ∀ w', List.Forall₂ (Item.Redrawn n) w w' →
    ∃ ms' : List Member, Derives true .members w' ms' ∧
      ∀ cfg, ms'.map (Member.canonical cfg) = ms.map (Member.canonical cfg)
  | _, _, _ => True

theorem Derives.redraws {a : c.Value} (h : Derives true c w a) : c.Redraws n w a := by
  induction h with
  | @noMember i hi =>
    intro w' hw
    obtain ⟨j, _, hij, hnil, rfl⟩ := List.forall₂_cons_left_iff.1 hw
    obtain rfl := List.forall₂_nil_left_iff.1 hnil
    exact ⟨_, .noMember (hij.token.kind.trans hi), fun cfg => canonical_memberNotes hij⟩
  | @nextMember i w e v m ms hm he _ _ ih =>
    intro w' hw
    obtain ⟨_, v', hwe, hv, rfl⟩ := forall₂_append_left_iff.1 hw
    obtain ⟨_, e', hiw, he', rfl⟩ := forall₂_append_left_iff.1 hwe
    obtain ⟨j, w', hij, hw', rfl⟩ := List.forall₂_cons_left_iff.1 hiw
    -- Comments before the member are redrawn with its first item. Those within it may
    -- change, but the canonical form has none of them.
    have hbare := Item.Redrawn.relocated (.cons hij.bare hw')
    obtain ⟨m', hm', hmm⟩ := hm.relocated_kept (Token.relocates_moved n) hbare
    obtain ⟨ms', hms', hall⟩ := ih v' hv
    refine ⟨_, .nextMember hm' (he.relocated (Token.relocates_moved n) hbare
      (Item.Redrawn.relocated he') (Item.Redrawn.relocated hv)) hms', fun cfg => ?_⟩
    exact canonical_nextMember hij hm.isComment_eq_false hmm (hall cfg)
  | _ => trivial

/-! ### Statements and files -/

theorem DerivesStatement.redrawn {a : Statement} (h : DerivesStatement true v w a)
    (hw : List.Forall₂ (Item.Redrawn n) w w') (hv : List.Forall₂ (Item.Redrawn n) v v') :
    ∃ a', DerivesStatement true v' w' a' ∧ ∀ cfg, a'.canonical cfg = a.canonical cfg := by
  have hR := Token.relocates_moved n
  replace hv := Item.Redrawn.relocated hv
  cases h with simp only [forall₂_append_left_iff, List.forall₂_cons_left_iff] at hw
  | exportDefault hu hi hd hn he =>
    obtain ⟨_, _, hum, ⟨j, _, hj, ⟨d, _, hdm, ⟨m, _, hm, hem, rfl⟩, rfl⟩, rfl⟩, rfl⟩ := hw
    rw [← hm.token.text]
    exact ⟨_, .exportDefault (hu.relocated hR (Item.Redrawn.relocated hum)) (hj.token.kind.trans hi)
      (hdm.token.kind.trans hd) (hm.token.kind.trans hn)
      (he.relocated hR (.cons hm.token .nil) (Item.Redrawn.relocated hem) hv), fun _ => rfl⟩
  | typeAlias hu hi hn hq hd he =>
    obtain ⟨_, _, ⟨_, _, hum, ⟨j, _, hj, ⟨m, _, hm, ⟨q, _, hqm, hwm, rfl⟩, rfl⟩, rfl⟩, rfl⟩,
      hem, rfl⟩ := hw
    obtain ⟨t', ht', heq⟩ := hd.redrawn_type hwm
    rw [← hm.token.text]
    exact ⟨_, .typeAlias (hu.relocated hR (Item.Redrawn.relocated hum)) (hj.token.kind.trans hi)
      (hm.token.kind.trans hn) (hqm.token.kind.trans hq) ht'
      (he.relocated hR (Item.Redrawn.relocated hwm) (Item.Redrawn.relocated hem) hv),
      fun cfg => congrArg (Statement.typeAlias _ · _) (heq cfg.spelling)⟩
  | interfaceDecl hu hi hn hb hd =>
    obtain ⟨_, _, hum, ⟨j, _, hj, ⟨m, _, hm, ⟨b, _, hbm, hwm, rfl⟩, rfl⟩, rfl⟩, rfl⟩ := hw
    obtain ⟨ms', hms', heq⟩ := hd.redraws _ hwm
    rw [← hm.token.text]
    exact ⟨_, .interfaceDecl (hu.relocated hR (Item.Redrawn.relocated hum)) (hj.token.kind.trans hi)
      (hm.token.kind.trans hn) (hbm.token.kind.trans hb) hms',
      fun cfg => congrArg (Statement.interfaceDecl _ · _) (heq cfg)⟩
  | classDecl hu hi hn hb hd =>
    obtain ⟨_, _, hum, ⟨j, _, hj, ⟨m, _, hm, ⟨b, _, hbm, hwm, rfl⟩, rfl⟩, rfl⟩, rfl⟩ := hw
    obtain ⟨ms', hms', heq⟩ := hd.redraws _ hwm
    rw [← hm.token.text]
    exact ⟨_, .classDecl (hu.relocated hR (Item.Redrawn.relocated hum)) (hj.token.kind.trans hi)
      (hm.token.kind.trans hn) (hbm.token.kind.trans hb) hms',
      fun cfg => congrArg (Statement.classDecl _ · _) (heq cfg)⟩
  | untyped hu hi hn he =>
    obtain ⟨_, _, hum, ⟨j, _, hj, ⟨m, _, hm, hem, rfl⟩, rfl⟩, rfl⟩ := hw
    rw [← hj.token.text, ← hm.token.text]
    exact ⟨_, .untyped (hu.relocated hR (Item.Redrawn.relocated hum)) (by rwa [hj.token.kind])
      (hm.token.kind.trans hn)
      (he.relocated hR (.cons hm.token .nil) (Item.Redrawn.relocated hem) hv), fun _ => rfl⟩
  | typed hu hi hn hc hd he =>
    obtain ⟨_, _, ⟨_, _, hum, ⟨j, _, hj, ⟨m, _, hm, ⟨c, _, hcm, hwm, rfl⟩, rfl⟩, rfl⟩, rfl⟩,
      hem, rfl⟩ := hw
    obtain ⟨t', ht', heq⟩ := hd.redrawn_type hwm
    rw [← hj.token.text, ← hm.token.text]
    exact ⟨_, .typed (hu.relocated hR (Item.Redrawn.relocated hum)) (by rwa [hj.token.kind])
      (hm.token.kind.trans hn) (hcm.token.kind.trans hc) ht'
      (he.relocated hR (Item.Redrawn.relocated hwm) (Item.Redrawn.relocated hem) hv),
      fun cfg => congrArg (fun t => Statement.variableDecl _ _ (some t) _) (heq cfg.spelling)⟩

/-- Redrawn items derive the same file, but for the layout of its comments. -/
theorem DerivesFile.redrawn {ss : List Statement} (h : DerivesFile true w ss)
    (hw : List.Forall₂ (Item.Redrawn n) w w') :
    ∃ ss', DerivesFile true w' ss' ∧
      ∀ cfg, ss'.map (Statement.canonical cfg) = ss.map (Statement.canonical cfg) := by
  induction h generalizing w' with
  | done hi =>
    obtain ⟨j, _, hj, hnil, rfl⟩ := List.forall₂_cons_left_iff.1 hw
    obtain rfl := List.forall₂_nil_left_iff.1 hnil
    exact ⟨_, .done (hj.token.kind.trans hi), fun cfg => canonical_statementNotes hj⟩
  | empty hi _ ih =>
    obtain ⟨j, _, hj, hv, rfl⟩ := List.forall₂_cons_left_iff.1 hw
    obtain ⟨ss', hss', heq⟩ := ih hv
    refine ⟨_, .empty (hj.token.kind.trans hi) hss', fun cfg => ?_⟩
    rw [List.map_append, List.map_append, canonical_statementNotes hj, heq]
  | statement hd _ ih =>
    obtain ⟨_, _, hiw, hv, rfl⟩ := forall₂_append_left_iff.1 hw
    obtain ⟨j, _, hj, hw', rfl⟩ := List.forall₂_cons_left_iff.1 hiw
    obtain ⟨a', ha', haa⟩ := hd.redrawn (.cons hj.bare hw') hv
    obtain ⟨ss', hss', heq⟩ := ih hv
    refine ⟨_, .statement ha' hss', fun cfg => ?_⟩
    rw [List.map_append, List.map_append, canonical_statementNotes hj, List.map_cons, List.map_cons,
      haa, heq]

end Grammar

end StyleDecl
