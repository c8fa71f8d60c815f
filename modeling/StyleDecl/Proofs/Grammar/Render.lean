import StyleDecl.Decl.Layout
import StyleDecl.Proofs.Grammar.Sound.Statements
import StyleDecl.Proofs.Writes

/-!
# Texts that derive

How the text of a type or a member is put together from the texts of its parts,
production by production. The rules are about the text alone, whoever wrote it, so
they serve all texts that are laid out in this way.

* `Renders c text a`: the text is scanned as items that derive `a` from `c`;
* `renders_union`, `renders_intersection`, `renders_array`: types;
* `renders_property`, `renders_method`, `renders_call`, `renders_index`: members.
-/

namespace StyleDecl.Grammar

open Reader Layout

variable {c : Symbol} {text name key raw : String} {t u : TypeExpr} {texts names : List String}

/-- The text is scanned as items that derive `a`. -/
def Renders (c : Symbol) (text : String) (a : c.Value) : Prop :=
  Writes text.toList Ends (Derives true c · a)

theorem renders_of_writes {cs : List Char} {F : List Char → Prop} {P : List Item → Prop}
    {a : c.Value} (h : Writes cs F P) (hcs : text.toList = cs)
    (hP : ∀ w, P w → Derives true c w a) (hF : ∀ rest, Ends rest → F rest) : Renders c text a := by
  unfold Renders
  rw [hcs]
  exact h.mono hP hF

/-! ### Named types and literals -/

theorem writes_nameParts (h : ∀ n ∈ names, Kind.identifier.Spells n) :
    Writes (names.flatMap fun n => ".".toList ++ n.toList) (Reading.Stops Reading.isWordPart)
      (NameParts · names) := by
  induction names with
  | nil => exact .nil .nil
  | cons n names ih =>
    rw [List.forall_mem_cons] at h
    have hn := (writes_identifier h.1).append (ih h.2) fun rest hr => by
      cases names with
      | nil => exact hr
      | cons => exact Reading.stops_cons_iff.2 (by decide)
    rw [List.flatMap_cons, List.append_assoc]
    refine (Writes.punct .dot hn).imp ?_
    rintro _ ⟨_, _, rfl, ⟨d, rfl, hd⟩, _, w, rfl, ⟨i, rfl, hi, rfl⟩, hw⟩
    exact .cons hd hi hw

theorem renders_reference (h : ∀ n ∈ name :: names, Kind.identifier.Spells n) :
    Renders .primary (".".intercalate (name :: names))
      (.reference (".".intercalate (name :: names))) := by
  rw [List.forall_mem_cons] at h
  have hn := (writes_identifier h.1).append (writes_nameParts h.2) fun rest hr => by
    cases names with
    | nil => exact hr
    | cons => exact Reading.stops_cons_iff.2 (by decide)
  refine renders_of_writes hn (Text.toList_intercalate_cons "." name names) ?_ fun _ he => he.1
  rintro _ ⟨_, w, rfl, ⟨i, rfl, hi, rfl⟩, hw⟩
  exact .reference hi hw

theorem renders_literal (h : Kind.AnySpells [.string, .number] raw) :
    Renders .primary raw (.literal raw) := by
  refine (writes_of_anySpells h (by decide)).imp ?_
  rintro _ ⟨i, rfl, hi, rfl⟩
  exact .literal (by simpa using hi)

/-! ### Operators -/

theorem renders_array_of_primary (h : Renders .primary text t) : Renders .array text t := by
  refine h.imp fun w hw => ?_
  simpa using Derives.array hw .nil

theorem renders_intersection_of_array (h : Renders .array text t) :
    Renders .intersection text t := by
  refine h.imp fun w hw => ?_
  simpa using Derives.intersection .absent hw .noFactor .single

theorem renders_union_of_intersection (h : Renders .intersection text t) :
    Renders .union text t := by
  refine h.imp fun w hw => ?_
  simpa using Derives.union .absent hw .noAlternative .single

theorem renders_parentheses (h : Renders .union text t) :
    Renders .primary ("(" ++ text ++ ")") t := by
  have hp := Writes.punct .openParen (h.append (writes_punct .closeParen) fun _ _ => ends_cons rfl)
  refine renders_of_writes hp (by simp [Punct.char]) ?_ fun _ _ => trivial
  rintro _ ⟨_, _, rfl, ⟨i, rfl, hi⟩, w, _, rfl, hw, j, rfl, hj⟩
  exact .parentheses hi hw hj

theorem Brackets.append {v w : List Item} {m n : Nat} (hv : Brackets v m) (hw : Brackets w n) :
    Brackets (v ++ w) (m + n) := by
  induction hv with
  | nil => rwa [Nat.zero_add]
  | cons hb hc _ ih =>
    rw [Nat.add_right_comm]
    exact .cons hb hc ih

theorem renders_array (h : Renders .array text t) : Renders .array (text ++ "[]") (.array t) := by
  have hp := h.append (Writes.punct .openBracket (writes_punct .closeBracket))
    fun _ _ => ends_cons rfl
  refine renders_of_writes hp (by simp [Punct.char]) ?_ fun _ _ => trivial
  rintro _ ⟨_, _, rfl, hw, _, _, rfl, ⟨b, rfl, hb⟩, c, rfl, hc⟩
  cases hw with
  | @array w v t n hw hv =>
    rw [List.append_assoc, ← Function.iterate_succ_apply' TypeExpr.array n t]
    exact .array hw (hv.append (.cons hb hc .nil))

theorem writes_alternatives {ts : List TypeExpr}
    (h : List.Forall₂ (Renders .intersection) texts ts) :
    Writes (texts.flatMap fun s => " | ".toList ++ s.toList) Ends
      (Derives true .alternatives · ts) := by
  induction h with
  | nil => exact .nil .noAlternative
  | @cons text t texts ts ht hts ih =>
    have hw := ht.append ih fun rest hr => by
      cases hts with
      | nil => exact hr
      | cons => exact ends_cons rfl
    have hp := (Writes.punct .pipe hw.space).space
    rw [List.flatMap_cons, List.append_assoc]
    refine hp.imp ?_
    rintro _ ⟨_, _, rfl, ⟨i, rfl, hi⟩, w, v, rfl, hw, hv⟩
    exact Derives.alternative (w := w) (v := v) hi hw hv

theorem writes_factors {ts : List TypeExpr} (h : List.Forall₂ (Renders .array) texts ts) :
    Writes (texts.flatMap fun s => " & ".toList ++ s.toList) Ends (Derives true .factors · ts) := by
  induction h with
  | nil => exact .nil .noFactor
  | @cons text t texts ts ht hts ih =>
    have hw := ht.append ih fun rest hr => by
      cases hts with
      | nil => exact hr
      | cons => exact ends_cons rfl
    have hp := (Writes.punct .ampersand hw.space).space
    rw [List.flatMap_cons, List.append_assoc]
    refine hp.imp ?_
    rintro _ ⟨_, _, rfl, ⟨i, rfl, hi⟩, w, v, rfl, hw, hv⟩
    exact Derives.factor (w := w) (v := v) hi hw hv

/-- A union of one type is this type. -/
theorem renders_union {ts : List TypeExpr} (h : List.Forall₂ (Renders .intersection) texts ts)
    (hne : texts ≠ []) : Renders .union (" | ".intercalate texts) (combined .union ts) := by
  cases h with
  | nil => exact absurd rfl hne
  | @cons text t texts ts ht hts =>
    have hw := ht.append (writes_alternatives hts) fun rest hr => by
      cases hts with
      | nil => exact hr
      | cons => exact ends_cons rfl
    refine renders_of_writes hw (Text.toList_intercalate_cons " | " text texts) ?_ fun _ => id
    rintro _ ⟨w, v, rfl, hw, hv⟩
    exact .union .absent hw hv joined_combined

/-- An intersection of one type is this type. -/
theorem renders_intersection {ts : List TypeExpr} (h : List.Forall₂ (Renders .array) texts ts)
    (hne : texts ≠ []) :
    Renders .intersection (" & ".intercalate texts) (combined .intersection ts) := by
  cases h with
  | nil => exact absurd rfl hne
  | @cons text t texts ts ht hts =>
    have hw := ht.append (writes_factors hts) fun rest hr => by
      cases hts with
      | nil => exact hr
      | cons => exact ends_cons rfl
    refine renders_of_writes hw (Text.toList_intercalate_cons " & " text texts) ?_ fun _ => id
    rintro _ ⟨w, v, rfl, hw, hv⟩
    exact .intersection .absent hw hv joined_combined

/-! ### Parameters and members -/

theorem writes_optional (optional : Bool) :
    Writes (optionalMark optional).toList (fun _ => True)
      (Maybe (.punct .question) · optional) := by
  cases optional with
  | false => exact .nil .absent
  | true =>
    refine (writes_punct .question).imp ?_
    rintro _ ⟨i, rfl, hi⟩
    exact .present hi

/-- A question mark or a colon ends a key. -/
theorem ends_optional (optional : Bool) {c : Char} {cs rest : List Char}
    (hc : Ends (c :: (cs ++ rest))) :
    Ends ((optionalMark optional).toList ++ c :: cs ++ rest) := by
  cases optional with
  | false => exact hc
  | true => exact ends_cons rfl

theorem renders_parameter {optional : Bool} (hn : Kind.AnySpells Kind.names name)
    (ht : Renders .union text t) :
    Renders .parameter (name ++ optionalMark optional ++ ": " ++ text) (.mk name t optional) := by
  have htype := (writes_optional optional).append (Writes.punct .colon ht.space) fun _ _ => trivial
  have hp := (writes_of_anySpells hn (by decide)).append htype
    fun _ _ => ends_optional optional (ends_cons rfl)
  refine renders_of_writes hp (by simp [Punct.char]) ?_ fun _ => id
  rintro _ ⟨_, _, rfl, ⟨i, rfl, hi, rfl⟩, q, _, rfl, hq, _, w, rfl, ⟨c, rfl, hc⟩, hw⟩
  exact Derives.parameter (q := q) (w := w) hi hq hc hw

/-- The parameters of a signature and the parenthesis that closes them. -/
theorem writes_parameters {ps : List Parameter} (h : List.Forall₂ (Renders .parameter) texts ps) :
    Writes ((", ".intercalate texts).toList ++ [')']) (fun _ => True)
      (Derives true .parameters · ps) := by
  induction h with
  | nil =>
    refine (writes_punct .closeParen).imp ?_
    rintro _ ⟨i, rfl, hi⟩
    exact .noParameter hi
  | @cons text p texts ps hp hps ih =>
    cases hps with
    | nil =>
      rw [String.intercalate_singleton]
      refine (hp.append (writes_punct .closeParen) fun _ _ => ends_cons rfl).imp ?_
      rintro _ ⟨w, _, rfl, hw, i, rfl, hi⟩
      exact .lastParameter hw hi
    | @cons text' p' texts ps hp' hps =>
      have hw := hp.append (Writes.punct .comma ih.space) fun _ _ => ends_cons rfl
      rw [show (", ".intercalate (text :: text' :: texts)).toList ++ [')'] = text.toList ++
        ',' :: ' ' :: ((", ".intercalate (text' :: texts)).toList ++ [')']) by
          rw [String.intercalate_cons_cons]; simp]
      refine hw.imp ?_
      rintro _ ⟨w, _, rfl, hw, _, v, rfl, ⟨i, rfl, hi⟩, hv⟩
      exact Derives.nextParameter (w := w) (v := v) hw hi hv

/-- The parameters of a signature in their parentheses, and the type it results in. -/
theorem writes_signature {ps : List Parameter} (h : List.Forall₂ (Renders .parameter) texts ps)
    (ht : Renders .union text t) :
    Writes ("(" ++ ", ".intercalate texts ++ "): " ++ text).toList Ends
      (Then (One (.punct .openParen)) (Then (Derives true .parameters · ps)
        (Then (One (.punct .colon)) (Derives true .union · t)))) := by
  have hw := Writes.punct .openParen ((writes_parameters h).append (Writes.punct .colon ht.space)
    fun _ _ => trivial)
  rw [show ("(" ++ ", ".intercalate texts ++ "): " ++ text).toList =
    '(' :: ((", ".intercalate texts).toList ++ [')'] ++ ':' :: ' ' :: text.toList) by simp]
  exact hw

theorem renders_call {ps : List Parameter} (h : List.Forall₂ (Renders .parameter) texts ps)
    (ht : Renders .union text t) :
    Renders .member ("(" ++ ", ".intercalate texts ++ "): " ++ text) (.call ps t) := by
  refine (writes_signature h ht).imp ?_
  rintro _ ⟨_, _, rfl, ⟨i, rfl, hi⟩, v, _, rfl, hv, _, w, rfl, ⟨c, rfl, hc⟩, hw⟩
  exact Derives.call (v := v) (w := w) hi hv hc hw

theorem renders_method {optional : Bool} {ps : List Parameter} (hk : Kind.AnySpells Kind.keys key)
    (h : List.Forall₂ (Renders .parameter) texts ps) (ht : Renders .union text t) :
    Renders .member
      (key ++ optionalMark optional ++ "(" ++ ", ".intercalate texts ++ "): " ++ text)
      (.method key ps t optional) := by
  have hs := (writes_optional optional).append (writes_signature h ht) fun _ _ => trivial
  have hp := (writes_of_anySpells hk (by decide)).append hs fun _ _ => by
    simpa using ends_optional optional (ends_cons (c := '(') rfl)
  refine renders_of_writes hp (by simp) ?_ fun _ => id
  rintro _ ⟨_, _, rfl, ⟨k, rfl, hk', rfl⟩, q, _, rfl, hq, _, _, rfl, ⟨i, rfl, hi⟩, v, _, rfl, hv, _,
    w, rfl, ⟨c, rfl, hc⟩, hw⟩
  simpa using Derives.method (k := ⟨[], k⟩) (i := ⟨[], i⟩) (c := ⟨[], c⟩) hk' hq hi hv hc hw

theorem writes_readonly (readonly : Bool) :
    Writes (if readonly then "readonly " else "").toList (fun _ => True)
      (Maybe (.keyword .readonly) · readonly) := by
  cases readonly with
  | false => exact .nil .absent
  | true =>
    refine (Writes.keyword .readonly (.nil (P := (· = [])) rfl)).imp ?_
    rintro _ ⟨_, _, rfl, ⟨i, rfl, hi, -⟩, rfl⟩
    exact .present hi

theorem renders_property {readonly optional : Bool} (hk : Kind.AnySpells Kind.keys key)
    (ht : Renders .union text t) :
    Renders .member
      ((if readonly then "readonly " else "") ++ key ++ optionalMark optional ++ ": " ++ text)
      (.property key t readonly optional) := by
  have htype := (writes_optional optional).append (Writes.punct .colon ht.space) fun _ _ => trivial
  have hkey := (writes_of_anySpells hk (by decide)).append htype
    fun _ _ => ends_optional optional (ends_cons rfl)
  have hp := (writes_readonly readonly).append hkey fun _ _ => trivial
  refine renders_of_writes hp (by simp [Punct.char]) ?_ fun _ => id
  rintro _ ⟨r, _, rfl, hr, _, _, rfl, ⟨k, rfl, hk', rfl⟩, q, _, rfl, hq, _, w, rfl, ⟨c, rfl, hc⟩,
    hw⟩
  simpa using Derives.property (k := ⟨[], k⟩) (c := ⟨[], c⟩) hr hk' hq hc hw

theorem renders_index (hn : Kind.AnySpells Kind.names name) (ht : Renders .union text t)
    {text' : String} (hu : Renders .union text' u) :
    Renders .member ("[" ++ name ++ ": " ++ text ++ "]: " ++ text')
      (.index (.mk name t false) u) := by
  have hu := ht.append (Writes.punct .closeBracket (Writes.punct .colon hu.space))
    fun _ _ => ends_cons rfl
  have hn := (writes_of_anySpells hn (by decide)).append (Writes.punct .colon hu.space)
    fun _ _ => ends_cons rfl
  refine renders_of_writes (Writes.punct .openBracket hn) (by simp [Punct.char]) ?_ fun _ => id
  rintro _ ⟨_, _, rfl, ⟨i, rfl, hi⟩, _, _, rfl, ⟨n, rfl, hn', rfl⟩, _, _, rfl, ⟨c, rfl, hc⟩, v, _,
    rfl, hv, _, _, rfl, ⟨j, rfl, hj⟩, _, w, rfl, ⟨d, rfl, hd⟩, hw⟩
  exact Derives.index (v := v) (w := w) hi hn' hc hv hj hd hw

/-! ### Bodies -/

/-- A comment before the first token of a list of members belongs to the list. -/
theorem Derives.comment {i : Item} {w : List Item} {ms : List Member} {t : Token}
    (h : Derives true .members (i :: w) ms) :
    Derives true .members ({ i with comments := t :: i.comments } :: w)
      (.comment t.text :: ms) := by
  generalize hu : i :: w = u at h
  cases h with
  | noMember hi =>
    cases hu
    exact Derives.noMember (i := { i with comments := t :: i.comments }) hi
  | nextMember hw he hv =>
    cases hu
    exact Derives.nextMember (i := { i with comments := t :: i.comments }) hw he hv

section

variable {ds : List Char} {F : List Char → Prop} {m : Member} {ms : List Member}

theorem writes_noMember : Writes ['}'] (fun _ => True) (Derives true .members · []) := by
  refine (writes_punct .closeBrace).imp ?_
  rintro _ ⟨t, rfl, ht⟩
  exact Derives.noMember (i := ⟨[], t⟩) ht

/-- A member that is written without comments, its end, and the members after it. -/
theorem derives_nextMember {w e v : List Item} (hw : Derives true .member w m) (hp : Plain w)
    (he : Terminator true [.punct .closeBrace] w e v) (hv : Derives true .members v ms) :
    Derives true .members (w ++ e ++ v) (m :: ms) := by
  obtain ⟨i, w, rfl⟩ := List.exists_cons_of_ne_nil (hw.ne_nil nofun nofun)
  rw [plain_cons_iff] at hp
  have hnotes : memberNotes true i = [] := by rw [memberNotes, hp.1]; rfl
  rw [← Item.bare_of_comments_eq_nil hp.1] at hw he
  have h := Derives.nextMember hw he hv
  rwa [hnotes] at h

/-- A member and the semicolon that ends it. -/
theorem scans_member (hm : Renders .member text m) (h : Scans ds F (Derives true .members · ms)) :
    Scans (text.toList ++ ';' :: ds) F (Derives true .members · (m :: ms)) := by
  have hs := Scans.append (writes_punct .semicolon) h fun _ _ => trivial
  refine (Scans.append hm hs fun _ _ => ends_cons rfl).imp ?_
  rintro _ ⟨w, _, rfl, ⟨hw, hp⟩, _, v, rfl, ⟨⟨t, rfl, ht⟩, -⟩, hv⟩
  rw [← List.append_assoc]
  exact derives_nextMember hw hp (.mark (.inl ht)) hv

/-- A comment between members, and the line feed after it. -/
theorem scans_comment (hc : Kind.comment.Spells text)
    (h : Scans ds F (Derives true .members · ms)) :
    Scans (text.toList ++ '\n' :: ds) F (Derives true .members · (.comment text :: ms)) := by
  refine (h.comment hc fun w hw => hw.ne_nil nofun nofun).imp ?_
  rintro _ ⟨t, i, v, rfl, rfl, hw⟩
  exact hw.comment

/-- The members of an object type on one line, and the brace that closes it. -/
theorem writes_inline (h : List.Forall₂ (Renders .member) texts ms) (hne : texts ≠ []) :
    Writes (("; ".intercalate texts).toList ++ [' ', '}']) (fun _ => True)
      (Derives true .members · ms) := by
  induction h with
  | nil => exact absurd rfl hne
  | @cons text m texts ms hm hms ih =>
    cases hms with
    | nil =>
      rw [String.intercalate_singleton]
      refine (Scans.append hm (writes_punct .closeBrace).space fun _ _ => ends_cons rfl).imp ?_
      rintro _ ⟨w, _, rfl, ⟨hw, hp⟩, ⟨t, rfl, ht⟩, hpv⟩
      refine ⟨?_, List.forall_mem_append.2 ⟨hp, hpv⟩⟩
      have hend : Terminator true [.punct .closeBrace] w [] [⟨[], t⟩] := .closer rfl (by simp [ht])
      have hv : Derives true .members [⟨[], t⟩] [] := Derives.noMember (i := ⟨[], t⟩) ht
      simpa using derives_nextMember hw hp hend hv
    | @cons text' m' texts ms hm' hms =>
      have hs := Scans.append (writes_punct .semicolon) (ih (List.cons_ne_nil _ _)).space
        fun _ _ => trivial
      rw [show ("; ".intercalate (text :: text' :: texts)).toList ++ [' ', '}'] = text.toList ++
        ';' :: ' ' :: (("; ".intercalate (text' :: texts)).toList ++ [' ', '}']) by
          rw [String.intercalate_cons_cons]; simp]
      refine (Scans.append hm hs fun _ _ => ends_cons rfl).imp ?_
      rintro _ ⟨w, _, rfl, ⟨hw, hp⟩, _, v, rfl, ⟨⟨t, rfl, ht⟩, hpt⟩, hv, hpv⟩
      refine ⟨?_, List.forall_mem_append.2 ⟨hp, List.forall_mem_append.2 ⟨hpt, hpv⟩⟩⟩
      rw [← List.append_assoc]
      exact derives_nextMember hw hp (.mark (.inl ht)) hv

/-- An object type on one line. -/
theorem renders_object (h : List.Forall₂ (Renders .member) texts ms) (hne : texts ≠ []) :
    Renders .primary ("\x7b " ++ "; ".intercalate texts ++ " \x7d") (.object ms) := by
  have hp := Writes.punct .openBrace (writes_inline h hne).space
  refine renders_of_writes hp (by simp [Punct.char]) ?_ fun _ _ => trivial
  rintro _ ⟨_, v, rfl, ⟨i, rfl, hi⟩, hv⟩
  exact .object hi hv

theorem renders_emptyObject : Renders .primary "\x7b\x7d" (.object []) := by
  refine renders_of_writes (Writes.punct .openBrace writes_noMember) rfl ?_ fun _ _ => trivial
  rintro _ ⟨_, v, rfl, ⟨i, rfl, hi⟩, hv⟩
  exact .object hi hv

end

end StyleDecl.Grammar
