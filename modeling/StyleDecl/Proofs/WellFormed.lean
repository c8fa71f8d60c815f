import StyleDecl.Decl.Openings
import StyleDecl.Proofs.Grammar.Comments
import StyleDecl.Proofs.Lexical

/-!
# Well-formed declarations

A declaration is well formed if its names, keys, literals and comments are single
lexemes of the kinds that stand in these places, and if nothing is left open. Such a
declaration can be printed (`DeclFile.print_eq_ok`), and every declaration that is
read from a text is one (`DeclFile.wellFormed_of_ofText?`).

* `TypeExpr.WellFormed`, `Parameter.WellFormed`, `Member.WellFormed`;
* `Statement.WellFormed`, `DeclFile.WellFormed`.
-/

namespace StyleDecl

/-! ### Types and members -/

/-- A name whose parts are identifiers, with dots between them. -/
def DottedName (name : String) : Prop :=
  ∃ first others, name = ".".intercalate (first :: others) ∧
    ∀ part ∈ first :: others, Kind.identifier.Spells part

mutual

/-- Nothing in a type is left open, its names and literals are tokens, and unions and
    intersections have at least two operands. -/
def TypeExpr.WellFormed : TypeExpr → Prop
  | .hole => False
  | .reference name => DottedName name
  | .literal raw => Kind.AnySpells [.string, .number] raw
  | .union members => 2 ≤ members.length ∧ TypeExpr.AllWellFormed members
  | .intersection members => 2 ≤ members.length ∧ TypeExpr.AllWellFormed members
  | .array element => element.WellFormed
  | .object members => Member.AllWellFormed members

/-- All of the types are well formed. -/
def TypeExpr.AllWellFormed : List TypeExpr → Prop
  | [] => True
  | t :: ts => t.WellFormed ∧ TypeExpr.AllWellFormed ts

/-- The parameter is named by a name or a keyword. -/
def Parameter.WellFormed : Parameter → Prop
  | .mk name type _ => Kind.AnySpells Kind.names name ∧ type.WellFormed

/-- All of the parameters are well formed. -/
def Parameter.AllWellFormed : List Parameter → Prop
  | [] => True
  | p :: ps => p.WellFormed ∧ Parameter.AllWellFormed ps

/-- The key of a member is a token. A comment is written as one, and blanks may end its line.
    The parameter of an index signature cannot be left out. -/
def Member.WellFormed : Member → Prop
  | .hole => False
  | .property key type _ _ => Kind.AnySpells Kind.keys key ∧ type.WellFormed
  | .method key parameters result _ =>
    Kind.AnySpells Kind.keys key ∧ Parameter.AllWellFormed parameters ∧ result.WellFormed
  | .call parameters result => Parameter.AllWellFormed parameters ∧ result.WellFormed
  | .index parameter type =>
    parameter.optional = false ∧ parameter.WellFormed ∧ type.WellFormed
  | .comment text => Lexeme.comment.Forms text.toList

/-- All of the members are well formed. -/
def Member.AllWellFormed : List Member → Prop
  | [] => True
  | m :: ms => m.WellFormed ∧ Member.AllWellFormed ms

end

@[simp] theorem TypeExpr.allWellFormed_iff {ts : List TypeExpr} :
    TypeExpr.AllWellFormed ts ↔ ∀ t ∈ ts, t.WellFormed := by
  induction ts with
  | nil => exact ⟨fun _ => nofun, fun _ => trivial⟩
  | cons t ts ih => rw [TypeExpr.AllWellFormed, ih, List.forall_mem_cons]

@[simp] theorem Parameter.allWellFormed_iff {ps : List Parameter} :
    Parameter.AllWellFormed ps ↔ ∀ p ∈ ps, p.WellFormed := by
  induction ps with
  | nil => exact ⟨fun _ => nofun, fun _ => trivial⟩
  | cons p ps ih => rw [Parameter.AllWellFormed, ih, List.forall_mem_cons]

@[simp] theorem Member.allWellFormed_iff {ms : List Member} :
    Member.AllWellFormed ms ↔ ∀ m ∈ ms, m.WellFormed := by
  induction ms with
  | nil => exact ⟨fun _ => nofun, fun _ => trivial⟩
  | cons m ms ih => rw [Member.AllWellFormed, ih, List.forall_mem_cons]

/-! ### Statements and files -/

/-- The words before a statement are `export` and `declare`. -/
def Modifiers (words : List String) : Prop :=
  ∀ m ∈ words, m = Keyword.exportWord.text ∨ m = Keyword.declare.text

/-- The names of a statement are identifiers, and its parts are well formed. -/
def Statement.WellFormed : Statement → Prop
  | .comment text _ => Lexeme.comment.Forms text.toList
  | .typeAlias name type modifiers =>
    Kind.identifier.Spells name ∧ type.WellFormed ∧ Modifiers modifiers
  | .interfaceDecl name members modifiers =>
    Kind.identifier.Spells name ∧ Member.AllWellFormed members ∧ Modifiers modifiers
  | .classDecl name members modifiers =>
    Kind.identifier.Spells name ∧ Member.AllWellFormed members ∧ Modifiers modifiers
  | .variableDecl kind name type modifiers =>
    (∃ k ∈ [Keyword.letWord, .const, .var], kind = k.text) ∧ Kind.identifier.Spells name ∧
      (∀ t ∈ type, t.WellFormed) ∧ Modifiers modifiers
  | .exportDefault name => Kind.identifier.Spells name

/-- All statements of a file are well formed. -/
def DeclFile.WellFormed (file : DeclFile) : Prop := ∀ s ∈ file.statements, s.WellFormed

/-! ### Printing -/

theorem TypeExpr.operandsOpening?_eq_none {ts : List TypeExpr} (h : ∀ t ∈ ts, t.opening? = none) :
    TypeExpr.operandsOpening? ts = none := by
  induction ts with
  | nil => rfl
  | cons t ts ih =>
    rw [List.forall_mem_cons] at h
    rw [TypeExpr.operandsOpening?, h.1, ih h.2]
    rfl

theorem Parameter.listOpening?_eq_none {ps : List Parameter} (h : ∀ p ∈ ps, p.opening? = none) :
    Parameter.listOpening? ps = none := by
  induction ps with
  | nil => rfl
  | cons p ps ih =>
    rw [List.forall_mem_cons] at h
    rw [Parameter.listOpening?, h.1, ih h.2]
    rfl

theorem Member.inlineOpening?_eq_none {ms : List Member}
    (h : ∀ m ∈ ms, m.isComment = false → m.opening? = none) : Member.inlineOpening? ms = none := by
  induction ms with
  | nil => rfl
  | cons m ms ih =>
    rw [List.forall_mem_cons] at h
    cases m with
    | comment => exact ih h.2
    | _ => rw [Member.inlineOpening?, h.1 rfl, ih h.2, Option.none_or]; nofun

mutual

/-- Nothing is left open in a well-formed type. -/
theorem TypeExpr.opening?_eq_none : {t : TypeExpr} → t.WellFormed → t.opening? = none
  | .hole, h => h.elim
  | .reference _, _ => rfl
  | .literal _, _ => rfl
  | .union ts, h => by
    have hts := TypeExpr.allWellFormed_iff.1 h.2
    exact TypeExpr.operandsOpening?_eq_none fun t ht => TypeExpr.opening?_eq_none (hts t ht)
  | .intersection ts, h => by
    have hts := TypeExpr.allWellFormed_iff.1 h.2
    exact TypeExpr.operandsOpening?_eq_none fun t ht => TypeExpr.opening?_eq_none (hts t ht)
  | .array t, h => TypeExpr.opening?_eq_none (t := t) h
  | .object ms, h => by
    have hms := Member.allWellFormed_iff.1 h
    exact Member.inlineOpening?_eq_none fun m hm hc => Member.opening?_eq_none (hms m hm) hc

theorem Parameter.opening?_eq_none : {p : Parameter} → p.WellFormed → p.opening? = none
  | .mk _ t _, h => TypeExpr.opening?_eq_none (t := t) h.2

theorem Member.opening?_eq_none :
    {m : Member} → m.WellFormed → m.isComment = false → m.opening? = none
  | .hole, h, _ => h.elim
  | .property _ t _ _, h, _ => TypeExpr.opening?_eq_none (t := t) h.2
  | .method _ ps t _, h, _ => by
    have hps : ∀ p ∈ ps, p.opening? = none := by
      intro p hp
      have hlt := List.sizeOf_lt_of_mem hp
      exact Parameter.opening?_eq_none (Parameter.allWellFormed_iff.1 h.2.1 p hp)
    rw [Member.opening?, TypeExpr.opening?_eq_none h.2.2, Parameter.listOpening?_eq_none hps]
    rfl
  | .call ps t, h, _ => by
    have hps : ∀ p ∈ ps, p.opening? = none := by
      intro p hp
      have hlt := List.sizeOf_lt_of_mem hp
      exact Parameter.opening?_eq_none (Parameter.allWellFormed_iff.1 h.1 p hp)
    rw [Member.opening?, TypeExpr.opening?_eq_none h.2, Parameter.listOpening?_eq_none hps]
    rfl
  | .index p t, h, _ => by
    rw [Member.opening?, Parameter.opening?_eq_none h.2.1, TypeExpr.opening?_eq_none h.2.2]
    rfl
  | .comment _, _, hc => nomatch hc

end

theorem Statement.opening?_eq_none {s : Statement} (h : s.WellFormed) : s.opening? = none := by
  have hbody : ∀ ms, Member.AllWellFormed ms → Member.inlineOpening? ms = none := fun ms hms =>
    Member.inlineOpening?_eq_none fun m hm hc =>
      Member.opening?_eq_none (Member.allWellFormed_iff.1 hms m hm) hc
  cases s with
  | comment => rfl
  | typeAlias => exact TypeExpr.opening?_eq_none h.2.1
  | interfaceDecl => exact hbody _ h.2.1
  | classDecl => exact hbody _ h.2.1
  | variableDecl kind name type modifiers =>
    cases type with
    | none => rfl
    | some t => exact TypeExpr.opening?_eq_none (h.2.2.1 t rfl)
  | exportDefault => rfl

/-- A well-formed file can be printed. -/
theorem DeclFile.print_eq_ok {file : DeclFile} (h : file.WellFormed) (cfg : LayoutConfig) :
    file.print cfg = .ok (file.text cfg) := by
  have hopen : file.opening? = none :=
    List.findSome?_eq_none_iff.2 fun s hs => Statement.opening?_eq_none (h s hs)
  rw [DeclFile.print, hopen]
  rfl

/-! ### Reading -/

namespace Grammar

open Reader

/-- The token of an item and the comments before it are spelled by their texts, but for
    the end of the text. -/
structure Spelled (i : Item) : Prop where
  comments : ∀ t ∈ i.comments, Kind.comment.Spells t.text
  token : i.token.kind ≠ .eof → i.token.kind.Spells i.token.text

variable {c : Symbol} {w v : List Item} {i : Item} {k : Kind} {kinds : List Kind} {t : TypeExpr}

/-- Grouping tokens changes none of them. -/
theorem spelled_group {ts : List Token} (h : ∀ t ∈ ts, t.kind ≠ .eof → t.kind.Spells t.text) :
    ∀ i ∈ Item.group ts, Spelled i := by
  induction ts with
  | nil => exact List.forall_mem_nil _
  | cons t ts ih =>
    rw [List.forall_mem_cons] at h
    replace ih := ih h.2
    rw [Item.group]
    split
    · next hk =>
      generalize Item.group ts = w at ih
      cases w with
      | nil => exact List.forall_mem_nil _
      | cons i w =>
        rw [List.forall_mem_cons] at ih ⊢
        have ht : Kind.comment.Spells t.text := hk ▸ h.1 (by simp [hk])
        exact ⟨⟨List.forall_mem_cons.2 ⟨ht, ih.1.comments⟩, ih.1.token⟩, ih.2⟩
    · exact List.forall_mem_cons.2 ⟨⟨List.forall_mem_nil _, h.1⟩, ih⟩

theorem Spelled.bare (h : Spelled i) : Spelled i.bare := ⟨nofun, h.token⟩

theorem Spelled.spells (h : Spelled i) (hk : i.token.kind = k) (hne : k ≠ .eof) :
    k.Spells i.token.text :=
  hk ▸ h.token (hk ▸ hne)

theorem Spelled.anySpells (h : Spelled i) (hk : i.token.kind ∈ kinds)
    (hne : Kind.eof ∉ kinds) : Kind.AnySpells kinds i.token.text :=
  ⟨_, hk, h.token fun he => hne (he ▸ hk)⟩

/-- What is derived from a symbol is well formed. -/
def Symbol.WellFormed : (c : Symbol) → c.Value → Prop
  | .union, t | .intersection, t | .array, t | .primary, t => TypeExpr.WellFormed t
  | .alternatives, ts | .factors, ts => TypeExpr.AllWellFormed ts
  | .parameter, p => Parameter.WellFormed p
  | .parameters, ps => Parameter.AllWellFormed ps
  | .member, m => Member.WellFormed m
  | .members, ms => Member.AllWellFormed ms

theorem NameParts.spells {parts : List String} (h : NameParts w parts) (hw : ∀ i ∈ w, Spelled i) :
    ∀ part ∈ parts, Kind.identifier.Spells part := by
  induction h with
  | nil => nofun
  | cons _ hn _ ih =>
    simp only [List.forall_mem_cons] at hw ⊢
    exact ⟨hw.2.1.spells hn nofun, ih hw.2.2⟩

theorem wellFormed_memberNotes (h : Spelled i) {ms : List Member} (hms : Member.AllWellFormed ms) :
    Member.AllWellFormed (memberNotes true i ++ ms) := by
  rw [Member.allWellFormed_iff] at hms ⊢
  refine List.forall_mem_append.2 ⟨fun m hm => ?_, hms⟩
  obtain ⟨t, ht, rfl⟩ := List.mem_map.1 hm
  exact (Kind.comment_spells_iff.1 (h.comments t ht)).forms

theorem wellFormed_combined {make : List TypeExpr → TypeExpr} {ts : List TypeExpr}
    (hmake : ∀ ts, 2 ≤ ts.length → TypeExpr.AllWellFormed ts → (make ts).WellFormed)
    (ht : t.WellFormed) (hts : TypeExpr.AllWellFormed ts) :
    (combined make (t :: ts)).WellFormed := by
  cases ts with
  | nil => exact ht
  | cons u ts => exact hmake _ (by simp) ⟨ht, hts⟩

theorem wellFormed_iterate_array (h : t.WellFormed) (n : Nat) :
    (TypeExpr.array^[n] t).WellFormed := by
  induction n with
  | zero => exact h
  | succ n ih => rwa [Function.iterate_succ_apply']

/-- Types and members that are derived are well formed. -/
theorem Derives.wellFormed {a : c.Value} (h : Derives true c w a) (hw : ∀ i ∈ w, Spelled i) :
    c.WellFormed a := by
  induction h with try simp only [List.append_assoc, List.cons_append, List.forall_mem_append,
    List.forall_mem_cons] at hw
  | union _ _ _ hu iht ihts =>
    obtain rfl := joined_iff.1 hu
    exact wellFormed_combined (fun ts hlen hts => ⟨hlen, hts⟩) (iht hw.2.1) (ihts hw.2.2)
  | noAlternative => trivial
  | alternative hi _ _ iht ihts => exact ⟨iht hw.2.1, ihts hw.2.2⟩
  | intersection _ _ _ hu iht ihts =>
    obtain rfl := joined_iff.1 hu
    exact wellFormed_combined (fun ts hlen hts => ⟨hlen, hts⟩) (iht hw.2.1) (ihts hw.2.2)
  | noFactor => trivial
  | factor hi _ _ iht ihts => exact ⟨iht hw.2.1, ihts hw.2.2⟩
  | array _ _ ih => exact wellFormed_iterate_array (ih hw.1) _
  | reference hi hparts =>
    exact ⟨_, _, rfl, List.forall_mem_cons.2 ⟨hw.1.spells hi nofun, hparts.spells hw.2⟩⟩
  | literal hi => exact hw.1.anySpells (by simpa using hi) (by decide)
  | object _ _ ih => exact ih hw.2
  | parentheses _ _ _ ih => exact ih hw.2.1
  | parameter hn _ _ _ ih => exact ⟨hw.1.anySpells hn (by decide), ih hw.2.2.2⟩
  | noParameter => trivial
  | lastParameter _ _ ih => exact ⟨ih hw.1, trivial⟩
  | nextParameter _ _ _ ihp ihps => exact ⟨ihp hw.1, ihps hw.2.2⟩
  | call _ _ _ _ ihps iht => exact ⟨ihps hw.2.1, iht hw.2.2.2⟩
  | index _ hn _ _ _ _ _ ihk iht =>
    exact ⟨rfl, ⟨hw.2.1.anySpells hn (by decide), ihk hw.2.2.2.1⟩, iht hw.2.2.2.2.2.2⟩
  | property _ hk _ _ _ ih => exact ⟨hw.2.1.anySpells hk (by decide), ih hw.2.2.2.2⟩
  | method hk _ _ _ _ _ ihps iht =>
    exact ⟨hw.1.anySpells hk (by decide), ihps hw.2.2.2.1, iht hw.2.2.2.2.2⟩
  | noMember =>
    have hnotes := wellFormed_memberNotes hw.1 (show Member.AllWellFormed [] from trivial)
    rwa [List.append_nil] at hnotes
  | nextMember _ _ _ ihm ihms =>
    have hm := ihm (List.forall_mem_cons.2 ⟨hw.1.bare, hw.2.1⟩)
    exact wellFormed_memberNotes hw.1 ⟨hm, ihms hw.2.2.2⟩

/-- The token of a keyword reads as this keyword. -/
theorem text_of_keyword_spells {k : Keyword} {s : String} (h : (Kind.keyword k).Spells s) :
    s = k.text := by
  obtain ⟨l, -, hk⟩ := Kind.spells_iff.1 h
  cases l with
  | word =>
    rw [Lexeme.kind, String.ofList_toList] at hk
    split at hk
    · next hk' =>
      cases hk
      rw [Keyword.ofText?] at hk'
      exact (by simpa using List.find?_some hk' : k.text = s).symm
    · cases hk
  | _ => cases hk

theorem Words.modifiers {words : List String} (h : Words w words) (hw : ∀ i ∈ w, Spelled i) :
    Modifiers words := by
  induction h with
  | nil => nofun
  | cons hi _ ih =>
    rw [List.forall_mem_cons] at hw
    refine List.forall_mem_cons.2 ⟨hi.imp ?_ ?_, ih hw.2⟩ <;>
      exact fun hk => text_of_keyword_spells (hw.1.spells hk nofun)

theorem variable_of_spelled (hi : Spelled i)
    (hk : i.token.kind ∈ [Kind.keyword .letWord, .keyword .const, .keyword .var]) :
    ∃ k ∈ [Keyword.letWord, .const, .var], i.token.text = k.text := by
  obtain ⟨k, hmem, hk⟩ := List.mem_map.1
    (show i.token.kind ∈ [Keyword.letWord, .const, .var].map Kind.keyword from hk)
  exact ⟨k, hmem, text_of_keyword_spells (hi.spells hk.symm nofun)⟩

theorem DerivesStatement.wellFormed {a : Statement} (h : DerivesStatement true v w a)
    (hw : ∀ i ∈ w, Spelled i) : a.WellFormed := by
  cases h <;> simp only [List.append_assoc, List.cons_append, List.forall_mem_append,
    List.forall_mem_cons] at hw
  case exportDefault hwords _ _ hn _ => exact hw.2.2.2.1.spells hn nofun
  case typeAlias hwords _ hn _ ht _ =>
    exact ⟨hw.2.2.1.spells hn nofun, ht.wellFormed hw.2.2.2.2.1, hwords.modifiers hw.1⟩
  case interfaceDecl hwords _ hn _ hms =>
    exact ⟨hw.2.2.1.spells hn nofun, hms.wellFormed hw.2.2.2.2, hwords.modifiers hw.1⟩
  case classDecl hwords _ hn _ hms =>
    exact ⟨hw.2.2.1.spells hn nofun, hms.wellFormed hw.2.2.2.2, hwords.modifiers hw.1⟩
  case untyped hwords hi hn _ =>
    exact ⟨variable_of_spelled hw.2.1 hi, hw.2.2.1.spells hn nofun, nofun, hwords.modifiers hw.1⟩
  case typed hwords hi hn _ ht _ =>
    refine ⟨variable_of_spelled hw.2.1 hi, hw.2.2.1.spells hn nofun, ?_, hwords.modifiers hw.1⟩
    rintro _ ⟨⟩
    exact ht.wellFormed hw.2.2.2.2.1

theorem wellFormed_statementNotes (h : Spelled i) {ss : List Statement}
    (hss : ∀ s ∈ ss, s.WellFormed) : ∀ s ∈ statementNotes true i ++ ss, s.WellFormed := by
  have hnotes : ∀ (cs : List Token) (next : Token), (∀ t ∈ cs, Kind.comment.Spells t.text) →
      ∀ s ∈ commentStatements cs next, s.WellFormed := by
    intro cs next hcs
    fun_induction commentStatements cs next with
    | case1 => exact List.forall_mem_nil _
    | case2 =>
      rw [List.forall_mem_singleton] at hcs ⊢
      exact (Kind.comment_spells_iff.1 hcs).forms
    | case3 _ c d rest ih =>
      rw [List.forall_mem_cons] at hcs ⊢
      exact ⟨(Kind.comment_spells_iff.1 hcs.1).forms, ih hcs.2⟩
  exact List.forall_mem_append.2 ⟨hnotes i.comments i.token h.comments, hss⟩

theorem DerivesFile.wellFormed {ss : List Statement} (h : DerivesFile true w ss)
    (hw : ∀ i ∈ w, Spelled i) : ∀ s ∈ ss, s.WellFormed := by
  induction h with simp only [List.cons_append, List.forall_mem_append, List.forall_mem_cons] at hw
  | done _ =>
    have hnotes := wellFormed_statementNotes hw.1 (List.forall_mem_nil Statement.WellFormed)
    rwa [List.append_nil] at hnotes
  | empty _ _ ih => exact wellFormed_statementNotes hw.1 (ih hw.2)
  | statement hd _ ih =>
    have hs := hd.wellFormed (List.forall_mem_cons.2 ⟨hw.1.bare, hw.2.1⟩)
    exact wellFormed_statementNotes hw.1 (List.forall_mem_cons.2 ⟨hs, ih hw.2.2⟩)

end Grammar

/-- A file that is read from a text is derived from the tokens of the text, each of which is
    spelled by its own text. -/
theorem DeclFile.derives_of_ofText? {source : String} {file : DeclFile}
    (h : DeclFile.ofText? source = .ok file) :
    ∃ ts e, Token.scan source = .ok (ts ++ [e]) ∧ e.kind = .eof ∧ (∀ t ∈ ts, t.kind ≠ .eof) ∧
      Grammar.DerivesFile true (Item.group (ts ++ [e])) file.statements ∧
      ∀ i ∈ Item.group (ts ++ [e]), Grammar.Spelled i := by
  rw [DeclFile.ofText?] at h
  split at h
  · next tokens hscan =>
    obtain ⟨ts, e, rfl, he, hts⟩ := Token.exists_of_scan_eq_ok hscan
    rw [DeclFile.ofTokens?] at h
    split at h
    · next hread =>
      cases h
      refine ⟨ts, e, hscan, he, fun t ht => (hts t ht).1, ?_, ?_⟩
      · exact Grammar.file_sound hread (Grammar.closed_group he fun t ht => (hts t ht).1)
      · refine Grammar.spelled_group fun t ht hne => ?_
        obtain ht | ht := List.mem_append.1 ht
        · exact (hts t ht).2
        · exact absurd (List.mem_singleton.1 ht ▸ he) hne
    · cases h
  · cases h

/-- A file that is read from a text is well formed. -/
theorem DeclFile.wellFormed_of_ofText? {source : String} {file : DeclFile}
    (h : DeclFile.ofText? source = .ok file) : file.WellFormed := by
  obtain ⟨ts, e, -, -, -, hd, hspelled⟩ := DeclFile.derives_of_ofText? h
  exact hd.wellFormed hspelled

end StyleDecl
