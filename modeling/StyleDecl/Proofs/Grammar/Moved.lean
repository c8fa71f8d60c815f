import Mathlib.Data.List.Forall2
import StyleDecl.Proofs.Grammar.Comments

/-!
# Moving what is derived

A derivation without comments looks at what the tokens are and whether one begins
below the line where another ends. So it stays a derivation wherever the tokens are
put, if those that begin below others still do (`DerivesFile.relocated`). In
particular, it stays one when all tokens are moved down by the same number of lines
(`DerivesFile.moved`), and files can be put one below the other
(`DerivesFile.append`).
-/

namespace StyleDecl

/-- Tokens that `R` relates differ in their places only, and a token that begins below
    the line where another ends is related to one that begins below it as well. -/
structure Token.Relocates (R : Token → Token → Prop) : Prop where
  kind : ∀ {t t'}, R t t' → t'.kind = t.kind
  text : ∀ {t t'}, R t t' → t'.text = t.text
  below : ∀ {t t' u u'}, R t t' → R u u' → t.endLine < u.line → t'.endLine < u'.line

/-- The token `u` is the token `t`, but `n` lines further down. -/
structure Token.Moved (n : Nat) (t u : Token) : Prop where
  kind : u.kind = t.kind
  text : u.text = t.text
  line : u.line = t.line + n
  endLine : u.endLine = t.endLine + n

/-- Whether a new line begins between two tokens does not change when both are moved. -/
theorem Token.relocates_moved (n : Nat) : Token.Relocates (Token.Moved n) where
  kind h := h.kind
  text h := h.text
  below ht hu h := by
    rw [ht.endLine, hu.line]
    exact Nat.add_lt_add_right h n

/-- The tokens of the items `w` are related to those of `v`, one for one. -/
def Item.Relocated (R : Token → Token → Prop) (w v : List Item) : Prop :=
  List.Forall₂ (fun i j => R i.token j.token) w v

/-- The items `w` and `v` hold the same tokens, but those of `v` are `n` lines further down. -/
def Item.Moved (n : Nat) (w v : List Item) : Prop :=
  List.Forall₂ (fun i j => i.token.Moved n j.token) w v

section

variable {α β : Type} {R : α → β → Prop}

theorem forall₂_append_left_iff {as bs : List α} {cs : List β} :
    List.Forall₂ R (as ++ bs) cs ↔
      ∃ as' bs', List.Forall₂ R as as' ∧ List.Forall₂ R bs bs' ∧ cs = as' ++ bs' := by
  constructor
  · induction as generalizing cs with
    | nil => exact fun h => ⟨[], cs, .nil, h, rfl⟩
    | cons a as ih =>
      rintro (_ | ⟨h, hcs⟩)
      obtain ⟨as', bs', has, hbs, rfl⟩ := ih hcs
      exact ⟨_, bs', .cons h has, hbs, rfl⟩
  · rintro ⟨as', bs', has, hbs, rfl⟩
    exact List.rel_append has hbs

theorem exists_of_mem_right {as : List α} {bs : List β} {b : β} (h : List.Forall₂ R as bs)
    (hb : b ∈ bs) : ∃ a ∈ as, R a b := by
  induction h with
  | nil => cases hb
  | cons hab _ ih =>
    obtain rfl | hb := List.mem_cons.1 hb
    · exact ⟨_, List.mem_cons_self, hab⟩
    · obtain ⟨a, ha, hab⟩ := ih hb
      exact ⟨a, List.mem_cons_of_mem _ ha, hab⟩

end

namespace Item

variable {R : Token → Token → Prop} {u v w w' : List Item} {i : Item}

@[simp] theorem relocated_nil_iff : Relocated R [] w' ↔ w' = [] := List.forall₂_nil_left_iff

@[simp] theorem relocated_cons_iff :
    Relocated R (i :: w) w' ↔ ∃ j v, R i.token j.token ∧ Relocated R w v ∧ w' = j :: v :=
  List.forall₂_cons_left_iff

@[simp] theorem relocated_append_iff :
    Relocated R (w ++ v) w' ↔ ∃ x y, Relocated R w x ∧ Relocated R v y ∧ w' = x ++ y :=
  forall₂_append_left_iff

theorem Relocated.bare {j : Item} (h : R i.token j.token) (hw : Relocated R w v) :
    Relocated R (i.bare :: w) (j.bare :: v) := .cons h hw

theorem Relocated.head? (h : Relocated R w w') (hi : i ∈ w.head?) :
    ∃ j ∈ w'.head?, R i.token j.token := by
  obtain ⟨w, rfl⟩ := List.head?_eq_some_iff.1 hi
  obtain ⟨j, v, hj, -, rfl⟩ := relocated_cons_iff.1 h
  exact ⟨j, rfl, hj⟩

theorem Relocated.getLast? (h : Relocated R w w') (hi : i ∈ w.getLast?) :
    ∃ j ∈ w'.getLast?, R i.token j.token := by
  obtain ⟨w, rfl⟩ := List.getLast?_eq_some_iff.1 hi
  simp only [relocated_append_iff, relocated_cons_iff, relocated_nil_iff] at h
  obtain ⟨x, _, -, ⟨j, _, hj, rfl, rfl⟩, rfl⟩ := h
  exact ⟨j, by simp, hj⟩

/-- Items are related exactly if their tokens are. -/
theorem relocated_iff_tokens :
    Relocated R w v ↔ List.Forall₂ R (w.map Item.token) (v.map Item.token) := by
  rw [List.forall₂_map_left_iff, List.forall₂_map_right_iff]
  rfl

/-- Comments are dropped by grouping. -/
theorem map_token_group (ts : List Token) :
    (Item.group ts).map Item.token = Token.uncommented ts := by
  induction ts with
  | nil => rfl
  | cons t ts ih =>
    rw [group]
    split
    · next ht =>
      rw [Token.uncommented_cons_of_comment ht, ← ih]
      cases group ts <;> rfl
    · next ht => rw [Token.uncommented_cons ht, List.map_cons, ih]

end Item

namespace Grammar

variable {n : Nat} {R : Token → Token → Prop} {c : Symbol} {e v w w' : List Item}
  {i : Item}

section

variable (hR : Token.Relocates R)

include hR

/-! ### Types and members -/

theorem Maybe.relocated {k : Kind} {b : Bool} (h : Maybe k w b) (hw : Item.Relocated R w w') :
    Maybe k w' b := by
  cases h with
  | absent =>
    rw [Item.relocated_nil_iff.1 hw]
    exact .absent
  | present hi =>
    simp only [Item.relocated_cons_iff, Item.relocated_nil_iff] at hw
    obtain ⟨j, _, hj, rfl, rfl⟩ := hw
    exact .present ((hR.kind hj).trans hi)

theorem NameParts.relocated {parts : List String} (h : NameParts w parts)
    (hw : Item.Relocated R w w') : NameParts w' parts := by
  induction h generalizing w' with
  | nil =>
    rw [Item.relocated_nil_iff.1 hw]
    exact .nil
  | cons hd hn _ ih =>
    simp only [Item.relocated_cons_iff] at hw
    obtain ⟨d, _, hdm, ⟨m, v, hm, hv, rfl⟩, rfl⟩ := hw
    rw [← hR.text hm]
    exact .cons ((hR.kind hdm).trans hd) ((hR.kind hm).trans hn) (ih hv)

theorem Brackets.relocated {m : Nat} (h : Brackets w m) (hw : Item.Relocated R w w') :
    Brackets w' m := by
  induction h generalizing w' with
  | nil =>
    rw [Item.relocated_nil_iff.1 hw]
    exact .nil
  | cons hb hc _ ih =>
    simp only [Item.relocated_cons_iff] at hw
    obtain ⟨b, _, hbm, ⟨c, v, hcm, hv, rfl⟩, rfl⟩ := hw
    exact .cons ((hR.kind hbm).trans hb) ((hR.kind hcm).trans hc) (ih hv)

theorem Words.relocated {words : List String} (h : Words w words) (hw : Item.Relocated R w w') :
    Words w' words := by
  induction h generalizing w' with
  | nil =>
    rw [Item.relocated_nil_iff.1 hw]
    exact .nil
  | cons hi _ ih =>
    simp only [Item.relocated_cons_iff] at hw
    obtain ⟨j, v, hj, hv, rfl⟩ := hw
    rw [← hR.text hj]
    exact .cons (by rwa [hR.kind hj]) (ih hv)

theorem EndMark.relocated {t u : Token} (h : EndMark t) (ht : R t u) : EndMark u := by
  rwa [EndMark, hR.kind ht]

theorem Terminator.relocated {keep : Bool} {closers : List Kind}
    {before before' after after' : List Item} (h : Terminator keep closers before e after)
    (hb : Item.Relocated R before before') (he : Item.Relocated R e w')
    (ha : Item.Relocated R after after') : Terminator keep closers before' w' after' := by
  cases h with
  | mark hi =>
    simp only [Item.relocated_cons_iff, Item.relocated_nil_iff] at he
    obtain ⟨j, _, hj, rfl, rfl⟩ := he
    exact .mark (hi.relocated hR hj)
  | closer hn hk =>
    rw [Item.relocated_nil_iff.1 he]
    obtain ⟨m, hm, hnm⟩ := Item.Relocated.head? ha hn
    exact .closer hm (by rwa [hR.kind hnm])
  | lineBreak hl hn hline hmark =>
    rw [Item.relocated_nil_iff.1 he]
    obtain ⟨k, hk, hlk⟩ := Item.Relocated.getLast? hb hl
    obtain ⟨m, hm, hnm⟩ := Item.Relocated.head? ha hn
    refine .lineBreak hk hm (hR.below hlk hnm hline) fun hkeep => ?_
    rw [EndMark, hR.kind hnm]
    exact hmark hkeep

/-- What is derived without comments is derived wherever the tokens are put. -/
theorem Derives.relocated {a : c.Value} (h : Derives false c w a) (hw : Item.Relocated R w w') :
    Derives false c w' a := by
  -- The tokens at the new places are cut into parts as those of the derivation are.
  induction h generalizing w' with simp only [Item.relocated_append_iff, Item.relocated_cons_iff,
    Item.relocated_nil_iff] at hw
  | union hl _ _ hu ihw ihv =>
    obtain ⟨_, _, ⟨_, _, hlm, hwm, rfl⟩, hvm, rfl⟩ := hw
    exact .union (hl.relocated hR hlm) (ihw hwm) (ihv hvm) hu
  | noAlternative =>
    rw [hw]
    exact .noAlternative
  | alternative hi _ _ ihw ihv =>
    obtain ⟨_, _, ⟨j, _, hj, hwm, rfl⟩, hvm, rfl⟩ := hw
    exact .alternative ((hR.kind hj).trans hi) (ihw hwm) (ihv hvm)
  | intersection hl _ _ hu ihw ihv =>
    obtain ⟨_, _, ⟨_, _, hlm, hwm, rfl⟩, hvm, rfl⟩ := hw
    exact .intersection (hl.relocated hR hlm) (ihw hwm) (ihv hvm) hu
  | noFactor =>
    rw [hw]
    exact .noFactor
  | factor hi _ _ ihw ihv =>
    obtain ⟨_, _, ⟨j, _, hj, hwm, rfl⟩, hvm, rfl⟩ := hw
    exact .factor ((hR.kind hj).trans hi) (ihw hwm) (ihv hvm)
  | array _ hb ih =>
    obtain ⟨_, _, hwm, hbm, rfl⟩ := hw
    exact .array (ih hwm) (hb.relocated hR hbm)
  | reference hi hp =>
    obtain ⟨j, _, hj, hpm, rfl⟩ := hw
    rw [← hR.text hj]
    exact .reference ((hR.kind hj).trans hi) (hp.relocated hR hpm)
  | literal hi =>
    obtain ⟨j, _, hj, rfl, rfl⟩ := hw
    rw [← hR.text hj]
    exact .literal (by rwa [hR.kind hj])
  | object hi _ ih =>
    obtain ⟨j, _, hj, hm, rfl⟩ := hw
    exact .object ((hR.kind hj).trans hi) (ih hm)
  | parentheses hi _ hk ih =>
    obtain ⟨_, _, ⟨j, _, hj, hwm, rfl⟩, ⟨k, _, hkm, rfl, rfl⟩, rfl⟩ := hw
    exact .parentheses ((hR.kind hj).trans hi) (ih hwm) ((hR.kind hkm).trans hk)
  | parameter hn hq hc _ ih =>
    obtain ⟨_, _, ⟨m, _, hm, hqm, rfl⟩, ⟨d, _, hd, hwm, rfl⟩, rfl⟩ := hw
    rw [← hR.text hm]
    exact .parameter (by rwa [hR.kind hm]) (hq.relocated hR hqm) ((hR.kind hd).trans hc) (ih hwm)
  | noParameter hi =>
    obtain ⟨j, _, hj, rfl, rfl⟩ := hw
    exact .noParameter ((hR.kind hj).trans hi)
  | lastParameter _ hi ih =>
    obtain ⟨_, _, hwm, ⟨j, _, hj, rfl, rfl⟩, rfl⟩ := hw
    exact .lastParameter (ih hwm) ((hR.kind hj).trans hi)
  | nextParameter _ hi _ ihw ihv =>
    obtain ⟨_, _, hwm, ⟨j, _, hj, hvm, rfl⟩, rfl⟩ := hw
    exact .nextParameter (ihw hwm) ((hR.kind hj).trans hi) (ihv hvm)
  | call hi _ hc _ ihv ihw =>
    obtain ⟨_, _, ⟨j, _, hj, hvm, rfl⟩, ⟨d, _, hd, hwm, rfl⟩, rfl⟩ := hw
    exact .call ((hR.kind hj).trans hi) (ihv hvm) ((hR.kind hd).trans hc) (ihw hwm)
  | index hi hn hc _ hj hd _ ihv ihw =>
    obtain ⟨_, _, ⟨i', _, him, ⟨m, _, hm, ⟨c', _, hcm, hvm, rfl⟩, rfl⟩, rfl⟩,
      ⟨j', _, hjm, ⟨d', _, hdm, hwm, rfl⟩, rfl⟩, rfl⟩ := hw
    rw [← hR.text hm]
    exact .index ((hR.kind him).trans hi) (by rwa [hR.kind hm]) ((hR.kind hcm).trans hc) (ihv hvm)
      ((hR.kind hjm).trans hj) ((hR.kind hdm).trans hd) (ihw hwm)
  | property hr hk hq hc _ ih =>
    obtain ⟨_, _, ⟨_, _, hrm, ⟨k', _, hkm, hqm, rfl⟩, rfl⟩, ⟨d, _, hd, hwm, rfl⟩, rfl⟩ := hw
    rw [← hR.text hkm]
    exact .property (hr.relocated hR hrm) (by rwa [hR.kind hkm]) (hq.relocated hR hqm)
      ((hR.kind hd).trans hc) (ih hwm)
  | method hk hq hi _ hc _ ihv ihw =>
    obtain ⟨_, _, ⟨_, _, ⟨k', _, hkm, hqm, rfl⟩, ⟨j, _, hj, hvm, rfl⟩, rfl⟩,
      ⟨d, _, hd, hwm, rfl⟩, rfl⟩ := hw
    rw [← hR.text hkm]
    exact .method (by rwa [hR.kind hkm]) (hq.relocated hR hqm) ((hR.kind hj).trans hi) (ihv hvm)
      ((hR.kind hd).trans hc) (ihw hwm)
  | noMember hi =>
    obtain ⟨j, _, hj, rfl, rfl⟩ := hw
    exact .noMember ((hR.kind hj).trans hi)
  | nextMember _ he _ ihw ihv =>
    obtain ⟨_, _, ⟨_, _, ⟨j, _, hj, hwm, rfl⟩, hem, rfl⟩, hvm, rfl⟩ := hw
    -- Whether the line ends after a member is seen in the tokens of the member itself.
    have hbare := Item.Relocated.bare hj hwm
    exact .nextMember (ihw hbare) (he.relocated hR hbare hem hvm) (ihv hvm)

/-! ### Statements and files -/

theorem DerivesStatement.relocated {a : Statement} (h : DerivesStatement false v w a)
    (hw : Item.Relocated R w w') {v' : List Item} (hv : Item.Relocated R v v') :
    DerivesStatement false v' w' a := by
  cases h with simp only [Item.relocated_append_iff, Item.relocated_cons_iff] at hw
  | exportDefault hu hi hd hn he =>
    obtain ⟨_, _, hum, ⟨j, _, hj, ⟨d, _, hdm, ⟨m, _, hm, hem, rfl⟩, rfl⟩, rfl⟩, rfl⟩ := hw
    rw [← hR.text hm]
    exact .exportDefault (hu.relocated hR hum) ((hR.kind hj).trans hi) ((hR.kind hdm).trans hd)
      ((hR.kind hm).trans hn) (he.relocated hR (.cons hm .nil) hem hv)
  | typeAlias hu hi hn hq hd he =>
    obtain ⟨_, _, ⟨_, _, hum, ⟨j, _, hj, ⟨m, _, hm, ⟨q, _, hqm, hwm, rfl⟩, rfl⟩, rfl⟩, rfl⟩,
      hem, rfl⟩ := hw
    rw [← hR.text hm]
    exact .typeAlias (hu.relocated hR hum) ((hR.kind hj).trans hi) ((hR.kind hm).trans hn)
      ((hR.kind hqm).trans hq)
      (hd.relocated hR hwm) (he.relocated hR hwm hem hv)
  | interfaceDecl hu hi hn hb hd =>
    obtain ⟨_, _, hum, ⟨j, _, hj, ⟨m, _, hm, ⟨b, _, hbm, hwm, rfl⟩, rfl⟩, rfl⟩, rfl⟩ := hw
    rw [← hR.text hm]
    exact .interfaceDecl (hu.relocated hR hum) ((hR.kind hj).trans hi) ((hR.kind hm).trans hn)
      ((hR.kind hbm).trans hb) (hd.relocated hR hwm)
  | classDecl hu hi hn hb hd =>
    obtain ⟨_, _, hum, ⟨j, _, hj, ⟨m, _, hm, ⟨b, _, hbm, hwm, rfl⟩, rfl⟩, rfl⟩, rfl⟩ := hw
    rw [← hR.text hm]
    exact .classDecl (hu.relocated hR hum) ((hR.kind hj).trans hi) ((hR.kind hm).trans hn)
      ((hR.kind hbm).trans hb) (hd.relocated hR hwm)
  | untyped hu hi hn he =>
    obtain ⟨_, _, hum, ⟨j, _, hj, ⟨m, _, hm, hem, rfl⟩, rfl⟩, rfl⟩ := hw
    rw [← hR.text hj, ← hR.text hm]
    exact .untyped (hu.relocated hR hum) (by rwa [hR.kind hj]) ((hR.kind hm).trans hn)
      (he.relocated hR (.cons hm .nil) hem hv)
  | typed hu hi hn hc hd he =>
    obtain ⟨_, _, ⟨_, _, hum, ⟨j, _, hj, ⟨m, _, hm, ⟨c, _, hcm, hwm, rfl⟩, rfl⟩, rfl⟩, rfl⟩,
      hem, rfl⟩ := hw
    rw [← hR.text hj, ← hR.text hm]
    exact .typed (hu.relocated hR hum) (by rwa [hR.kind hj]) ((hR.kind hm).trans hn)
      ((hR.kind hcm).trans hc)
      (hd.relocated hR hwm) (he.relocated hR hwm hem hv)

/-- What derives a file without comments derives it wherever the tokens are put. -/
theorem DerivesFile.relocated {ss : List Statement} (h : DerivesFile false w ss)
    (hw : Item.Relocated R w w') : DerivesFile false w' ss := by
  induction h generalizing w' with simp only [Item.relocated_append_iff, Item.relocated_cons_iff,
    Item.relocated_nil_iff] at hw
  | done hi =>
    obtain ⟨j, _, hj, rfl, rfl⟩ := hw
    exact .done ((hR.kind hj).trans hi)
  | empty hi _ ih =>
    obtain ⟨j, _, hj, hvm, rfl⟩ := hw
    exact .empty ((hR.kind hj).trans hi) (ih hvm)
  | statement hd _ ih =>
    obtain ⟨_, _, ⟨j, _, hj, hwm, rfl⟩, hvm, rfl⟩ := hw
    exact .statement (hd.relocated hR (Item.Relocated.bare hj hwm) hvm) (ih hvm)

end

/-- What derives a file without comments derives it further down, too. -/
theorem DerivesFile.moved {ss : List Statement} (h : DerivesFile false w ss)
    (hw : Item.Moved n w w') : DerivesFile false w' ss :=
  h.relocated (Token.relocates_moved n) hw

/-! ### One file below the other -/

theorem DerivesFile.ne_nil {keep : Bool} {ss : List Statement} (h : DerivesFile keep w ss) :
    w ≠ [] := by
  cases h <;> simp

/-- All of the items `w` end above the line where the items `v` begin. -/
def Above (w v : List Item) : Prop := ∀ i ∈ w, ∀ n ∈ v.head?, i.token.endLine < n.token.line

theorem Above.mono {u : List Item} (h : Above w v) (hu : ∀ i ∈ u, i ∈ w) : Above u v :=
  fun i hi => h i (hu i hi)

variable {keep : Bool}

/-- A statement at the end of a text may end where another text begins below it. -/
theorem Terminator.below {before : List Item} (h : Terminator keep [] before e (w ++ [i]))
    (hb : before ≠ []) (habove : Above before v) (hv : v ≠ [])
    (hmark : keep → ∀ n ∈ v.head?, ¬EndMark n.token) : Terminator keep [] before e (w ++ v) := by
  -- If more of the file comes after the statement, the same token does. If not, the statement ended
  -- with the text, and now the other text begins on a line below it.
  cases w with
  | cons j w =>
    cases h with
    | mark hi => exact .mark hi
    | closer hn hk => exact .closer hn hk
    | lineBreak hl hn hline hk => exact .lineBreak hl hn hline hk
  | nil =>
    obtain ⟨k, v, rfl⟩ := List.exists_cons_of_ne_nil hv
    have hline : before.getLast hb ∈ before.getLast? := List.getLast?_eq_some_getLast hb
    cases h with
    | mark hi => exact .mark hi
    | closer | lineBreak =>
      exact .lineBreak hline rfl (habove _ (List.getLast_mem hb) k rfl)
        fun hkeep => hmark hkeep k rfl

theorem DerivesStatement.below {u : List Item} {a : Statement}
    (h : DerivesStatement keep (u ++ [i]) w a) (habove : Above w v) (hv : v ≠ [])
    (hmark : keep → ∀ n ∈ v.head?, ¬EndMark n.token) : DerivesStatement keep (u ++ v) w a := by
  cases h with
  | exportDefault hu hi hd hn he =>
    exact .exportDefault hu hi hd hn
      (he.below (List.cons_ne_nil _ _) (habove.mono (by simp +contextual)) hv hmark)
  | typeAlias hu hi hn hq hd he =>
    exact .typeAlias hu hi hn hq hd
      (he.below (hd.ne_nil nofun nofun) (habove.mono (by simp +contextual)) hv hmark)
  | interfaceDecl hu hi hn hb hd => exact .interfaceDecl hu hi hn hb hd
  | classDecl hu hi hn hb hd => exact .classDecl hu hi hn hb hd
  | untyped hu hi hn he =>
    exact .untyped hu hi hn
      (he.below (List.cons_ne_nil _ _) (habove.mono (by simp +contextual)) hv hmark)
  | typed hu hi hn hc hd he =>
    exact .typed hu hi hn hc hd
      (he.below (hd.ne_nil nofun nofun) (habove.mono (by simp +contextual)) hv hmark)

/-- A file is its statements and then the comments before the end of its text. Another file below
    it may stand in place of these comments. -/
theorem DerivesFile.exists_front {ss : List Statement} (h : DerivesFile keep w ss) :
    ∃ front i, w.getLast? = some i ∧ ss = front ++ statementNotes keep i ∧
      ∀ ⦃v ss'⦄, DerivesFile keep v ss' → Above w.dropLast v →
        (keep → ∀ n ∈ v.head?, ¬EndMark n.token) →
        DerivesFile keep (w.dropLast ++ v) (front ++ ss') := by
  induction h with
  | @done i hi => exact ⟨[], i, rfl, rfl, fun v ss' h' _ _ => h'⟩
  | @empty i u ss hi hu ih =>
    obtain ⟨front, j, hj, rfl, hbelow⟩ := ih
    have hlast : (i :: u).getLast? = some j := by rw [List.getLast?_cons, hj, Option.getD_some]
    -- Only the last item is replaced, and it belongs to what comes after this one.
    refine ⟨statementNotes keep i ++ front, j, hlast, (List.append_assoc ..).symm, ?_⟩
    intro v ss' h' habove hmark
    rw [List.dropLast_cons_of_ne_nil hu.ne_nil] at habove ⊢
    rw [List.append_assoc]
    exact .empty hi (hbelow h' (habove.mono fun j hj => List.mem_cons_of_mem i hj) hmark)
  | @statement i w u a ss hd hu ih =>
    obtain ⟨front, j, hj, rfl, hbelow⟩ := ih
    have hlast : (i :: w ++ u).getLast? = some j := by
      rw [List.getLast?_append_of_ne_nil _ hu.ne_nil, hj]
    refine ⟨statementNotes keep i ++ a :: front, j, hlast, by simp, ?_⟩
    intro v ss' h' habove hmark
    rw [List.dropLast_append_of_ne_nil hu.ne_nil] at habove ⊢
    have hitem : Above (i.bare :: w) v := fun j hj n hn => by
      obtain rfl | hj := List.mem_cons.1 hj
      · exact habove i (by simp) n hn
      · exact habove j (by simp [hj]) n hn
    -- The statement may have ended where the last item, which stands for the end of the text, was.
    rw [← List.dropLast_concat_getLast hu.ne_nil] at hd
    have hfile := hbelow h' (habove.mono fun j hj => List.mem_append_right _ hj) hmark
    rw [List.append_assoc, List.append_assoc]
    exact .statement (hd.below hitem h'.ne_nil hmark) hfile

/-- A file and another one below it are a file: the first ends where its last item, which
    stands for the end of its text, is left out. -/
theorem DerivesFile.append {ss ss' : List Statement} (h : DerivesFile false w ss)
    (h' : DerivesFile false v ss') (habove : Above w.dropLast v) :
    DerivesFile false (w.dropLast ++ v) (ss ++ ss') := by
  obtain ⟨front, i, -, rfl, hbelow⟩ := h.exists_front
  have hnone : statementNotes false i = [] := rfl
  rw [hnone, List.append_nil]
  exact hbelow h' habove nofun

end Grammar

end StyleDecl
