import StyleDecl.Proofs.Grammar.Sound.Members

/-!
# Reading types

What is read as a type is derived, given that what is read as a type within it is. Types are read
one level below the other, so this holds at any depth by induction.

* `operandRounds_sound`: the operands of a union or an intersection;
* `reads_typeExpr`: types.
-/

namespace StyleDecl.Grammar

open Reader

variable {s s' m : Stream}

section

variable {type : Reader TypeExpr} (ht : Reads type (Derives true .union))

include ht

theorem reads_primary : Reads (primary type) (Derives true .primary) := by
  intro s t s' h
  rw [primary, bind_of_ok sees_apply] at h
  split at h
  · next hid =>
    obtain ⟨i, m₁, hi, hik, h₁⟩ := advance_bind h (List.contains_iff_mem.1 hid) (by decide)
    obtain ⟨parts, m₂, hparts, h₂⟩ := bind_eq_ok_iff.1 h₁
    cases h₂
    obtain ⟨w, hw, hd⟩ := reads_nameParts hparts
    exact ⟨_, hi.append hw, .reference (List.mem_singleton.1 hik) hd⟩
  · rw [bind_of_ok sees_apply] at h
    split at h
    · next hlit =>
      obtain ⟨i, m₁, hi, hik, h₁⟩ := advance_bind h (List.contains_iff_mem.1 hlit) (by decide)
      cases h₁
      exact ⟨[i], hi, .literal (by simpa using hik)⟩
    · rw [bind_of_ok sees_apply] at h
      split at h
      · obtain ⟨ms, m₁, hb, h₁⟩ := bind_eq_ok_iff.1 h
        cases h₁
        obtain ⟨_, hw, i, v, rfl, hik, hd⟩ := reads_body ht hb
        exact ⟨_, hw, .object hik hd⟩
      -- There is only a type in parentheses left.
      · obtain ⟨q, found, m₁, hq, hqm, h₁⟩ := skip?_bind h
        cases hqm with
        | absent =>
          rw [if_neg nofun] at h₁
          exact absurd h₁ reject_ne_ok
        | @present i hik =>
          rw [if_pos rfl] at h₁
          obtain ⟨t, m₂, htype, h₂⟩ := bind_eq_ok_iff.1 h₁
          obtain ⟨w, hw, hd⟩ := ht htype
          obtain ⟨j, m₃, hj, hjk, h₃⟩ := expect_one_bind h₂ nofun
          cases h₃
          exact ⟨_, hq.append (hw.append hj), .parentheses hik hd hjk⟩

theorem reads_arrayType : Reads (arrayType type) (Derives true .array) := by
  intro s t s' h
  obtain ⟨element, m₁, he, h₁⟩ := bind_eq_ok_iff.1 h
  obtain ⟨marks, m₂, hm, h₂⟩ := bind_eq_ok_iff.1 h₁
  cases h₂
  obtain ⟨w, hw, hd⟩ := reads_primary ht he
  obtain ⟨v, hv, hb⟩ := reads_arrayMarks hm
  exact ⟨_, hw.append hv, foldl_array marks element ▸ .array hd hb⟩

omit ht

/-- A mark with the operand after it, or nothing. -/
theorem operandRound_sound {p : Punct} {operand : Reader TypeExpr}
    {derives : List Item → TypeExpr → Prop} (ho : Reads operand derives) {r : Round TypeExpr}
    (h : operandRound p operand s = .ok r m) :
    (r = .done [] ∧ m = s) ∨ ∃ i w t, s.Passes (i :: w) m ∧ i.token.kind = .punct p ∧
      derives w t ∧ r = .more [t] := by
  obtain ⟨q, found, m₁, hq, hqm, h₁⟩ := skip?_bind h
  cases hqm with
  | absent =>
    obtain rfl := Stream.passes_nil_iff.1 hq
    cases h₁
    exact .inl ⟨rfl, rfl⟩
  | @present i hi =>
    rw [if_pos rfl] at h₁
    obtain ⟨t, m₂, ht, h₂⟩ := bind_eq_ok_iff.1 h₁
    cases h₂
    obtain ⟨w, hw, hd⟩ := ho ht
    exact .inr ⟨i, w, t, hq.append hw, hi, hd, rfl⟩

theorem operandRound_advances {p : Punct} {operand : Reader TypeExpr}
    {derives : List Item → TypeExpr → Prop} (ho : Reads operand derives) :
    Advances (operandRound p operand) := fun s m found h => by
  obtain ⟨h, -⟩ | ⟨i, w, t, hp, -⟩ := operandRound_sound ho h
  · cases h
  · exact length_lt_of_passes (List.cons_ne_nil _ _) hp

/-- The operands after the first, given what they derive one by one and together. -/
theorem operandRounds_sound {p : Punct} {operand : Reader TypeExpr}
    {derives : List Item → TypeExpr → Prop} (ho : Reads operand derives)
    (derivesAll : List Item → List TypeExpr → Prop) (hnil : derivesAll [] [])
    (hcons : ∀ {i w v t ts}, i.token.kind = .punct p → derives w t → derivesAll v ts →
      derivesAll (i :: w ++ v) (t :: ts))
    {ts : List TypeExpr} (h : Rounds (operandRound p operand) s ts s') :
    ∃ w, s.Passes w s' ∧ derivesAll w ts := by
  induction h with
  | done h =>
    obtain ⟨hr, rfl⟩ | ⟨_, _, _, _, _, _, hr⟩ := operandRound_sound ho h <;> cases hr
    exact ⟨[], .nil _, hnil⟩
  | more h _ ih =>
    obtain ⟨v, hv, hdv⟩ := ih
    obtain ⟨hr, -⟩ | ⟨i, w, t, hp, hik, hd, hr⟩ := operandRound_sound ho h <;> cases hr
    exact ⟨_, hp.append hv, hcons hik hd hdv⟩

/-- An operand, perhaps behind a mark, and further ones. -/
theorem chain_sound {p : Punct} {operand : Reader TypeExpr}
    {derives : List Item → TypeExpr → Prop} (ho : Reads operand derives) {ts : List TypeExpr}
    (h : chain p operand s = .ok ts s') :
    ∃ l lead w t us m, s.Passes (l ++ w) m ∧ Maybe (.punct p) l lead ∧ derives w t ∧
      Rounds (operandRound p operand) m us s' ∧ ts = t :: us := by
  obtain ⟨l, lead, m₁, hl, hlm, h₁⟩ := skip?_bind h
  obtain ⟨t, m₂, ht, h₂⟩ := bind_eq_ok_iff.1 h₁
  obtain ⟨us, m₃, hus, h₃⟩ := bind_eq_ok_iff.1 h₂
  cases h₃
  obtain ⟨w, hw, hd⟩ := ho ht
  exact ⟨l, lead, w, t, us, m₂, hl.append hw, hlm, hd,
    (gather_eq_ok_iff (operandRound_advances ho)).1 hus, rfl⟩

include ht

theorem reads_intersection : Reads (intersection type) (Derives true .intersection) := by
  intro s t s' h
  obtain ⟨ts, m, hc, h₁⟩ := bind_eq_ok_iff.1 h
  cases h₁
  have ho := reads_arrayType ht
  obtain ⟨l, lead, w, t, us, m, hp, hlm, hd, hus, rfl⟩ := chain_sound ho hc
  obtain ⟨v, hv, hdv⟩ := operandRounds_sound ho (Derives true .factors) .noFactor .factor hus
  exact ⟨_, hp.append hv, .intersection hlm hd hdv joined_combined⟩

theorem reads_union : Reads (union type) (Derives true .union) := by
  intro s t s' h
  obtain ⟨ts, m, hc, h₁⟩ := bind_eq_ok_iff.1 h
  cases h₁
  have ho := reads_intersection ht
  obtain ⟨l, lead, w, t, us, m, hp, hlm, hd, hus, rfl⟩ := chain_sound ho hc
  obtain ⟨v, hv, hdv⟩ :=
    operandRounds_sound ho (Derives true .alternatives) .noAlternative .alternative hus
  exact ⟨_, hp.append hv, .union hlm hd hdv joined_combined⟩

end

theorem reads_nested (depth : Nat) : Reads (nested depth) (Derives true .union) := by
  induction depth with
  | zero => exact fun _ _ _ h => absurd h reject_ne_ok
  | succ depth ih => exact reads_union ih

theorem reads_typeExpr : Reads typeExpr (Derives true .union) := fun _ _ _ h => reads_nested _ h

end StyleDecl.Grammar
