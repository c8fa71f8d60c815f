import StyleDecl.Proofs.Grammar.Broken.Members

/-!
# Rejected types

What was taken of a type before it is rejected can be completed, given that what was taken of a type
within it can, and so at any depth.

* `breaks_chain`: the operands of a union or an intersection;
* `breaks_typeExpr`: types.
-/

namespace StyleDecl.Grammar

open Reader

variable {s s' m : Stream} {r : Rejection} {p : Position} {w v : List Item} {i : Item}

section

variable {type : Reader TypeExpr} (ht : Reads type (Derives true .union))
  (hb : Breaks p type (Yields .union))

include ht hb

omit ht hb in
theorem breaks_nameParts : Breaks p nameParts fun w => ∃ parts, NameParts w parts := by
  intro s r s' h
  have hup : Fails namePartRound s r s' := fails_of_gather h
  clear h
  induction hup with
  | now h =>
    refine broken_skip?_bind h fun u found m _ hu h₁ => ?_
    cases hu with
    | absent => cases h₁
    | present hu =>
      rw [if_pos rfl] at h₁
      obtain h₁ | ⟨_, _, -, h₁⟩ := bind_eq_error_iff.1 h₁
      · exact .here (standsAt_of_expect h₁) (completes_of_kinds [.identifier] (by decide)
          ⟨_, .cons hu rfl .nil⟩)
      · cases h₁
  | later h _ ih =>
    obtain ⟨hr, -⟩ | ⟨d, n, hp, hd, hn, -⟩ := namePartRound_sound h
    · cases hr
    · exact .after hp (ih.imp fun u ⟨parts, hu⟩ => ⟨_, .cons hd hn hu⟩)

theorem breaks_primary : Breaks p (primary type) (Yields .primary) := by
  intro s r s' h
  rw [primary, bind_of_ok sees_apply] at h
  split at h
  · next hid =>
    refine broken_advance_bind h (List.contains_iff_mem.1 hid) (by decide) fun i m₁ _ hi h₁ => ?_
    replace hi := List.mem_singleton.1 hi
    obtain h₁ | ⟨_, _, -, h₁⟩ := bind_eq_error_iff.1 h₁
    · refine (breaks_nameParts h₁).imp ?_
      rintro u ⟨parts, hu⟩
      exact ⟨_, .reference hi hu⟩
    · cases h₁
  rw [bind_of_ok sees_apply] at h
  split at h
  · rw [bind_of_ok advance_apply] at h
    cases h
  rw [bind_of_ok sees_apply] at h
  split at h
  · obtain h | ⟨_, _, -, h⟩ := bind_eq_error_iff.1 h
    · refine (breaks_body ht hb h).imp ?_
      rintro _ ⟨i, v, rfl, hi, ms, hv⟩
      exact ⟨_, .object hi hv⟩
    · cases h
  -- What begins no type is rejected before anything is taken, unless it is a parenthesis.
  refine broken_skip?_bind h fun u found m₁ _ hu h₁ => ?_
  cases hu with
  | absent =>
    rw [if_neg Bool.false_ne_true] at h₁
    exact .here (standsAt_of_reject h₁) (completes_of_kinds [.identifier] (by decide)
      (yields_primary p))
  | @present i hi =>
    rw [if_pos rfl] at h₁
    have hclose : ∀ u, Yields .union u → Completes p (fun u => Yields .primary ([i] ++ u)) u := by
      rintro u ⟨t, hu⟩
      exact completes_of_kinds [.punct .closeParen] (by decide)
        ⟨_, .parentheses hi hu (kind_made p (.punct .closeParen))⟩
    refine broken_bind h₁ hb ht hclose fun w t m₂ _ hd h₂ => ?_
    obtain h₂ | ⟨_, _, -, h₂⟩ := bind_eq_error_iff.1 h₂
    · refine .here (standsAt_of_expect h₂) ?_
      simpa [Completes] using hclose w hd.yields
    · cases h₂

omit ht hb in
theorem arrayMarks_ne_error : arrayMarks s ≠ .error r s' := by
  intro h
  have hup : Fails arrayMarkRound s r s' := fails_of_gather h
  clear h
  induction hup with
  | now h =>
    rw [arrayMarkRound, bind_of_ok sees_apply] at h
    split at h
    · rw [bind_of_ok (peek_apply 1)] at h
      split at h <;> cases h
    · cases h
  | later _ _ ih => exact ih

theorem breaks_arrayType : Breaks p (arrayType type) (Yields .array) := by
  intro s r s' h
  refine broken_bind h (breaks_primary ht hb) (reads_primary ht) (fun u hu => ?_) ?_
  · exact ⟨[], nofun, by simpa using hu.array_of_primary⟩
  · intro w t m _ _ h₁
    obtain h₁ | ⟨_, _, -, h₁⟩ := bind_eq_error_iff.1 h₁
    · exact absurd h₁ arrayMarks_ne_error
    · cases h₁

omit ht hb

/-- Operands from `c`, which together are derived from `d`. -/
theorem broken_operands {q : Punct} {operand : Reader TypeExpr} {c d : Symbol}
    {derives : List Item → TypeExpr → Prop} (ho : Reads operand derives)
    (hy : ∀ {w t}, derives w t → Yields c w) (hb : Breaks p operand (Yields c))
    (hnil : Yields d []) (hcons : ∀ {i w v}, i.token.kind = .punct q → Yields c w → Yields d v →
      Yields d (i :: w ++ v))
    (h : Fails (operandRound q operand) s r s') : Broken p s r s' (Yields d) := by
  induction h with
  | now h =>
    refine broken_skip?_bind h fun u found m _ hu h₁ => ?_
    cases hu with
    | absent => cases h₁
    | @present i hi =>
      rw [if_pos rfl] at h₁
      obtain h₁ | ⟨_, _, -, h₁⟩ := bind_eq_error_iff.1 h₁
      · exact (hb h₁).imp fun u hu => by simpa using hcons hi hu hnil
      · cases h₁
  | later h _ ih =>
    obtain ⟨hr, -⟩ | ⟨i, w, t, hp, hi, ht, -⟩ := operandRound_sound ho h
    · cases hr
    · exact .after hp (ih.imp fun u hu => hcons hi (hy ht) hu)

/-- An operand from `c`, perhaps behind a mark, and further ones. -/
theorem breaks_chain {q : Punct} {operand : Reader TypeExpr} {c d : Symbol}
    {derives : List Item → TypeExpr → Prop} (ho : Reads operand derives)
    (hy : ∀ {w t}, derives w t → Yields c w) (hb : Breaks p operand (Yields c))
    (hnil : Yields d []) (hcons : ∀ {i w v}, i.token.kind = .punct q → Yields c w → Yields d v →
      Yields d (i :: w ++ v)) :
    Breaks p (chain q operand) fun u =>
      ∃ l lead w v, u = l ++ w ++ v ∧ Maybe (.punct q) l lead ∧ Yields c w ∧ Yields d v := by
  intro s r s' h
  refine broken_skip?_bind h fun l lead m₁ _ hl h₁ => ?_
  refine broken_bind h₁ hb ho (fun u hu => ?_) fun w t m₂ _ ht h₂ => ?_
  · exact ⟨[], nofun, l, lead, u, [], by simp, hl, hu, hnil⟩
  obtain h₂ | ⟨_, _, -, h₂⟩ := bind_eq_error_iff.1 h₂
  · refine (broken_operands ho hy hb hnil hcons (fails_of_gather h₂)).imp fun v hv => ?_
    exact ⟨l, lead, w, v, (List.append_assoc ..).symm, hl, hy ht, hv⟩
  · cases h₂

include ht hb

theorem breaks_intersection : Breaks p (intersection type) (Yields .intersection) := by
  intro s r s' h
  obtain h | ⟨_, _, -, h⟩ := bind_eq_error_iff.1 h
  · refine (breaks_chain (d := .factors) (reads_arrayType ht) Derives.yields
      (breaks_arrayType ht hb) ⟨_, .noFactor⟩ (fun hi ⟨_, hw⟩ ⟨_, hv⟩ => ⟨_, .factor hi hw hv⟩)
      h).imp ?_
    rintro u ⟨l, lead, w, v, rfl, hl, ⟨t, hw⟩, ts, hv⟩
    exact ⟨_, .intersection hl hw hv joined_combined⟩
  · cases h

theorem breaks_union : Breaks p (union type) (Yields .union) := by
  intro s r s' h
  obtain h | ⟨_, _, -, h⟩ := bind_eq_error_iff.1 h
  · refine (breaks_chain (d := .alternatives) (reads_intersection ht) Derives.yields
      (breaks_intersection ht hb) ⟨_, .noAlternative⟩
      (fun hi ⟨_, hw⟩ ⟨_, hv⟩ => ⟨_, .alternative hi hw hv⟩) h).imp ?_
    rintro u ⟨l, lead, w, v, rfl, hl, ⟨t, hw⟩, ts, hv⟩
    exact ⟨_, .union hl hw hv joined_combined⟩
  · cases h

end

theorem breaks_nested (depth : Nat) : Breaks p (nested depth) (Yields .union) := by
  induction depth with
  | zero =>
    -- Out of depth nothing was taken, so any type completes it.
    exact fun s r s' h => .here (standsAt_of_reject h)
      (completes_of_kinds [.identifier] (by decide) (yields_union p))
  | succ depth ih => exact breaks_union (reads_nested depth) ih

theorem breaks_typeExpr : Breaks p typeExpr (Yields .union) := fun _ _ _ h => breaks_nested _ h

end StyleDecl.Grammar
