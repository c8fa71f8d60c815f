import StyleDecl.Proofs.Grammar.Complete.Ends

/-!
# Derived types are read

Types are taken as what they derive, given that the types within them are.

* `Symbol.Taken`: that what a symbol derives is taken;
* `chain_of_takes`: the operands of a union or an intersection;
* `takes_array`, `takes_reference`, `takes_literal`, `takes_object`, `takes_parentheses`: the other
  types.
-/

namespace StyleDecl.Grammar

open Reader

variable {s s' m m' : Stream} {keep : Bool} {i : Item} {w v : List Item}

/-! ### Types and members, given the types within them -/

/-- That a list of items is taken as what it derives, given how to read the types
    within it. -/
def Symbol.Taken (type : Reader TypeExpr) : (c : Symbol) → List Item → c.Value → Prop
  | .union => Takes (Reader.union type) EndsUnion
  | .intersection => Takes (Reader.intersection type) EndsIntersection
  | .array => Takes (arrayType type) EndsArray
  | .primary => Takes (Reader.primary type) EndsName
  | .alternatives => Takes (gather (operandRound .pipe (Reader.intersection type))) EndsUnion
  | .factors => Takes (gather (operandRound .ampersand (arrayType type))) EndsIntersection
  | .parameter => Takes (Reader.parameter type) EndsUnion
  | .parameters => Takes (closed (parameterRound type) .closeParen) fun _ => True
  | .member => Takes (Reader.member type) EndsUnion
  | .members => Takes (closed (memberRound type) .closeBrace) fun _ => True

section

variable {type : Reader TypeExpr}

theorem takes_noOperand {p : Punct} {operand : Reader TypeExpr}
    (ho : Advances (operandRound p operand)) {ends : Stream → Prop}
    (he : ∀ ⦃s⦄, ends s → (s.ahead 0).kind ≠ .punct p) :
    Takes (gather (operandRound p operand)) ends [] [] := by
  intro s s' hp h
  obtain rfl := Stream.passes_nil_iff.1 hp
  refine gather_of_done ho ?_
  rw [operandRound, bind_of_ok (skip?_of_ne (he h))]
  rfl

theorem operandRound_of_takes {p : Punct} {operand : Reader TypeExpr} {ends : Stream → Prop}
    {t : TypeExpr} (hi : i.token.kind = .punct p) (hw : Takes operand ends w t)
    (hp : s.Passes (i :: w) m) (he : ends m) : operandRound p operand s = .ok (.more [t]) m := by
  obtain ⟨m₁, h₁, hp⟩ := Passes.uncons hp
  rw [operandRound, bind_of_ok (skip?_of_passes h₁ hi), if_pos rfl, bind_of_ok (hw hp he)]
  rfl

/-- The items of an intersection or a union, given its operands. -/
theorem chain_of_takes {p : Punct} {operand : Reader TypeExpr} {ends endsAll : Stream → Prop}
    {l : List Item} {lead : Bool} {t : TypeExpr} {ts : List TypeExpr} (hl : Maybe (.punct p) l lead)
    (hw : Takes operand ends w t) (hv : Takes (gather (operandRound p operand)) endsAll v ts)
    (hp : s.Passes (l ++ w ++ v) s') (he : endsAll s')
    (hfirst : ∀ ⦃m m' : Stream⦄, m.Passes w m' → (m.ahead 0).kind ≠ .punct p)
    (hends : ∀ ⦃m : Stream⦄, m.Passes v s' → ends m) : chain p operand s = .ok (t :: ts) s' := by
  obtain ⟨m₂, hp, h₃⟩ := Stream.passes_append_iff.1 hp
  obtain ⟨m₁, h₁, h₂⟩ := Stream.passes_append_iff.1 hp
  rw [chain, bind_of_ok (skip?_of_maybe hl h₁ (hfirst h₂)), bind_of_ok (hw h₂ (hends h₃)),
    bind_of_ok (hv h₃ he)]
  rfl

/-- What comes after an operand of an intersection does not go on with it. -/
theorem endsArray_of_factors {ts : List TypeExpr} (h : Derives keep .factors v ts)
    (hp : s.Passes v s') (he : EndsIntersection s') : EndsArray s := by
  cases h with
  | noFactor =>
    obtain rfl := Stream.passes_nil_iff.1 hp
    exact he.1
  | factor hi _ _ =>
    have hk : (s.ahead 0).kind = .punct .ampersand := by rw [hp.ahead_zero, hi]
    exact ⟨endsName_of_kind hk nofun, by rw [hk]; nofun⟩

/-- What comes after an operand of a union does not go on with it. -/
theorem endsIntersection_of_alternatives {ts : List TypeExpr}
    (h : Derives keep .alternatives v ts) (hp : s.Passes v s') (he : EndsUnion s') :
    EndsIntersection s := by
  cases h with
  | noAlternative =>
    obtain rfl := Stream.passes_nil_iff.1 hp
    exact he.1
  | alternative hi _ _ =>
    have hk : (s.ahead 0).kind = .punct .pipe := by rw [hp.ahead_zero, hi]
    exact ⟨⟨endsName_of_kind hk nofun, by rw [hk]; nofun⟩, by rw [hk]; nofun⟩

theorem endsName_of_brackets {n : Nat} (h : Brackets v n) (hp : s.Passes v s') (he : EndsArray s') :
    EndsName s := by
  cases h with
  | nil =>
    obtain rfl := Stream.passes_nil_iff.1 hp
    exact he.1
  | cons hb _ _ =>
    have hk : (s.ahead 0).kind = .punct .openBracket := by rw [hp.ahead_zero, hb]
    exact endsName_of_kind hk nofun

theorem takes_array {t : TypeExpr} {n : Nat} (hw : Symbol.primary.Taken type w t)
    (hv : Brackets v n) : Symbol.array.Taken type (w ++ v) (TypeExpr.array^[n] t) := by
  intro s s' hp he
  obtain ⟨m, h₁, h₂⟩ := Stream.passes_append_iff.1 hp
  rw [arrayType, bind_of_ok (hw h₁ (endsName_of_brackets hv h₂ he)),
    bind_of_ok (takes_arrayMarks hv h₂ he), foldl_array, List.length_replicate]
  rfl

theorem takes_reference {parts : List String} (hi : i.token.kind = .identifier)
    (hw : NameParts w parts) :
    Symbol.primary.Taken type (i :: w) (.reference (".".intercalate (i.token.text :: parts))) := by
  intro s s' hp he
  obtain ⟨m, h₁, h₂⟩ := Passes.uncons hp
  rw [Reader.primary, bind_of_ok sees_apply, h₁.ahead_zero, hi, if_pos (by simp),
    bind_of_ok (advance_of_passes h₁), bind_of_ok (takes_nameParts hw h₂ he)]
  rfl

theorem takes_literal (hi : i.token.kind = .string ∨ i.token.kind = .number) :
    Symbol.primary.Taken type [i] (.literal i.token.text) := by
  intro s s' hp he
  rw [Reader.primary, bind_of_ok sees_apply, hp.ahead_zero,
    if_neg (by rcases hi with hi | hi <;> simp [hi]), bind_of_ok sees_apply, hp.ahead_zero,
    if_pos (by rcases hi with hi | hi <;> simp [hi]), bind_of_ok (advance_of_passes hp)]
  rfl

/-- The members of a body, behind the brace that opens it. -/
theorem body_of_taken {ms : List Member} (hi : i.token.kind = .punct .openBrace)
    (hw : Symbol.members.Taken type w ms) (hp : s.Passes (i :: w) s') :
    body type s = .ok ms s' := by
  obtain ⟨m, h₁, h₂⟩ := Passes.uncons hp
  rw [body, bind_of_ok (expect_one_of_passes h₁ hi)]
  exact hw h₂ trivial

theorem takes_object {ms : List Member} (hi : i.token.kind = .punct .openBrace)
    (hw : Symbol.members.Taken type w ms) : Symbol.primary.Taken type (i :: w) (.object ms) := by
  intro s s' hp he
  rw [Reader.primary, bind_of_ok sees_apply, hp.ahead_zero, hi, if_neg (by simp),
    bind_of_ok sees_apply, hp.ahead_zero, hi, if_neg (by simp), bind_of_ok sees_apply,
    hp.ahead_zero, hi, if_pos (by simp), bind_of_ok (body_of_taken hi hw hp)]
  rfl

theorem takes_parentheses {j : Item} {t : TypeExpr} (hi : i.token.kind = .punct .openParen)
    (hw : Takes type EndsUnion w t) (hj : j.token.kind = .punct .closeParen) :
    Symbol.primary.Taken type (i :: w ++ [j]) t := by
  intro s s' hp he
  obtain ⟨m, h₁, hp⟩ := Passes.uncons hp
  obtain ⟨m₁, h₂, h₃⟩ := Stream.passes_append_iff.1 hp
  have hclose : EndsUnion m₁ := endsUnion_of_kind (by rw [h₃.ahead_zero, hj]) (by decide)
  rw [Reader.primary, bind_of_ok sees_apply, h₁.ahead_zero, hi, if_neg (by simp),
    bind_of_ok sees_apply, h₁.ahead_zero, hi, if_neg (by simp), bind_of_ok sees_apply,
    h₁.ahead_zero, hi, if_neg (by simp), bind_of_ok (skip?_of_passes h₁ hi), if_pos rfl,
    bind_of_ok (hw h₂ hclose), bind_of_ok (expect_one_of_passes h₃ hj)]
  rfl

end

end StyleDecl.Grammar
