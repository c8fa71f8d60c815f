import StyleDecl.Proofs.Grammar.Complete.Tokens

/-!
# First tokens and ends

What comes after a type is the beginning of something else, or an end. Neither goes on with the
type: the tokens that a member or a type begins with are other ones.

* `starts_member`: the first tokens of a member;
* `endsUnion_of_members`: what stands before a member ends there;
* `terminator_of_terminator`, `endsUnion_of_terminator`: ends of declarations.
-/

namespace StyleDecl.Grammar

open Reader

variable {s s' m : Stream} {keep : Bool} {i : Item} {w v : List Item}

/-! ### First tokens -/

/-- The kinds of tokens that begin a type without marks. -/
def typeStarts : List Kind :=
  [.identifier, .string, .number, .punct .openBrace, .punct .openParen]

theorem Derives.starts_primary {t : TypeExpr} (h : Derives keep .primary w t) :
    ∃ i v, w = i :: v ∧ i.token.kind ∈ typeStarts := by
  cases h with
  | reference hi _ => exact ⟨_, _, rfl, by simp [typeStarts, hi]⟩
  | literal hi => exact ⟨_, _, rfl, by rcases hi with hi | hi <;> simp [typeStarts, hi]⟩
  | object hi _ => exact ⟨_, _, rfl, by simp [typeStarts, hi]⟩
  | parentheses hi _ _ => exact ⟨_, _, rfl, by simp [typeStarts, hi]⟩

theorem Derives.starts_array {t : TypeExpr} (h : Derives keep .array w t) :
    ∃ i v, w = i :: v ∧ i.token.kind ∈ typeStarts := by
  cases h with
  | array hw _ =>
    obtain ⟨i, u, rfl, hi⟩ := hw.starts_primary
    exact ⟨i, _, rfl, hi⟩

theorem Derives.starts_intersection {t : TypeExpr} (h : Derives keep .intersection w t) :
    ∃ i v, w = i :: v ∧ i.token.kind ∈ .punct .ampersand :: typeStarts := by
  cases h with
  | intersection hl hw _ _ =>
    cases hl with
    | absent =>
      obtain ⟨i, u, rfl, hi⟩ := hw.starts_array
      exact ⟨i, _, rfl, List.mem_cons_of_mem _ hi⟩
    | present hi => exact ⟨_, _, rfl, hi ▸ List.mem_cons_self⟩

theorem ne_ampersand_of_array {t : TypeExpr} (h : Derives keep .array w t) (hp : s.Passes w s') :
    (s.ahead 0).kind ≠ .punct .ampersand := by
  obtain ⟨i, v, rfl, hi⟩ := h.starts_array
  rw [hp.ahead_zero]
  exact fun he => absurd (he ▸ hi) (by decide)

theorem ne_pipe_of_intersection {t : TypeExpr} (h : Derives keep .intersection w t)
    (hp : s.Passes w s') : (s.ahead 0).kind ≠ .punct .pipe := by
  obtain ⟨i, v, rfl, hi⟩ := h.starts_intersection
  rw [hp.ahead_zero]
  exact fun he => absurd (he ▸ hi) (by decide)

theorem not_punct_of_mem_keys {k : Kind} (h : k ∈ Kind.keys) (p : Punct) : k ≠ .punct p := by
  rintro rfl
  simp [Kind.keys, Kind.names] at h

/-- The first tokens of a member. -/
theorem starts_member {a : Member} (h : Derives keep .member w a) (hp : s.Passes w s') :
    (s.ahead 0).kind = .punct .openParen ∨
      ((s.ahead 0).kind = .punct .openBracket ∧ (s.ahead 1).kind ∈ Kind.names) ∨
      (s.ahead 0).kind ∈ Kind.keys := by
  cases h with
  | call hi _ _ _ => exact .inl (by rw [hp.ahead_zero, hi])
  | index hi hn _ _ _ _ _ =>
    obtain ⟨m, h₁, h₂⟩ := Passes.uncons hp
    exact .inr (.inl ⟨by rw [h₁.ahead_zero, hi], by rwa [ahead_one_of_passes h₁, h₂.ahead_zero]⟩)
  | property hr hk _ _ _ =>
    cases hr with
    | absent => exact .inr (.inr (by rwa [hp.ahead_zero]))
    | present hi => exact .inr (.inr (by rw [hp.ahead_zero, hi]; decide))
  | method hk _ _ _ _ _ => exact .inr (.inr (by rwa [hp.ahead_zero]))

/-- A member begins neither with a closing brace nor at the end of the text. -/
theorem not_closed_of_member {a : Member} (h : Derives keep .member w a) (hp : s.Passes w s') :
    (s.ahead 0).kind ≠ .punct .closeBrace ∧ (s.ahead 0).kind ≠ .eof := by
  obtain h | ⟨h, -⟩ | h := starts_member h hp
  · rw [h]; exact ⟨nofun, nofun⟩
  · rw [h]; exact ⟨nofun, nofun⟩
  · exact ⟨not_punct_of_mem_keys h _, fun he => absurd (he ▸ h) (by decide)⟩

theorem endsUnion_of_member {a : Member} (h : Derives keep .member w a) (hp : s.Passes w s') :
    EndsUnion s := by
  obtain h | ⟨h, h'⟩ | h := starts_member h hp
  · exact endsUnion_of_kind h (by decide)
  · exact ⟨⟨⟨endsName_of_kind h nofun, fun he => absurd (he.2 ▸ h') (by decide)⟩,
      by rw [h]; nofun⟩, by rw [h]; nofun⟩
  · exact endsUnion_of_kind rfl (by simp [not_punct_of_mem_keys h])

theorem endsUnion_of_members {ms : List Member} (h : Derives keep .members w ms)
    (hp : s.Passes w s') : EndsUnion s := by
  cases h with
  | noMember hi => exact endsUnion_of_kind (by rw [hp.ahead_zero, hi]) (by decide)
  | @nextMember i w e v a ms hw _ _ =>
    rw [List.append_assoc] at hp
    obtain ⟨m, hiw, -⟩ := Stream.passes_append_iff.1 hp
    have he := endsUnion_of_member hw ((Stream.passes_afterComments_iff hiw.items).2 hiw)
    exact (endsUnion_congr (Stream.ahead_afterComments s)).1 he

/-! ### Ends of declarations -/

/-- An end is taken where it may stand, provided that what closes the enclosing body
    is no mark. -/
theorem terminator_of_terminator {closers : List Kind} {before e : List Item} {s₀ : Stream}
    (h : Terminator true closers before e v) (hb : s₀.Passes before s) (he : s.Passes e m)
    (hv : m.Passes v s') (hc : Kind.punct .semicolon ∉ closers ∧ Kind.punct .comma ∉ closers) :
    terminator closers s = .ok () m := by
  cases h with
  | @mark i _ hi =>
    rw [terminator, bind_of_ok sees_apply, he.ahead_zero, if_pos (by simpa [EndMark] using hi),
      bind_of_ok (advance_of_passes he)]
    rfl
  | @closer n _ hn hk =>
    obtain rfl := Stream.passes_nil_iff.1 he
    obtain ⟨u, rfl⟩ := List.head?_eq_some_iff.1 hn
    -- What closes the body is no mark, and is not taken for the end of the declaration.
    have hmark : ¬EndMark n.token := by
      rcases hk with hk | hk
      · rintro (hs | hs) <;> rw [hs] at hk
        · exact hc.1 hk
        · exact hc.2 hk
      · simp [EndMark, hk]
    rw [terminator, bind_of_ok sees_apply, hv.ahead_zero, if_neg (by simpa [EndMark] using hmark),
      bind_of_ok (peek_apply 0), hv.ahead_zero, if_pos (by simpa using hk)]
    rfl
  | @lineBreak l n _ hl hn hline hmark =>
    obtain rfl := Stream.passes_nil_iff.1 he
    obtain ⟨u, rfl⟩ := List.head?_eq_some_iff.1 hn
    rw [terminator, bind_of_ok sees_apply, hv.ahead_zero,
      if_neg (by simpa [EndMark] using hmark rfl), bind_of_ok (peek_apply 0), hv.ahead_zero]
    -- The token on the new line may be one that closes the body as well.
    split
    · rfl
    · rw [bind_of_ok previous_apply, hb.last hl, if_pos hline]
      rfl

/-- What comes after a declaration does not go on with its type, whether or not there
    is a mark. -/
theorem endsUnion_of_terminator {closers : List Kind} {before e : List Item}
    (h : Terminator keep closers before e v) (he : s.Passes e m) (hm : EndsUnion m) :
    EndsUnion s := by
  cases h with
  | mark hi =>
    rcases hi with hi | hi <;>
      exact endsUnion_of_kind (by rw [he.ahead_zero, hi]) (by decide)
  | closer | lineBreak => rwa [← Stream.passes_nil_iff.1 he]

end StyleDecl.Grammar
