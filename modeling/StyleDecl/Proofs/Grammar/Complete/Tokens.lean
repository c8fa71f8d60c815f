import StyleDecl.Proofs.Grammar.Sound.Tokens

/-!
# What is derived is read

A list of items that derives something is taken as a whole, and what is made of it
is what it derives (`Takes`), on every stream where what comes after does not go on
with it. Readers take as much as they can, so each symbol has its own condition on
what comes after (`EndsName`, `EndsArray`, `EndsIntersection`, `EndsUnion`), and
nothing that may come after a type in a derivation violates it.

* `Takes`: a list of items that is taken as a whole;
* `expect_of_passes`, `skip?_of_maybe`, `advance_of_passes`: single tokens;
* `takes_nameParts`, `takes_arrayMarks`: loops over tokens.
-/

namespace StyleDecl.Grammar

open Reader

variable {α : Type} {s s' m : Stream} {i : Item} {w : List Item}

/-! ### What goes on -/

/-- The token at hand does not go on a dotted name. -/
def EndsName (s : Stream) : Prop := (s.ahead 0).kind ≠ .punct .dot

/-- The tokens at hand do not go on an array. -/
def EndsArray (s : Stream) : Prop :=
  EndsName s ∧
    ¬((s.ahead 0).kind = .punct .openBracket ∧ (s.ahead 1).kind = .punct .closeBracket)

/-- The tokens at hand do not go on an intersection. -/
def EndsIntersection (s : Stream) : Prop := EndsArray s ∧ (s.ahead 0).kind ≠ .punct .ampersand

/-- The tokens at hand do not go on a union, nor any other type. -/
def EndsUnion (s : Stream) : Prop := EndsIntersection s ∧ (s.ahead 0).kind ≠ .punct .pipe

theorem endsName_of_kind {k : Kind} (h : (s.ahead 0).kind = k) (hk : k ≠ .punct .dot) :
    EndsName s := by
  subst h
  exact hk

theorem endsUnion_of_kind {k : Kind} (h : (s.ahead 0).kind = k)
    (hk : k ∉ [Kind.punct .dot, .punct .openBracket, .punct .ampersand, .punct .pipe]) :
    EndsUnion s := by
  simp only [List.mem_cons, List.not_mem_nil, or_false, not_or] at hk
  obtain ⟨h₁, h₂, h₃, h₄⟩ := hk
  subst h
  exact ⟨⟨⟨h₁, fun he => h₂ he.1⟩, h₃⟩, h₄⟩

theorem endsUnion_congr (h : ∀ n, s.ahead n = s'.ahead n) : EndsUnion s ↔ EndsUnion s' := by
  simp only [EndsUnion, EndsIntersection, EndsArray, EndsName, h]

/-- The items `w` are taken as `a` wherever what comes after them `ends` it. -/
def Takes (reader : Reader α) (ends : Stream → Prop) (w : List Item) (a : α) : Prop :=
  ∀ ⦃s s'⦄, s.Passes w s' → ends s' → reader s = .ok a s'

/-! ### Tokens -/

theorem Passes.uncons (h : s.Passes (i :: w) s') : ∃ m, s.Passes [i] m ∧ m.Passes w s' :=
  Stream.passes_append_iff.1 h

theorem expect_of_passes {kinds : List Kind} {detail : String} (h : s.Passes [i] m)
    (hi : i.token.kind ∈ kinds) : expect kinds detail s = .ok i.token m := by
  obtain ⟨⟨rest, hs⟩, hm⟩ := Stream.passes_cons_iff.1 h
  rw [Stream.passes_nil_iff.1 hm]
  exact expect_of_mem hs hi

theorem expect_one_of_passes {kind : Kind} {detail : String} (h : s.Passes [i] m)
    (hi : i.token.kind = kind) : expect [kind] detail s = .ok i.token m :=
  expect_of_passes h (List.mem_singleton.2 hi)

theorem advance_of_passes (h : s.Passes [i] m) : advance s = .ok i.token m := by
  obtain ⟨⟨rest, hs⟩, hm⟩ := Stream.passes_cons_iff.1 h
  rw [Stream.passes_nil_iff.1 hm, advance_apply, Stream.ahead_zero hs]

theorem ahead_one_of_passes (h : s.Passes [i] m) : s.ahead 1 = m.ahead 0 := by
  obtain ⟨⟨rest, hs⟩, hm⟩ := Stream.passes_cons_iff.1 h
  rw [Stream.passes_nil_iff.1 hm, Stream.ahead_one hs]

theorem skip?_of_passes {p : Punct} (h : s.Passes [i] m) (hi : i.token.kind = .punct p) :
    skip? p s = .ok true m := by
  obtain ⟨⟨rest, hs⟩, hm⟩ := Stream.passes_cons_iff.1 h
  rw [Stream.passes_nil_iff.1 hm]
  exact skip?_of_eq hs hi

theorem skip?_of_maybe {p : Punct} {b : Bool} (hw : Maybe (.punct p) w b) (h : s.Passes w m)
    (hm : (m.ahead 0).kind ≠ .punct p) : skip? p s = .ok b m := by
  cases hw with
  | absent =>
    obtain rfl := Stream.passes_nil_iff.1 h
    exact skip?_of_ne hm
  | present hi => exact skip?_of_passes h hi

theorem Maybe.head {k : Kind} {b : Bool} (hw : Maybe k w b) (h : s.Passes w m) :
    (s.ahead 0).kind = k ∨ s = m := by
  cases hw with
  | absent => exact .inr (Stream.passes_nil_iff.1 h).symm
  | present hi => exact .inl (by rw [h.ahead_zero, hi])

/-! ### Loops -/

theorem gather_of_done {round : Reader (Round α)} (hr : Advances round) {found : List α}
    (h : round s = .ok (.done found) s') : gather round s = .ok found s' :=
  (gather_eq_ok_iff hr).2 (.done h)

theorem gather_of_more {round : Reader (Round α)} (hr : Advances round) {found others : List α}
    (h : round s = .ok (.more found) m) (ho : gather round m = .ok others s') :
    gather round s = .ok (found ++ others) s' :=
  (gather_eq_ok_iff hr).2 (.more h ((gather_eq_ok_iff hr).1 ho))

/-- A round that finds one thing. -/
theorem gather_of_one {round : Reader (Round α)} (hr : Advances round) {a : α} {others : List α}
    (h : round s = .ok (.more [a]) m) (ho : gather round m = .ok others s') :
    gather round s = .ok (a :: others) s' :=
  gather_of_more hr h ho

/-- The rounds of a loop and the mark that closes it. -/
def closed (round : Reader (Round α)) (p : Punct) : Reader (List α) := do
  let found ← gather round
  let _ ← expect [.punct p]
  return found

theorem closed_of_gather {round : Reader (Round α)} {p : Punct} {found : List α}
    (h : gather round s = .ok found m) (hp : m.Passes [i] s') (hi : i.token.kind = .punct p) :
    closed round p s = .ok found s' := by
  rw [closed, bind_of_ok h, bind_of_ok (expect_one_of_passes hp hi)]
  rfl

theorem closed_of_more {round : Reader (Round α)} (hr : Advances round) {p : Punct}
    {found others : List α} (h : round s = .ok (.more found) m)
    (ho : closed round p m = .ok others s') : closed round p s = .ok (found ++ others) s' := by
  obtain ⟨found', m₁, hg, h₁⟩ := bind_eq_ok_iff.1 ho
  obtain ⟨t, m₂, ht, h₂⟩ := bind_eq_ok_iff.1 h₁
  cases h₂
  rw [closed, bind_of_ok (gather_of_more hr h hg), bind_of_ok ht]
  rfl

theorem takes_nameParts {parts : List String} (h : NameParts w parts) :
    Takes nameParts EndsName w parts := by
  intro s s' hp he
  induction h generalizing s with
  | nil =>
    obtain rfl := Stream.passes_nil_iff.1 hp
    refine gather_of_done namePartRound_advances ?_
    rw [namePartRound, bind_of_ok (skip?_of_ne he)]
    rfl
  | @cons d n w parts hd hn _ ih =>
    obtain ⟨m₁, h₁, hp⟩ := Passes.uncons hp
    obtain ⟨m₂, h₂, hp⟩ := Passes.uncons hp
    refine gather_of_one namePartRound_advances ?_ (ih hp)
    have hne : (m₁.ahead 0).kind ≠ .punct .dot := by rw [h₂.ahead_zero, hn]; nofun
    rw [namePartRound, bind_of_ok (skip?_of_maybe (.present hd) h₁ hne), if_pos rfl,
      bind_of_ok (expect_one_of_passes h₂ hn)]
    rfl

theorem takes_arrayMarks {n : Nat} (h : Brackets w n) :
    Takes arrayMarks EndsArray w (List.replicate n ()) := by
  intro s s' hp he
  induction h generalizing s with
  | nil =>
    obtain rfl := Stream.passes_nil_iff.1 hp
    refine gather_of_done arrayMarkRound_advances ?_
    rw [arrayMarkRound, bind_of_ok sees_apply]
    split
    · next hb =>
      have hc := fun hc => he.2 ⟨List.mem_singleton.1 (List.contains_iff_mem.1 hb), hc⟩
      rw [bind_of_ok (peek_apply 1), if_neg hc]
      rfl
    · rfl
  | @cons b c w n hb hc _ ih =>
    obtain ⟨m₁, h₁, hp⟩ := Passes.uncons hp
    obtain ⟨m₂, h₂, hp⟩ := Passes.uncons hp
    rw [List.replicate_succ]
    refine gather_of_one arrayMarkRound_advances ?_ (ih hp)
    rw [arrayMarkRound, bind_of_ok sees_apply, h₁.ahead_zero, hb, if_pos (by simp),
      bind_of_ok (peek_apply 1), ahead_one_of_passes h₁, h₂.ahead_zero, if_pos hc,
      bind_of_ok (advance_of_passes h₁), bind_of_ok (advance_of_passes h₂)]
    rfl

end StyleDecl.Grammar
