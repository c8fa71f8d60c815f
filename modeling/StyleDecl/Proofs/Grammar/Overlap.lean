import Mathlib.Data.List.Forall2
import StyleDecl.Proofs.Grammar.Tandem.Statements

/-!
# Streams that begin alike

What is read depends on what was read and on the next two tokens only, and on the second of
them only where the first does not close the text. So two streams that begin alike are read
alike up to the place where fewer than two tokens are left that they have in common. They are
read alike to the end if all they have in common closes the text.

* `Overlap`: streams that begin alike;
* `Overlap.tandem`: they go together.
-/

namespace StyleDecl

/-- The same token, perhaps in another column. -/
structure Token.Alike (t u : Token) : Prop where
  kind : t.kind = u.kind
  text : t.text = u.text
  line : t.line = u.line
  endLine : t.endLine = u.endLine

theorem Token.Alike.refl (t : Token) : t.Alike t := ⟨rfl, rfl, rfl, rfl⟩

open Grammar

/-- How two streams begin alike and what they go on with. -/
structure Overlap where
  /-- The tokens that count for one another. -/
  Same : Token → Token → Prop
  refl : ∀ t, Same t t
  alike : ∀ {t u}, Same t u → t.Alike u
  /-- Whether what the streams have in common closes the text. -/
  whole : Bool
  /-- What one of them goes on with. -/
  rest : List Item
  /-- What the other one goes on with. -/
  rest' : List Item

namespace Overlap

variable (o : Overlap) {b : Bool} {n : Nat} {s t : Stream} {i : Item} {v w : List Item}

/-- Items that count for one another, with the same comments before them. -/
def SameItem (i j : Item) : Prop := i.comments = j.comments ∧ o.Same i.token j.token

/-- There is enough in common to read one more token. -/
def Ample (w : List Item) : Prop :=
  (o.whole = true ∧ Closed w) ∨ (o.whole = false ∧ 2 ≤ w.length)

/-- Where fewer items are left, there may be too little in common. -/
def reach : Nat := if o.whole then 0 else o.rest.length + 2

/-- Streams that begin alike. If they are settled, what was read from them last is alike too. -/
structure Meets (settled : Bool) (bound : Nat) (s t : Stream) (w w' : List Item) : Prop where
  left : s.items = w ++ o.rest
  right : t.items = w' ++ o.rest'
  same : List.Forall₂ o.SameItem w w'
  ample : o.Ample w
  bound : w.length < bound
  last : settled = true → o.Same s.last t.last

variable {o}

theorem Ample.uncons (h : o.Ample w) : ∃ i v, w = i :: v := by
  refine List.exists_cons_of_ne_nil ?_
  rintro rfl
  obtain ⟨-, h⟩ | ⟨-, h⟩ := h
  · cases h
  · exact absurd h (Nat.not_succ_le_zero 1)

/-- If the token at hand does not close the text, there is a second one. -/
theorem Ample.ne_nil (h : o.Ample (i :: v)) (hi : i.token.kind ≠ .eof) : v ≠ [] := by
  obtain ⟨-, h⟩ | ⟨-, h⟩ := h
  · exact ((closed_cons_iff hi).1 h).ne_nil
  · rintro rfl
    exact absurd h (Nat.lt_irrefl 1)

theorem Ample.bare (h : o.Ample (i :: v)) : o.Ample (i.bare :: v) := by
  refine h.imp_left (And.imp_right fun hc => ?_)
  cases hc with
  | last hi => exact .last hi
  | cons hi hv => exact .cons hi hv

/-- A token that does not close the text is taken from what the streams have in common. -/
theorem Ample.tail (h : o.Ample (i :: v)) (hi : i.token.kind ≠ .eof) :
    v.length + o.rest.length < o.reach ∨ o.Ample v := by
  obtain ⟨ho, h⟩ | ⟨ho, h⟩ := h
  · exact .inr (.inl ⟨ho, (closed_cons_iff hi).1 h⟩)
  · rw [reach, if_neg (by simp [ho])]
    rw [List.length_cons] at h
    obtain hv | hv := Nat.lt_or_ge v.length 2
    · exact .inl (by omega)
    · exact .inr (.inr ⟨ho, hv⟩)

namespace Meets

variable {w' : List Item}

theorem uncons (h : o.Meets b n s t w w') : ∃ i v j v', w = i :: v ∧ w' = j :: v' ∧
    o.SameItem i j ∧ List.Forall₂ o.SameItem v v' := by
  obtain ⟨i, v, rfl⟩ := h.ample.uncons
  obtain ⟨j, v', hij, hv, rfl⟩ := List.forall₂_cons_left_iff.1 h.same
  exact ⟨i, v, j, v', rfl, rfl, hij, hv⟩

theorem ahead (h : o.Meets b n s t w w') : o.Same (s.ahead 0) (t.ahead 0) := by
  obtain ⟨i, v, j, v', rfl, rfl, hij, -⟩ := h.uncons
  rw [Stream.ahead_zero h.left, Stream.ahead_zero h.right]
  exact hij.2

theorem next (h : o.Meets b n s t w w') (hs : (s.ahead 0).kind ≠ .eof) :
    o.Same (s.ahead 1) (t.ahead 1) := by
  -- Two tokens are in common here: that is why streams part before they have run out of them.
  obtain ⟨i, v, j, v', rfl, rfl, -, hv⟩ := h.uncons
  rw [Stream.ahead_zero h.left] at hs
  obtain ⟨k, v, rfl⟩ := List.exists_cons_of_ne_nil (h.ample.ne_nil hs)
  obtain ⟨l, v', hkl, -, rfl⟩ := List.forall₂_cons_left_iff.1 hv
  rw [Stream.ahead_one h.left, Stream.ahead_one h.right,
    Stream.ahead_zero (Stream.items_afterToken h.left),
    Stream.ahead_zero (Stream.items_afterToken h.right)]
  exact hkl.2

theorem comments (h : o.Meets b n s t w w') : s.comments = t.comments := by
  obtain ⟨i, v, j, v', rfl, rfl, hij, -⟩ := h.uncons
  rw [Stream.comments_eq h.left, Stream.comments_eq h.right, hij.1]

theorem afterComments (h : o.Meets b n s t w w') :
    ∃ v v', o.Meets b n s.afterComments t.afterComments v v' := by
  obtain ⟨i, v, j, v', rfl, rfl, hij, hv⟩ := h.uncons
  refine ⟨i.bare :: v, j.bare :: v', Stream.items_afterComments h.left,
    Stream.items_afterComments h.right, .cons ⟨rfl, hij.2⟩ hv, h.ample.bare, h.bound, fun hb => ?_⟩
  simp only [Stream.afterComments, h.left, h.right, List.cons_append, hij.1]
  cases j.comments.getLast? with
  | none => exact h.last hb
  | some c => exact o.refl c

theorem afterToken (h : o.Meets b (n + 1) s t w w') (hs : (s.ahead 0).kind ≠ .eof) :
    s.afterToken.items.length < o.reach ∨
      ∃ v v', o.Meets true n s.afterToken t.afterToken v v' := by
  obtain ⟨i, v, j, v', rfl, rfl, hij, hv⟩ := h.uncons
  have hi := hs
  rw [Stream.ahead_zero h.left] at hi
  have hleft : s.afterToken.items = v ++ o.rest := Stream.items_afterToken h.left
  refine (h.ample.tail hi).imp (fun hl => ?_) fun ha => ?_
  · rwa [hleft, List.length_append]
  · refine ⟨v, v', hleft, Stream.items_afterToken h.right, hv, ha, ?_, fun _ => ?_⟩
    · exact Nat.lt_of_succ_lt_succ h.bound
    · rw [Stream.afterToken_last, Stream.afterToken_last]
      exact h.ahead

end Meets

variable (o) in
/-- Streams that begin alike go together. -/
def tandem : Tandem where
  Goes b n s t := ∃ w w', o.Meets b n s t w w'
  Same := o.Same
  reach := o.reach
  same_refl := o.refl
  kind h := (o.alike h).kind
  text h := (o.alike h).text
  line h := (o.alike h).line
  endLine h := (o.alike h).endLine
  mono := fun ⟨w, w', h⟩ hb hn =>
    ⟨w, w', h.left, h.right, h.same, h.ample, Nat.lt_of_lt_of_le h.bound hn,
      fun h' => h.last (hb h')⟩
  not_zero := fun ⟨_, _, h⟩ => Nat.not_lt_zero _ h.bound
  tight := fun ⟨w, w', h⟩ => by
    refine ⟨w.length + 1, h.bound, ⟨w, w', { h with bound := Nat.lt_succ_self _ }⟩, ?_, ?_⟩
    · rw [h.left, List.length_append]
      omega
    · rw [h.right, List.length_append, h.same.length_eq]
      omega
  ahead := fun ⟨_, _, h⟩ => h.ahead
  next := fun ⟨_, _, h⟩ => h.next
  last := fun ⟨_, _, h⟩ => h.last rfl
  comments := fun ⟨_, _, h⟩ => h.comments
  afterComments := fun ⟨_, _, h⟩ => h.afterComments
  afterToken := fun ⟨_, _, h⟩ => h.afterToken

end Overlap

end StyleDecl
