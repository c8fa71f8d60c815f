import StyleDecl.Decl.Stream

/-!
# Running readers

What reading does to a stream, in two relations:

* `Stream.Passes s w s'`: the items `w` are what lies between `s` and `s'`;
* `Reader.Rounds round s found s'`: the rounds of a loop, one after the other, lead
  from `s` to `s'` with all that they find.

A loop is bounded by the number of tokens, but a round that goes on takes a token,
so the bound is never met (`gather_eq_ok_iff`). Nothing else here says how far a
loop may run.
-/

namespace StyleDecl

/-! ### One step after the other -/

section

variable {ε σ α β : Type} {x : EStateM ε σ α} {f : α → EStateM ε σ β} {s m s' : σ} {a : α} {b : β}

theorem bind_eq_ok_iff :
    (x >>= f) s = .ok b s' ↔ ∃ a m, x s = .ok a m ∧ f a m = .ok b s' := by
  change EStateM.bind x f s = _ ↔ _
  unfold EStateM.bind
  cases x s with
  | ok a m => exact ⟨fun h => ⟨a, m, rfl, h⟩, fun ⟨_, _, hx, h⟩ => by cases hx; exact h⟩
  | error e m => exact ⟨nofun, fun ⟨_, _, hx, _⟩ => nomatch hx⟩

theorem bind_of_ok (h : x s = .ok a m) : (x >>= f) s = f a m := by
  change EStateM.bind x f s = _
  rw [EStateM.bind, h]

theorem bind_of_error {e : ε} (h : x s = .error e m) : (x >>= f) s = .error e m := by
  change EStateM.bind x f s = _
  rw [EStateM.bind, h]

/-- What comes after a step depends on what the step comes to only. -/
theorem bind_congr_left {y : EStateM ε σ α} {t : σ} (h : x s = y t) :
    (x >>= f) s = (y >>= f) t := by
  change EStateM.bind x f s = EStateM.bind y f t
  rw [EStateM.bind, EStateM.bind, h]

end

namespace Item

/-- An item without its comments. -/
def bare (i : Item) : Item := ⟨[], i.token⟩

@[simp] theorem token_bare (i : Item) : i.bare.token = i.token := rfl

theorem bare_of_comments_eq_nil {i : Item} (h : i.comments = []) : i.bare = i := by
  rw [bare, ← h]

/-- The tokens of items, comments included. -/
def spread (w : List Item) : List Token := w.flatMap fun i => i.comments ++ [i.token]

@[simp] theorem spread_cons (i : Item) (w : List Item) :
    spread (i :: w) = i.comments ++ i.token :: spread w := by
  simp [spread]

theorem spread_append (v w : List Item) : spread (v ++ w) = spread v ++ spread w :=
  List.flatMap_append

/-- Grouping loses no token if the last one is no comment. -/
theorem spread_group {ts : List Token} {e : Token} (he : e.kind ≠ .comment) :
    spread (group (ts ++ [e])) = ts ++ [e] := by
  induction ts with
  | nil => simp [group, he, spread]
  | cons t ts ih =>
    rw [List.cons_append, group]
    split
    · generalize group (ts ++ [e]) = w at ih
      cases w with
      | nil => simp [spread] at ih
      | cons i w => simpa using ih
    · simpa [spread_cons] using ih

end Item

namespace Stream

variable {s s' m : Stream} {i : Item} {w u v rest : List Item}

/-! ### The token at hand -/

theorem ahead_zero (h : s.items = i :: rest) : s.ahead 0 = i.token := by
  simp [ahead, h]

theorem ahead_one (h : s.items = i :: rest) : s.ahead 1 = s.afterToken.ahead 0 := by
  simp [ahead, afterToken, h]

theorem items_afterToken (h : s.items = i :: rest) : s.afterToken.items = rest := by
  simp [afterToken, h]

theorem last_afterToken (h : s.items = i :: rest) : s.afterToken.last = i.token := by
  simp [afterToken, h]

theorem afterToken_items (s : Stream) : s.afterToken.items = s.items.tail := by
  cases h : s.items <;> simp [afterToken, h]

theorem afterToken_final (s : Stream) : s.afterToken.final = s.final := by
  cases h : s.items <;> simp [afterToken, h]

theorem afterToken_last (s : Stream) : s.afterToken.last = s.ahead 0 := by
  cases h : s.items <;> simp [afterToken, ahead, h]

/-- A token at hand that does not close the text belongs to an item. -/
theorem exists_item (h : (s.ahead 0).kind ≠ .eof) :
    ∃ i rest, s.items = i :: rest ∧ i.token = s.ahead 0 := by
  cases hs : s.items with
  | nil => exact absurd s.final_kind (by simpa [ahead, hs] using h)
  | cons i rest => exact ⟨i, rest, rfl, (ahead_zero hs).symm⟩

/-! ### Comments at hand -/

theorem comments_eq (h : s.items = i :: rest) : s.comments = i.comments := by
  simp [comments, h]

theorem items_afterComments (h : s.items = i :: rest) : s.afterComments.items = i.bare :: rest := by
  simp [afterComments, h, Item.bare]

theorem afterComments_tokens (s : Stream) :
    s.afterComments.items.map Item.token = s.items.map Item.token := by
  cases h : s.items <;> simp [afterComments, h]

theorem afterComments_final (s : Stream) : s.afterComments.final = s.final := by
  cases h : s.items <;> simp [afterComments, h]

/-- Comments are not seen ahead. -/
@[simp] theorem ahead_afterComments (s : Stream) (n : Nat) :
    s.afterComments.ahead n = s.ahead n := by
  cases h : s.items with
  | nil => simp [afterComments, h]
  | cons i rest => cases n <;> simp [afterComments, ahead, h]

/-- A token is taken together with the comments before it. -/
theorem afterToken_afterComments (h : s.items = i :: rest) :
    s.afterComments.afterToken = s.afterToken := by
  simp [afterComments, afterToken, h]

/-! ### Passing items -/

/-- The stream `s` goes on as `s'` after the items `w`. -/
inductive Passes : Stream → List Item → Stream → Prop
  | nil (s : Stream) : Passes s [] s
  | cons {s s' : Stream} {i : Item} {w rest : List Item} :
    s.items = i :: rest → Passes s.afterToken w s' → Passes s (i :: w) s'

@[simp] theorem passes_nil_iff : s.Passes [] s' ↔ s' = s :=
  ⟨fun h => by cases h; rfl, fun h => h ▸ .nil s⟩

theorem passes_cons_iff :
    s.Passes (i :: w) s' ↔ (∃ rest, s.items = i :: rest) ∧ s.afterToken.Passes w s' :=
  ⟨fun h => by cases h with | cons hs hw => exact ⟨⟨_, hs⟩, hw⟩, fun ⟨⟨_, hs⟩, hw⟩ => .cons hs hw⟩

theorem Passes.append (hu : s.Passes u m) (hv : m.Passes v s') : s.Passes (u ++ v) s' := by
  induction hu with
  | nil => exact hv
  | cons hs _ ih => exact .cons hs (ih hv)

theorem passes_append_iff : s.Passes (u ++ v) s' ↔ ∃ m, s.Passes u m ∧ m.Passes v s' := by
  refine ⟨fun h => ?_, fun ⟨m, hu, hv⟩ => hu.append hv⟩
  induction u generalizing s with
  | nil => exact ⟨s, .nil s, h⟩
  | cons i u ih =>
    rw [List.cons_append, passes_cons_iff] at h
    obtain ⟨⟨rest, hs⟩, h⟩ := h
    obtain ⟨m, hu, hv⟩ := ih h
    exact ⟨m, .cons hs hu, hv⟩

theorem passes_one (h : s.items = i :: rest) : s.Passes [i] s.afterToken := .cons h (.nil _)

/-- All items can be passed. -/
theorem exists_passes (h : s.items = w ++ rest) : ∃ s', s.Passes w s' := by
  induction w generalizing s with
  | nil => exact ⟨s, .nil s⟩
  | cons i w ih =>
    obtain ⟨s', hs'⟩ := ih (items_afterToken h)
    exact ⟨s', .cons h hs'⟩

/-- What was passed and what is left make up the stream. -/
theorem Passes.items (h : s.Passes w s') : s.items = w ++ s'.items := by
  induction h with
  | nil => rfl
  | cons hs _ ih => rw [hs, List.cons_append, ← ih, items_afterToken hs]

theorem Passes.length (h : s.Passes w s') : s.items.length = w.length + s'.items.length := by
  rw [h.items, List.length_append]

/-- The token read last is the last one that was passed. -/
theorem Passes.last (h : s.Passes w s') (hi : i ∈ w.getLast?) : s'.last = i.token := by
  induction h with
  | nil => simp at hi
  | @cons s s' j w rest hs hw ih =>
    cases w with
    | nil =>
      obtain rfl := passes_nil_iff.1 hw
      rw [List.getLast?_singleton, Option.mem_some_iff] at hi
      rw [last_afterToken hs, hi]
    | cons k w => exact ih (by rwa [List.getLast?_cons_cons] at hi)

/-- The token at hand is the first one that is passed. -/
theorem Passes.ahead_zero (h : s.Passes (i :: w) s') : s.ahead 0 = i.token :=
  Stream.ahead_zero h.items

/-- Comments at hand may be passed first. -/
theorem passes_afterComments_iff (h : s.items = i :: rest) :
    s.afterComments.Passes (i.bare :: w) s' ↔ s.Passes (i :: w) s' := by
  rw [passes_cons_iff, passes_cons_iff, afterToken_afterComments h]
  exact and_congr_left' ⟨fun _ => ⟨_, h⟩, fun _ => ⟨_, items_afterComments h⟩⟩

end Stream

namespace Reader

variable {α β : Type} {s s' m : Stream} {i : Item} {rest : List Item} {kinds : List Kind}

/-! ### Readers -/

@[simp] theorem sees_apply : sees kinds s = .ok (kinds.contains (s.ahead 0).kind) s := rfl

@[simp] theorem peek_apply (n : Nat) : peek n s = .ok (s.ahead n) s := rfl

@[simp] theorem previous_apply : previous s = .ok s.last s := rfl

@[simp] theorem advance_apply : advance s = .ok (s.ahead 0) s.afterToken := rfl

@[simp] theorem takeComments_apply : takeComments s = .ok s.comments s.afterComments := rfl

@[simp] theorem reject_ne_ok {fault : Token → Fault} {a : α} : reject fault s ≠ .ok a s' := nofun

/-! ### One token -/

theorem expect_of_mem {detail : String} (h : s.items = i :: rest) (hi : i.token.kind ∈ kinds) :
    expect kinds detail s = .ok i.token s.afterToken := by
  rw [expect, bind_of_ok sees_apply, Stream.ahead_zero h, if_pos (List.contains_iff_mem.2 hi),
    advance_apply, Stream.ahead_zero h]

/-- Only a token of one of the expected kinds is taken. -/
theorem expect_eq_ok {detail : String} {t : Token} (hk : Kind.eof ∉ kinds)
    (h : expect kinds detail s = .ok t s') :
    ∃ i, s.Passes [i] s' ∧ i.token.kind ∈ kinds ∧ t = i.token := by
  rw [expect, bind_of_ok sees_apply] at h
  split at h
  · next hc =>
    rw [advance_apply] at h
    cases h
    have hmem := List.contains_iff_mem.1 hc
    obtain ⟨i, rest, hs, hi⟩ := Stream.exists_item fun he => hk (he ▸ hmem)
    exact ⟨i, Stream.passes_one hs, hi ▸ hmem, hi.symm⟩
  · exact absurd h reject_ne_ok

theorem skip?_of_eq {p : Punct} (h : s.items = i :: rest) (hi : i.token.kind = .punct p) :
    skip? p s = .ok true s.afterToken := by
  rw [skip?, bind_of_ok sees_apply, Stream.ahead_zero h, hi, if_pos (by simp)]
  rfl

theorem skip?_of_ne {p : Punct} (h : (s.ahead 0).kind ≠ .punct p) : skip? p s = .ok false s := by
  rw [skip?, bind_of_ok sees_apply, if_neg (by simpa using h)]
  rfl

/-- A mark is taken, or another token is at hand. -/
theorem skip?_eq_ok {p : Punct} {b : Bool} (h : skip? p s = .ok b s') :
    (b = true ∧ ∃ i, s.Passes [i] s' ∧ i.token.kind = .punct p) ∨
      (b = false ∧ s' = s ∧ (s.ahead 0).kind ≠ .punct p) := by
  by_cases hp : (s.ahead 0).kind = .punct p
  · obtain ⟨i, rest, hs, hi⟩ := Stream.exists_item (s := s) (by rw [hp]; nofun)
    rw [skip?_of_eq hs (hi ▸ hp)] at h
    cases h
    exact .inl ⟨rfl, i, Stream.passes_one hs, hi ▸ hp⟩
  · rw [skip?_of_ne hp] at h
    cases h
    exact .inr ⟨rfl, rfl, hp⟩

/-! ### Loops -/

/-- The rounds of a loop lead from one stream to another and find a list. -/
inductive Rounds (round : Reader (Round α)) : Stream → List α → Stream → Prop
  | done {s s' : Stream} {found : List α} :
    round s = .ok (.done found) s' → Rounds round s found s'
  | more {s m s' : Stream} {found others : List α} :
    round s = .ok (.more found) m → Rounds round m others s' →
      Rounds round s (found ++ others) s'

/-- A round takes a token unless it is the last one. -/
def Advances (round : Reader (Round α)) : Prop :=
  ∀ ⦃s m found⦄, round s = .ok (.more found) m → m.items.length < s.items.length

/-- As long as there are as many rounds left as tokens, the bound is not met. -/
theorem gatherUpTo_eq_ok_iff {round : Reader (Round α)} (hr : Advances round) {found : List α}
    {n : Nat} (hn : s.items.length < n) :
    gatherUpTo round n s = .ok found s' ↔ Rounds round s found s' := by
  induction n generalizing s found with
  | zero => exact absurd hn (Nat.not_lt_zero _)
  | succ n ih =>
    rw [gatherUpTo, bind_eq_ok_iff]
    constructor
    · rintro ⟨r, m, hround, h⟩
      cases r with
      | done found' =>
        cases h
        exact .done hround
      | more found' =>
        obtain ⟨others, m', hothers, h⟩ := bind_eq_ok_iff.1 h
        cases h
        exact .more hround ((ih (by have := hr hround; omega)).1 hothers)
    · intro h
      cases h with
      | done hround => exact ⟨_, _, hround, rfl⟩
      | more hround hothers =>
        have hlt := hr hround
        exact ⟨_, _, hround, bind_of_ok ((ih (by omega)).2 hothers)⟩

/-- A loop comes to what its rounds come to. -/
theorem gather_eq_ok_iff {round : Reader (Round α)} (hr : Advances round) {found : List α} :
    gather round s = .ok found s' ↔ Rounds round s found s' :=
  gatherUpTo_eq_ok_iff hr (Nat.lt_succ_self _)

end Reader

end StyleDecl
