import StyleDecl.Proofs.Grammar.Broken.Statements

/-!
# Two streams in tandem

Two streams are read side by side here, for as long as they go together. What that
means is left open: a `Tandem` says which streams go together and which tokens count
for one another, and that a step taken on both of them either keeps them together or
leads to where they may part. So one pass over the readers compares all kinds of streams:
streams that begin alike, streams that differ in what closes them, and one stream with
itself, read by a recursion with another bound.

Streams go together up to a bound, which falls whenever a token is taken. Types are read
below the bound of what they stand in, and that is what an induction on the bound is for.

* `Tandem`: streams that go together;
* `Tandem.Agrees`: readers that go the same way on them;
* `Tandem.agrees_gather`: loops.
-/

namespace StyleDecl

open Reader

variable {α β : Type}

/-- The number of items that a reading leaves. -/
def Reader.left : EStateM.Result Rejection Stream α → Nat
  | .ok _ s => s.items.length
  | .error _ s => s.items.length

theorem Reader.left_bind_le {x : Reader α} {f : α → Reader β}
    (hx : ∀ s, left (x s) ≤ s.items.length) (hf : ∀ a s, left (f a s) ≤ s.items.length)
    (s : Stream) : left ((x >>= f) s) ≤ s.items.length := by
  have hle := hx s
  cases h : x s with
  | ok a m =>
    rw [h] at hle
    rw [bind_of_ok h]
    exact Nat.le_trans (hf a m) hle
  | error =>
    rw [h] at hle
    rw [bind_of_error h]
    exact hle

/-- How two streams are read in tandem. -/
structure Tandem where
  /-- The streams that go together. If they are settled, a token was read last. The bound is
      above the number of tokens that are left to go. -/
  Goes : (settled : Bool) → (bound : Nat) → Stream → Stream → Prop
  /-- The tokens that count for one another. -/
  Same : Token → Token → Prop
  /-- Where fewer items are left, the streams may have parted. -/
  reach : Nat
  same_refl : ∀ t, Same t t
  kind : ∀ {t u}, Same t u → t.kind = u.kind
  text : ∀ {t u}, Same t u → t.text = u.text
  line : ∀ {t u}, Same t u → t.line = u.line
  endLine : ∀ {t u}, Same t u → t.endLine = u.endLine
  mono : ∀ {b b' : Bool} {n n' s t}, Goes b n s t → (b' → b) → n ≤ n' → Goes b' n' s t
  not_zero : ∀ {b s t}, ¬Goes b 0 s t
  tight : ∀ {b n s t}, Goes b n s t →
    ∃ m ≤ n, Goes b m s t ∧ m ≤ s.items.length + 1 ∧ m ≤ t.items.length + 1
  ahead : ∀ {b n s t}, Goes b n s t → Same (s.ahead 0) (t.ahead 0)
  next : ∀ {b n s t}, Goes b n s t → (s.ahead 0).kind ≠ .eof → Same (s.ahead 1) (t.ahead 1)
  last : ∀ {n s t}, Goes true n s t → Same s.last t.last
  comments : ∀ {b n s t}, Goes b n s t → s.comments = t.comments
  afterComments : ∀ {b n s t}, Goes b n s t → Goes b n s.afterComments t.afterComments
  afterToken : ∀ {b n s t}, Goes b (n + 1) s t → (s.ahead 0).kind ≠ .eof →
    s.afterToken.items.length < reach ∨ Goes true n s.afterToken t.afterToken

namespace Tandem

variable (c : Tandem)

/-- What two readings come to: the same value, the same rejection, or a place where the streams
    may have parted. -/
inductive Outcome (V : α → α → Prop) (Q : α → Stream → Stream → Prop) :
    EStateM.Result Rejection Stream α → EStateM.Result Rejection Stream α → Prop
  | ok {a a' : α} {s t : Stream} : V a a' → Q a s t → Outcome V Q (.ok a s) (.ok a' t)
  | error {r r' : Rejection} {b : Bool} {n : Nat} {s t : Stream} :
    r.fault = r'.fault → r.StandsAt (s.ahead 0) → r'.StandsAt (t.ahead 0) → c.Goes b n s t →
      Outcome V Q (.error r s) (.error r' t)
  | parted {x y : EStateM.Result Rejection Stream α} : left x < c.reach → Outcome V Q x y

/-- On streams related by `P`, the readers come to values related by `V` and to streams related
    by `Q`, unless they part. Neither puts items back. -/
structure Agrees (P : Stream → Stream → Prop) (x y : Reader α) (V : α → α → Prop)
    (Q : α → Stream → Stream → Prop) : Prop where
  run : ∀ {s t}, P s t → c.Outcome V Q (x s) (y t)
  falls : ∀ s, left (x s) ≤ s.items.length

/-- Streams that go together, with a token of one of the kinds `kinds` at hand. -/
def Sees (b : Bool) (n : Nat) (kinds : List Kind) (s t : Stream) : Prop :=
  c.Goes b n s t ∧ (s.ahead 0).kind ∈ kinds

variable {c} {P P' : Stream → Stream → Prop} {x x' y y' : Reader α} {V : α → α → Prop}
  {Q Q' : α → Stream → Stream → Prop} {W : β → β → Prop} {R : β → Stream → Stream → Prop}
  {f g : α → Reader β} {b : Bool} {n m : Nat} {kinds : List Kind}

theorem Outcome.imp {r r' : EStateM.Result Rejection Stream α} (h : c.Outcome V Q r r')
    (hQ : ∀ {a s t}, Q a s t → Q' a s t) : c.Outcome V Q' r r' := by
  cases h with
  | ok hV hq => exact .ok hV (hQ hq)
  | error hf hr hr' hg => exact .error hf hr hr' hg
  | parted hl => exact .parted hl

namespace Agrees

theorem imp (h : c.Agrees P x y V Q) (hP : ∀ {s t}, P' s t → P s t)
    (hQ : ∀ {a s t}, Q a s t → Q' a s t) : c.Agrees P' x y V Q' :=
  ⟨fun hs => (h.run (hP hs)).imp hQ, h.falls⟩

/-- Streams are settled below a bound if they are below a smaller one. -/
theorem weaken {V : α → α → Prop} (h : c.Agrees P x y V fun _ => c.Goes true m) (hm : m ≤ n) :
    c.Agrees P x y V fun _ => c.Goes b n :=
  h.imp id fun hs => c.mono hs (fun _ => rfl) hm

theorem of_sees (h : c.Agrees (c.Goes b n) x y V Q) : c.Agrees (c.Sees b n kinds) x y V Q :=
  h.imp And.left id

/-- What lowers the bound keeps to it: no streams go together below the bound zero. -/
theorem below {P : Nat → Stream → Stream → Prop} (hP : ∀ {s t}, P 0 s t → c.Goes b 0 s t)
    (h : ∀ k ≤ n, c.Agrees (P (k + 1)) x y V fun _ => c.Goes true k) (hm : m ≤ n + 1) :
    c.Agrees (P m) x y V fun _ => c.Goes true m where
  run hs := by
    -- The bound is not zero, since streams go together below it.
    cases m with
    | zero => exact absurd (hP hs) c.not_zero
    | succ k =>
      exact ((h k (Nat.le_of_succ_le_succ hm)).run hs).imp fun hq => c.mono hq id (Nat.le_succ k)
  falls := (h 0 (Nat.zero_le n)).falls

theorem bind (hV : ∀ a, V a a) (h : c.Agrees P x y V Q)
    (hf : ∀ a a', V a a' → c.Agrees (Q a) (f a) (g a') W R) :
    c.Agrees P (x >>= f) (y >>= g) W R where
  run {s t} hs := by
    have h' := h.run hs
    generalize hx : x s = r, hy : y t = r' at h'
    cases h' with
    | ok hVa hq =>
      rw [bind_of_ok hx, bind_of_ok hy]
      exact (hf _ _ hVa).run hq
    | error hfault hr hr' hg =>
      rw [bind_of_error hx, bind_of_error hy]
      exact .error hfault hr hr' hg
    | parted hl =>
      -- What comes after puts nothing back.
      refine .parted (Nat.lt_of_le_of_lt ?_ hl)
      cases r with
      | ok a m =>
        rw [bind_of_ok hx]
        exact (hf a a (hV a)).falls m
      | error =>
        rw [bind_of_error hx]
        exact Nat.le_refl _
  falls := left_bind_le h.falls fun a => (hf a a (hV a)).falls

theorem bind_eq (h : c.Agrees P x y Eq Q) (hf : ∀ a, c.Agrees (Q a) (f a) (g a) W R) :
    c.Agrees P (x >>= f) (y >>= g) W R :=
  h.bind (fun _ => rfl) fun a _ ha => ha ▸ hf a

end Agrees

theorem agrees_pure {a : α} (h : ∀ {s t}, P s t → Q a s t) :
    c.Agrees P (pure a) (pure a) Eq Q :=
  ⟨fun hs => .ok rfl (h hs), fun _ => Nat.le_refl _⟩

theorem agrees_pure_of_eq {a a' : α} (ha : a = a') (h : ∀ {s t}, P s t → Q a s t) :
    c.Agrees P (pure a) (pure a') Eq Q :=
  ha ▸ agrees_pure h

/-! ### Single tokens -/

theorem agrees_reject {fault : Token → Fault} (hf : ∀ {t u}, c.Same t u → fault t = fault u) :
    c.Agrees (c.Goes b n) (reject fault : Reader α) (reject fault) V Q where
  run hs := .error (hf (c.ahead hs)) ⟨rfl, rfl⟩ ⟨rfl, rfl⟩ hs
  falls _ := Nat.le_refl _

theorem agrees_advance (hk : Kind.eof ∉ kinds) :
    c.Agrees (c.Sees b (n + 1) kinds) advance advance c.Same fun _ => c.Goes true n where
  run {s t} hs := by
    obtain hl | hg := c.afterToken hs.1 fun he => hk (he ▸ hs.2)
    · exact .parted hl
    · exact .ok (c.ahead hs.1) hg
  falls s := by
    change s.afterToken.items.length ≤ _
    rw [Stream.afterToken_items, List.length_tail]
    exact Nat.sub_le ..

theorem agrees_takeComments :
    c.Agrees (c.Goes b n) takeComments takeComments Eq fun _ => c.Goes b n where
  run hs := .ok (c.comments hs) (c.afterComments hs)
  falls s := by
    have htokens := congrArg List.length s.afterComments_tokens
    rw [List.length_map, List.length_map] at htokens
    exact Nat.le_of_eq htokens

theorem agrees_sees {kinds' : List Kind} :
    c.Agrees (c.Sees b n kinds) (sees kinds') (sees kinds') Eq fun _ => c.Sees b n kinds :=
  ⟨fun hs => .ok (by rw [c.kind (c.ahead hs.1)]) hs, fun _ => Nat.le_refl _⟩

theorem agrees_peek : c.Agrees (c.Goes b n) (peek 0) (peek 0) c.Same fun _ => c.Goes b n :=
  ⟨fun hs => .ok (c.ahead hs) hs, fun _ => Nat.le_refl _⟩

/-- The token after the one at hand is looked at only if the latter does not close the text. -/
theorem agrees_peek_one (hk : Kind.eof ∉ kinds) :
    c.Agrees (c.Sees b n kinds) (peek 1) (peek 1) c.Same fun a s t =>
      c.Sees b n kinds s t ∧ s.ahead 1 = a :=
  ⟨fun hs => .ok (c.next hs.1 fun he => hk (he ▸ hs.2)) ⟨hs, rfl⟩, fun _ => Nat.le_refl _⟩

/-- The token that was seen behind the one at hand comes next. -/
theorem agrees_advance_next (hk : Kind.eof ∉ kinds) (kinds' : List Kind) :
    c.Agrees (fun s t => c.Sees b (n + 1) kinds s t ∧ (s.ahead 1).kind ∈ kinds') advance advance
      c.Same fun _ => c.Sees true n kinds' where
  run {s t} hs := by
    obtain ⟨i, rest, hi, -⟩ := Stream.exists_item fun he => hk (he ▸ hs.1.2)
    have hnext := hs.2
    rw [Stream.ahead_one hi] at hnext
    obtain hl | hg := c.afterToken hs.1.1 fun he => hk (he ▸ hs.1.2)
    · exact .parted hl
    · exact .ok (c.ahead hs.1.1) ⟨hg, hnext⟩
  falls := (agrees_advance (c := c) (b := b) (n := n) hk).falls

theorem agrees_previous :
    c.Agrees (c.Goes true n) previous previous c.Same fun _ => c.Goes true n :=
  ⟨fun hs => .ok (c.last hs) hs, fun _ => Nat.le_refl _⟩

namespace Agrees

/-- A case distinction on the kind of the token at hand. -/
theorem sees (h : c.Agrees (c.Sees b n kinds) x y V Q)
    (h' : c.Agrees (c.Goes b n) x' y' V Q) :
    c.Agrees (c.Goes b n) (Reader.sees kinds >>= fun found => if found = true then x else x')
      (Reader.sees kinds >>= fun found => if found = true then y else y') V Q where
  run {s t} hs := by
    rw [bind_of_ok sees_apply, bind_of_ok sees_apply, ← c.kind (c.ahead hs)]
    split
    · next hc => exact h.run ⟨hs, List.contains_iff_mem.1 hc⟩
    · exact h'.run hs
  falls s := by
    rw [bind_of_ok sees_apply]
    split
    · exact h.falls s
    · exact h'.falls s

theorem ite {p : Prop} [Decidable p] (h : c.Agrees P x y V Q) (h' : c.Agrees P x' y' V Q) :
    c.Agrees P (if p then x else x') (if p then y else y') V Q := by
  split
  · exact h
  · exact h'

end Agrees

theorem agrees_expect {detail : String} (hk : Kind.eof ∉ kinds) :
    c.Agrees (c.Goes b (n + 1)) (expect kinds detail) (expect kinds detail) c.Same
      fun _ => c.Goes true n :=
  .sees (agrees_advance hk) (agrees_reject fun h => by rw [c.kind h])

theorem agrees_skip? {p : Punct} :
    c.Agrees (c.Goes b (n + 1)) (skip? p) (skip? p) Eq fun found s t =>
      (found = true → c.Goes true n s t) ∧ (found = false → c.Goes b (n + 1) s t) := by
  refine .sees ((agrees_advance (by simp)).bind c.same_refl fun _ _ _ => agrees_pure ?_)
    (agrees_pure ?_)
  · exact fun hs => ⟨fun _ => hs, nofun⟩
  · exact fun hs => ⟨nofun, fun _ => hs⟩

namespace Agrees

variable {f g : Token → Reader β} {detail : String} {p : Punct}

/-- The first token of something is expected. -/
theorem expect_first (hk : Kind.eof ∉ kinds)
    (hf : ∀ t u, c.Same t u → c.Agrees (c.Goes true n) (f t) (g u) W R) :
    c.Agrees (c.Goes b (n + 1)) (expect kinds detail >>= f) (expect kinds detail >>= g) W R :=
  (agrees_expect hk).bind c.same_refl hf

theorem expect (hk : Kind.eof ∉ kinds)
    (hf : ∀ t u, c.Same t u → c.Agrees (c.Goes true n) (f t) (g u) W R) :
    c.Agrees (c.Goes b n) (Reader.expect kinds detail >>= f) (Reader.expect kinds detail >>= g)
      W R :=
  (below id (fun _ _ => agrees_expect hk) (Nat.le_succ n)).bind c.same_refl hf

/-- A token that was seen is taken. -/
theorem advance_first (hk : Kind.eof ∉ kinds)
    (hf : ∀ t u, c.Same t u → c.Agrees (c.Goes true n) (f t) (g u) W R) :
    c.Agrees (c.Sees b (n + 1) kinds) (Reader.advance >>= f) (Reader.advance >>= g) W R :=
  (agrees_advance hk).bind c.same_refl hf

theorem advance (hk : Kind.eof ∉ kinds)
    (hf : ∀ t u, c.Same t u → c.Agrees (c.Goes true n) (f t) (g u) W R) :
    c.Agrees (c.Sees b n kinds) (Reader.advance >>= f) (Reader.advance >>= g) W R := by
  have h : c.Agrees (c.Sees b n kinds) Reader.advance Reader.advance c.Same
      fun _ => c.Goes true n :=
    below (P := (c.Sees b · kinds)) And.left (fun _ _ => agrees_advance hk) (Nat.le_succ n)
  exact h.bind c.same_refl hf

/-- A mark that may be missing, before the first token of something. -/
theorem skip?_first {f g : Bool → Reader β}
    (h : c.Agrees (c.Goes true n) (f true) (g true) W R)
    (h' : c.Agrees (c.Goes b (n + 1)) (f false) (g false) W R) :
    c.Agrees (c.Goes b (n + 1)) (skip? p >>= f) (skip? p >>= g) W R := by
  refine agrees_skip?.bind_eq fun found => ?_
  cases found with
  | true => exact h.imp (fun hs => hs.1 rfl) id
  | false => exact h'.imp (fun hs => hs.2 rfl) id

theorem skip? {f g : Bool → Reader β}
    (hf : ∀ found, c.Agrees (c.Goes true n) (f found) (g found) W R) :
    c.Agrees (c.Goes true n) (Reader.skip? p >>= f) (Reader.skip? p >>= g) W R where
  run hs := by
    cases n with
    | zero => exact absurd hs c.not_zero
    | succ m =>
      refine (skip?_first ((hf true).imp (fun hs => ?_) id) (hf false)).run hs
      exact c.mono hs id (Nat.le_succ m)
  falls := left_bind_le (agrees_skip? (c := c) (b := true) (n := 0)).falls
    fun found => (hf found).falls

end Agrees

/-- Whether a terminator may be left out is seen alike by streams that are settled. -/
theorem agrees_terminator (closers : List Kind) :
    c.Agrees (c.Goes true n) (terminator closers) (terminator closers) Eq
      fun _ => c.Goes true n := by
  refine .sees (.advance (by decide) fun _ _ _ => agrees_pure id) ?_
  refine agrees_peek.bind c.same_refl fun t u htu => ?_
  rw [c.kind htu, c.line htu]
  refine .ite (agrees_pure id) (agrees_previous.bind c.same_refl fun l l' hl => ?_)
  rw [c.endLine hl]
  exact .ite (agrees_pure id) (agrees_reject fun h => by rw [c.kind h])

/-! ### Loops -/

variable (c) in
/-- Streams that go together after a round. The bound has fallen unless it was the last one. -/
def Next (b : Bool) (n : Nat) : Round α → Stream → Stream → Prop
  | .more _ => c.Goes b n
  | .done _ => c.Goes b (n + 1)

section

variable {round round' : Reader (Round α)}

theorem gatherUpTo_falls (hr : ∀ s, left (round s) ≤ s.items.length) (k : Nat) (s : Stream) :
    left (gatherUpTo round k s) ≤ s.items.length := by
  induction k generalizing s with
  | zero => exact Nat.le_refl _
  | succ k ih =>
    refine left_bind_le hr (fun r s => ?_) s
    cases r with
    | done => exact Nat.le_refl _
    | more => exact left_bind_le ih (fun _ _ => Nat.le_refl _) s

theorem agrees_gatherUpTo
    (h : ∀ m ≤ n, c.Agrees (c.Goes b (m + 1)) round round' Eq (c.Next b m)) (hm : m ≤ n + 1)
    {k k' : Nat} (hk : m ≤ k) (hk' : m ≤ k') :
    c.Agrees (c.Goes b m) (gatherUpTo round k) (gatherUpTo round' k') Eq fun _ => c.Goes b m := by
  have hfalls := (h 0 (Nat.zero_le n)).falls
  -- By induction on the bound of the streams, which falls with every round but the last one.
  induction m generalizing k k' with
  | zero => exact ⟨fun hs => absurd hs c.not_zero, gatherUpTo_falls hfalls k⟩
  | succ m ih =>
    obtain ⟨k, rfl⟩ := Nat.exists_eq_add_of_lt hk
    obtain ⟨k', rfl⟩ := Nat.exists_eq_add_of_lt hk'
    refine (h m (Nat.le_of_succ_le_succ hm)).bind_eq fun r => ?_
    cases r with
    | done => exact agrees_pure id
    | more =>
      refine (ih (Nat.le_of_succ_le hm) (Nat.le_of_succ_le_succ hk)
        (Nat.le_of_succ_le_succ hk')).bind_eq fun _ => agrees_pure fun hs => ?_
      exact c.mono hs id (Nat.le_succ m)

/-- Loops agree if their rounds do, whatever their bounds are. -/
theorem agrees_gather
    (h : ∀ m ≤ n, c.Agrees (c.Goes b (m + 1)) round round' Eq (c.Next b m)) (hm : m ≤ n + 1) :
    c.Agrees (c.Goes b m) (gather round) (gather round') Eq fun _ => c.Goes b m where
  run {s t} hs := by
    -- There are as many rounds as items, but the bound of the streams may be above that.
    obtain ⟨k, hk, hgoes, hks, hkt⟩ := c.tight hs
    exact ((agrees_gatherUpTo h (Nat.le_trans hk hm) hks hkt).run hgoes).imp
      fun hq => c.mono hq id hk
  falls _ := gatherUpTo_falls (h 0 (Nat.zero_le n)).falls _ _

end

end Tandem

end StyleDecl
