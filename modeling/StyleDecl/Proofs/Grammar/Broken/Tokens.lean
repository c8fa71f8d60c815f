import StyleDecl.Proofs.Grammar.Comments

/-!
# What is rejected could have been derived

A reader that rejects a text does so at the token at hand, and what it took before is the
beginning of something that can be derived: tokens can be written in the place of the rejected one
and behind it that complete it (`Broken`). So no reader goes on after a token that could not stand
there, and none reads a token before it rejects the one in front of it.

How a beginning is completed is said case by case: wherever a reader may give up, the rest of the
derivation is written from the kinds of its tokens (`made`). A declaration is completed with its
end, so nothing that was read before depends on what is written.

* `Broken`: a reading that gave up behind a beginning;
* `Breaks`: a reader that gives up only behind beginnings;
* `broken_bind` and its like: readers that are put together.
-/

namespace StyleDecl

/-! ### Rejections -/

/-- The text is rejected at the token `t`. -/
def Rejection.StandsAt (r : Rejection) (t : Token) : Prop := r.line = t.line ∧ r.column = t.column

section

variable {ε σ α β : Type} {x : EStateM ε σ α} {f : α → EStateM ε σ β} {s s' : σ} {e : ε}

theorem bind_eq_error_iff : (x >>= f) s = .error e s' ↔
    x s = .error e s' ∨ ∃ a m, x s = .ok a m ∧ f a m = .error e s' := by
  cases hx : x s with
  | ok a m =>
    rw [bind_of_ok hx]
    exact ⟨fun h => .inr ⟨a, m, rfl, h⟩, by rintro (h | ⟨_, _, h, hf⟩) <;> cases h; exact hf⟩
  | error e' m =>
    rw [bind_of_error hx]
    exact ⟨fun h => by cases h; exact .inl rfl,
      by rintro (h | ⟨_, _, h, -⟩) <;> cases h; rfl⟩

end

namespace Stream

variable {s s' m : Stream} {i : Item} {w v rest : List Item}

/-- The stream `s` goes on as `s'` after the items `w`, and perhaps after the comments behind
    them. -/
def Leads (s : Stream) (w : List Item) (s' : Stream) : Prop :=
  ∃ m, s.Passes w m ∧ (s' = m ∨ s' = m.afterComments)

theorem Leads.refl (s : Stream) : s.Leads [] s := ⟨s, .nil s, .inl rfl⟩

theorem Passes.leads (h : s.Passes w m) (h' : m.Leads v s') : s.Leads (w ++ v) s' := by
  obtain ⟨m', hv, hs'⟩ := h'
  exact ⟨m', h.append hv, hs'⟩

/-- What was passed and what is left make up the tokens of the stream. -/
theorem Leads.tokens (h : s.Leads w s') :
    s.items.map Item.token = w.map Item.token ++ s'.items.map Item.token := by
  obtain ⟨m, hw, hs'⟩ := h
  have hm : s'.items.map Item.token = m.items.map Item.token := by
    rcases hs' with rfl | rfl
    · rfl
    · exact m.afterComments_tokens
  rw [hw.items, List.map_append, hm]

theorem afterComments_afterComments (s : Stream) :
    s.afterComments.afterComments = s.afterComments := by
  cases h : s.items <;> simp [afterComments, h]

/-- Comments at hand may be passed first. -/
theorem leads_of_afterComments (h : s.afterComments.Leads w s') (hs : s.items = i :: rest) :
    (w = [] ∧ s.Leads [] s') ∨ ∃ v, w = i.bare :: v ∧ s.Leads (i :: v) s' := by
  obtain ⟨m, hw, hs'⟩ := h
  rcases w with - | ⟨j, v⟩
  · obtain rfl := passes_nil_iff.1 hw
    rw [afterComments_afterComments, or_self] at hs'
    exact .inl ⟨rfl, s, .nil s, .inr hs'⟩
  · obtain rfl : i.bare = j := by
      have hitems := hw.items
      rw [items_afterComments hs] at hitems
      exact (List.cons.inj hitems).1
    exact .inr ⟨v, rfl, m, (passes_afterComments_iff hs).1 hw, hs'⟩

end Stream

namespace Reader

variable {α β : Type} {s s' : Stream} {r : Rejection}

/-- The rounds of a loop up to the one that gives up. -/
inductive Fails (round : Reader (Round α)) : Stream → Rejection → Stream → Prop
  | now {s s' : Stream} {r : Rejection} : round s = .error r s' → Fails round s r s'
  | later {s m s' : Stream} {r : Rejection} {found : List α} :
    round s = .ok (.more found) m → Fails round m r s' → Fails round s r s'

/-- A loop gives up in one of its rounds. -/
theorem fails_of_gather {round : Reader (Round α)} (h : gather round s = .error r s') :
    Fails round s r s' := by
  have hup : ∀ n s, gatherUpTo round n s = .error r s' → Fails round s r s' := by
    intro n
    induction n with
    | zero => exact fun _ h => nomatch h
    | succ n ih =>
      intro s h
      rw [gatherUpTo] at h
      obtain h | ⟨found, m, hround, h⟩ := bind_eq_error_iff.1 h
      · exact .now h
      · cases found with
        | done => cases h
        | more =>
          obtain h | ⟨_, _, -, h⟩ := bind_eq_error_iff.1 h
          · exact .later hround (ih _ h)
          · cases h
  exact hup _ _ h

theorem standsAt_of_reject {fault : Token → Fault} (h : (reject fault : Reader α) s = .error r s') :
    s' = s ∧ r.StandsAt (s.ahead 0) := by
  cases h
  exact ⟨rfl, rfl, rfl⟩

theorem standsAt_of_expect {kinds : List Kind} {detail : String}
    (h : expect kinds detail s = .error r s') : s' = s ∧ r.StandsAt (s.ahead 0) := by
  rw [expect, bind_of_ok sees_apply] at h
  split at h
  · cases h
  · exact standsAt_of_reject h

theorem expect_ne_error {kinds : List Kind} {detail : String} (h : (s.ahead 0).kind ∈ kinds) :
    expect kinds detail s ≠ .error r s' := by
  intro hr
  rw [expect, bind_of_ok sees_apply, if_pos (List.contains_iff_mem.2 h)] at hr
  cases hr

theorem skip?_ne_error {p : Punct} : skip? p s ≠ .error r s' := by
  intro h
  rw [skip?, bind_of_ok sees_apply] at h
  split at h <;> cases h

theorem standsAt_of_terminator {closers : List Kind}
    (h : terminator closers s = .error r s') : s' = s ∧ r.StandsAt (s.ahead 0) := by
  rw [terminator, bind_of_ok sees_apply] at h
  split at h
  · cases h
  rw [bind_of_ok (peek_apply 0)] at h
  split at h
  · cases h
  rw [bind_of_ok previous_apply] at h
  split at h
  · cases h
  · exact standsAt_of_reject h

end Reader

namespace Grammar

open Reader

/-! ### Written tokens -/

/-- A text for a token of the kind `k`. -/
def sample : Kind → String
  | .keyword k => k.text
  | .punct p => String.singleton p.char
  | .eof => ""
  | _ => "x"

/-- A token of the kind `k` that is written at the place `p`. -/
def made (p : Position) (k : Kind) : Item := ⟨[], ⟨k, sample k, p.line, p.column, p.line⟩⟩

@[simp] theorem kind_made (p : Position) (k : Kind) : (made p k).token.kind = k := rfl

@[simp] theorem bare_made (p : Position) (k : Kind) : (made p k).bare = made p k := rfl

theorem mem_made {p : Position} {k : Kind} : (made p k).token.kind ∈ [k] :=
  List.mem_singleton_self _

theorem endMark_made {p : Position} : EndMark (made p (.punct .semicolon)).token := .inl rfl

/-- Tokens of some kinds can be written behind the items `w`, so that `G` holds of all. -/
def Completes (p : Position) (G : List Item → Prop) (w : List Item) : Prop :=
  ∃ kinds : List Kind, Kind.comment ∉ kinds ∧ G (w ++ kinds.map (made p))

/-- The text is rejected at the token at hand, and what was taken before can be completed, so that
    `G` holds of it. -/
def Broken (p : Position) (s : Stream) (r : Rejection) (s' : Stream) (G : List Item → Prop) :
    Prop :=
  ∃ w, s.Leads w s' ∧ r.StandsAt (s'.ahead 0) ∧ Completes p G w

/-- Something is derived from the items `w`, apart from comments. -/
def Yields (c : Symbol) (w : List Item) : Prop := ∃ a, Derives false c w a

variable {α β : Type} {s s' m : Stream} {r : Rejection} {p : Position} {G G' : List Item → Prop}
  {w v : List Item} {i : Item} {c : Symbol}

theorem Derives.yields {keep : Bool} {a : c.Value} (h : Derives keep c w a) : Yields c w :=
  ⟨_, h.forget⟩

/-- What is completed can be completed further. -/
theorem Completes.further (h : Completes p G w) (hG : ∀ u, G u → Completes p G' u) :
    Completes p G' w := by
  obtain ⟨kinds, hk, hw⟩ := h
  obtain ⟨kinds', hk', hw'⟩ := hG _ hw
  refine ⟨kinds ++ kinds', by simp [hk, hk'], ?_⟩
  rwa [List.map_append, ← List.append_assoc]

theorem completes_of_kinds (kinds : List Kind) (hk : Kind.comment ∉ kinds)
    (h : G (w ++ kinds.map (made p))) : Completes p G w :=
  ⟨kinds, hk, h⟩

namespace Broken

theorem further (h : Broken p s r s' G) (hG : ∀ u, G u → Completes p G' u) :
    Broken p s r s' G' := by
  obtain ⟨w, hw, hr, hc⟩ := h
  exact ⟨w, hw, hr, hc.further hG⟩

theorem imp (h : Broken p s r s' G) (hG : ∀ u, G u → G' u) : Broken p s r s' G' :=
  h.further fun u hu => ⟨[], nofun, by simpa using hG u hu⟩

/-- A reading that gives up behind the items `v`. -/
theorem after (hv : s.Passes v m) (h : Broken p m r s' fun u => G (v ++ u)) :
    Broken p s r s' G := by
  obtain ⟨w, hw, hr, kinds, hk, hc⟩ := h
  exact ⟨v ++ w, hv.leads hw, hr, kinds, hk, by rwa [List.append_assoc]⟩

/-- A reading that gives up before it takes anything. -/
theorem here (h : s' = s ∧ r.StandsAt (s.ahead 0)) (hc : Completes p G []) :
    Broken p s r s' G := by
  obtain ⟨rfl, hr⟩ := h
  exact ⟨[], .refl _, hr, hc⟩

end Broken

/-- Wherever the reader gives up, what it took can be completed. -/
def Breaks (p : Position) (reader : Reader α) (G : List Item → Prop) : Prop :=
  ∀ ⦃s r s'⦄, reader s = .error r s' → Broken p s r s' G

section

variable {f : Token → Reader β} {g : Bool → Reader β} {kinds : List Kind} {detail : String}

/-- A token that is expected, and what comes after it. -/
theorem broken_expect_bind (h : (expect kinds detail >>= f) s = .error r s')
    (hk : Kind.eof ∉ kinds) (hc : Completes p G [])
    (hf : ∀ i m, s.Passes [i] m → i.token.kind ∈ kinds → f i.token m = .error r s' →
      Broken p m r s' fun u => G (i :: u)) : Broken p s r s' G := by
  obtain h | ⟨t, m, ht, h⟩ := bind_eq_error_iff.1 h
  · exact .here (standsAt_of_expect h) hc
  · obtain ⟨i, hi, hik, rfl⟩ := expect_eq_ok hk ht
    exact .after hi (hf i m hi hik h)

theorem broken_skip?_bind {q : Punct} (h : (skip? q >>= g) s = .error r s')
    (hg : ∀ u found m, s.Passes u m → Maybe (.punct q) u found → g found m = .error r s' →
      Broken p m r s' fun v => G (u ++ v)) : Broken p s r s' G := by
  obtain h | ⟨found, m, hs, hm⟩ := bind_eq_error_iff.1 h
  · exact absurd h skip?_ne_error
  · obtain ⟨rfl, i, hi, hq⟩ | ⟨rfl, rfl, -⟩ := skip?_eq_ok hs
    · exact .after hi (hg [i] true m hi (.present hq) hm)
    · exact .after (.nil _) (hg [] false _ (.nil _) .absent hm)

/-- A token that was seen before is taken. -/
theorem broken_advance_bind (h : (advance >>= f) s = .error r s')
    (hs : (s.ahead 0).kind ∈ kinds) (hk : Kind.eof ∉ kinds)
    (hf : ∀ i m, s.Passes [i] m → i.token.kind ∈ kinds → f i.token m = .error r s' →
      Broken p m r s' fun u => G (i :: u)) : Broken p s r s' G := by
  rw [bind_of_ok advance_apply] at h
  obtain ⟨i, rest, hi, hit⟩ := Stream.exists_item fun he => hk (he ▸ hs)
  rw [← hit] at h hs
  have hp := Stream.passes_one hi
  exact .after hp (hf i _ hp hs h)

/-- A part that is read by a reader of its own, and what comes after it. -/
theorem broken_bind {x : Reader α} {f : α → Reader β} {derives : List Item → α → Prop}
    (h : (x >>= f) s = .error r s') (hb : Breaks p x G') (hx : Reads x derives)
    (hc : ∀ u, G' u → Completes p G u)
    (hf : ∀ w a m, s.Passes w m → derives w a → f a m = .error r s' →
      Broken p m r s' fun u => G (w ++ u)) : Broken p s r s' G := by
  obtain h | ⟨a, m, ha, h⟩ := bind_eq_error_iff.1 h
  · exact (hb h).further hc
  · obtain ⟨w, hw, hd⟩ := hx ha
    exact .after hw (hf w a m hw hd h)

end

/-! ### Types from nothing -/

theorem Yields.array_of_primary (h : Yields .primary w) : Yields .array w := by
  obtain ⟨t, h⟩ := h
  have harray := Derives.array h .nil
  rw [List.append_nil] at harray
  exact ⟨_, harray⟩

theorem Yields.intersection_of_array (h : Yields .array w) : Yields .intersection w := by
  obtain ⟨t, h⟩ := h
  have hone := Derives.intersection .absent h .noFactor .single
  rw [List.nil_append, List.append_nil] at hone
  exact ⟨_, hone⟩

theorem Yields.union_of_intersection (h : Yields .intersection w) : Yields .union w := by
  obtain ⟨t, h⟩ := h
  have hone := Derives.union .absent h .noAlternative .single
  rw [List.nil_append, List.append_nil] at hone
  exact ⟨_, hone⟩

theorem yields_primary (p : Position) : Yields .primary [made p .identifier] :=
  ⟨_, .reference rfl .nil⟩

theorem yields_array (p : Position) : Yields .array [made p .identifier] :=
  (yields_primary p).array_of_primary

theorem yields_intersection (p : Position) : Yields .intersection [made p .identifier] :=
  (yields_array p).intersection_of_array

theorem yields_union (p : Position) : Yields .union [made p .identifier] :=
  (yields_intersection p).union_of_intersection

end Grammar

end StyleDecl
