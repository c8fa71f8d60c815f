import StyleDecl.Proofs.Grammar.Basic

/-!
# Reading tokens

Whatever a reader takes from a stream derives what the reader makes of it (`Reads`). For single
tokens this is said in front of whatever comes after them, as readers are put together. The rounds
of a loop are looked at one by one, so that the same facts show that a loop goes on only if it takes
a token (`Reader.Advances`) and what all its rounds derive together.

* `expect_bind`, `skip?_bind`, `advance_bind`: single tokens;
* `reads_nameParts`, `reads_arrayMarks`: loops over tokens.
-/

namespace StyleDecl.Grammar

open Reader

variable {α β : Type} {s s' m : Stream} {c : Symbol} {keep : Bool}

/-- Whatever `reader` takes derives what it makes of it. -/
def Reads (reader : Reader α) (derives : List Item → α → Prop) : Prop :=
  ∀ ⦃s a s'⦄, reader s = .ok a s' → ∃ w, s.Passes w s' ∧ derives w a

/-- Only the further operands of a type can be missing. -/
theorem Derives.ne_nil {w : List Item} {a : c.Value} (h : Derives keep c w a)
    (hc : c ≠ .alternatives) (hc' : c ≠ .factors) : w ≠ [] := by
  induction h <;> simp_all

theorem length_lt_of_passes {w : List Item} (hw : w ≠ []) (h : s.Passes w s') :
    s'.items.length < s.items.length := by
  have := List.length_pos_iff.2 hw
  have := h.length
  omega

theorem exists_getLast? {w : List Item} (hw : w ≠ []) : ∃ l, l ∈ w.getLast? :=
  ⟨w.getLast hw, List.getLast?_eq_some_getLast hw⟩

/-! ### Single tokens -/

section

variable {f : Token → Reader β} {g : Bool → Reader β} {b : β} {detail : String}

theorem expect_bind {kinds : List Kind} (h : (expect kinds detail >>= f) s = .ok b s')
    (hk : Kind.eof ∉ kinds) :
    ∃ i m, s.Passes [i] m ∧ i.token.kind ∈ kinds ∧ f i.token m = .ok b s' := by
  obtain ⟨t, m, ht, hf⟩ := bind_eq_ok_iff.1 h
  obtain ⟨i, hi, hik, rfl⟩ := expect_eq_ok hk ht
  exact ⟨i, m, hi, hik, hf⟩

theorem expect_one_bind {kind : Kind} (h : (expect [kind] detail >>= f) s = .ok b s')
    (hk : kind ≠ .eof) :
    ∃ i m, s.Passes [i] m ∧ i.token.kind = kind ∧ f i.token m = .ok b s' := by
  obtain ⟨i, m, hi, hik, hf⟩ := expect_bind h (by simpa using hk.symm)
  exact ⟨i, m, hi, List.mem_singleton.1 hik, hf⟩

theorem skip?_bind {p : Punct} (h : (skip? p >>= g) s = .ok b s') :
    ∃ q found m, s.Passes q m ∧ Maybe (.punct p) q found ∧ g found m = .ok b s' := by
  obtain ⟨found, m, hs, hg⟩ := bind_eq_ok_iff.1 h
  obtain ⟨rfl, i, hi, hp⟩ | ⟨rfl, rfl, -⟩ := skip?_eq_ok hs
  · exact ⟨[i], true, m, hi, .present hp, hg⟩
  · exact ⟨[], false, _, .nil _, .absent, hg⟩

/-- A token that was seen before is taken. -/
theorem advance_bind {kinds : List Kind} (h : (advance >>= f) s = .ok b s')
    (hs : (s.ahead 0).kind ∈ kinds) (hk : Kind.eof ∉ kinds) :
    ∃ i m, s.Passes [i] m ∧ i.token.kind ∈ kinds ∧ f i.token m = .ok b s' := by
  rw [bind_of_ok advance_apply] at h
  obtain ⟨i, rest, hi, hit⟩ := Stream.exists_item fun he => hk (he ▸ hs)
  exact ⟨i, _, Stream.passes_one hi, hit ▸ hs, hit ▸ h⟩

end

/-! ### Loops over tokens -/

theorem namePartRound_sound {r : Round String} (h : namePartRound s = .ok r m) :
    (r = .done [] ∧ m = s) ∨ ∃ d n, s.Passes [d, n] m ∧ d.token.kind = .punct .dot ∧
      n.token.kind = .identifier ∧ r = .more [n.token.text] := by
  obtain ⟨q, found, m₁, hq, hd, h₁⟩ := skip?_bind h
  cases hd with
  | absent =>
    obtain rfl := Stream.passes_nil_iff.1 hq
    rw [if_neg nofun] at h₁
    cases h₁
    exact .inl ⟨rfl, rfl⟩
  | @present d hd =>
    rw [if_pos rfl] at h₁
    obtain ⟨n, m₂, hn, hk, h₂⟩ := expect_one_bind h₁ nofun
    cases h₂
    exact .inr ⟨d, n, hq.append hn, hd, hk, rfl⟩

theorem namePartRound_advances : Advances namePartRound := fun s m found h => by
  obtain ⟨h, -⟩ | ⟨d, n, hp, -⟩ := namePartRound_sound h
  · cases h
  · exact length_lt_of_passes (List.cons_ne_nil _ _) hp

theorem reads_nameParts : Reads nameParts NameParts := by
  intro s parts s' h
  rw [nameParts, gather_eq_ok_iff namePartRound_advances] at h
  induction h with
  | done h =>
    obtain ⟨hr, rfl⟩ | ⟨_, _, _, _, _, hr⟩ := namePartRound_sound h <;> cases hr
    exact ⟨[], .nil _, .nil⟩
  | more h _ ih =>
    obtain ⟨w, hw, hd⟩ := ih
    obtain ⟨hr, -⟩ | ⟨d, n, hp, hk, hk', hr⟩ := namePartRound_sound h <;> cases hr
    exact ⟨_, hp.append hw, .cons hk hk' hd⟩

theorem arrayMarkRound_sound {r : Round Unit} (h : arrayMarkRound s = .ok r m) :
    (r = .done [] ∧ m = s) ∨ ∃ b c, s.Passes [b, c] m ∧ b.token.kind = .punct .openBracket ∧
      c.token.kind = .punct .closeBracket ∧ r = .more [()] := by
  rw [arrayMarkRound, bind_of_ok sees_apply] at h
  split at h
  · next hb =>
    rw [bind_of_ok (peek_apply 1)] at h
    split at h
    · next hc =>
      have hb := List.contains_iff_mem.1 hb
      obtain ⟨b, rest, hs, hbt⟩ := Stream.exists_item (s := s) fun he => by simp [he] at hb
      rw [Stream.ahead_one hs] at hc
      obtain ⟨c, rest', hs', hct⟩ := Stream.exists_item (s := s.afterToken) (by rw [hc]; nofun)
      cases h
      exact .inr ⟨b, c, .cons hs (Stream.passes_one hs'), hbt ▸ List.mem_singleton.1 hb,
        hct ▸ hc, rfl⟩
    · cases h
      exact .inl ⟨rfl, rfl⟩
  · cases h
    exact .inl ⟨rfl, rfl⟩

theorem arrayMarkRound_advances : Advances arrayMarkRound := fun s m found h => by
  obtain ⟨h, -⟩ | ⟨b, c, hp, -⟩ := arrayMarkRound_sound h
  · cases h
  · exact length_lt_of_passes (List.cons_ne_nil _ _) hp

theorem reads_arrayMarks : Reads arrayMarks fun w marks => Brackets w marks.length := by
  intro s marks s' h
  rw [arrayMarks, gather_eq_ok_iff arrayMarkRound_advances] at h
  induction h with
  | done h =>
    obtain ⟨hr, rfl⟩ | ⟨_, _, _, _, _, hr⟩ := arrayMarkRound_sound h <;> cases hr
    exact ⟨[], .nil _, .nil⟩
  | more h _ ih =>
    obtain ⟨w, hw, hd⟩ := ih
    obtain ⟨hr, -⟩ | ⟨b, c, hp, hk, hk', hr⟩ := arrayMarkRound_sound h <;> cases hr
    exact ⟨_, hp.append hw, .cons hk hk' hd⟩

/-- Brackets add up to an array of arrays. -/
theorem foldl_array (marks : List Unit) (t : TypeExpr) :
    marks.foldl (fun t _ => .array t) t = TypeExpr.array^[marks.length] t := by
  induction marks generalizing t with
  | nil => rfl
  | cons _ marks ih => rw [List.foldl_cons, ih, List.length_cons, Function.iterate_succ_apply]

end StyleDecl.Grammar
