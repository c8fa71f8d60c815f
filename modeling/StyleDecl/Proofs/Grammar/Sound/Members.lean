import StyleDecl.Proofs.Grammar.Sound.Tokens

/-!
# Reading members

What is read as a parameter, a member or a body is derived, if what is read as a type is. The end
of a member depends on the token after it, and so its rounds leave open what that is.

* `reads_member`: members;
* `terminator_sound`: ends of declarations;
* `reads_body`: bodies.
-/

namespace StyleDecl.Grammar

open Reader

variable {β : Type} {s s' m : Stream}

/-! ### Parameters and members -/

section

variable {type : Reader TypeExpr} (ht : Reads type (Derives true .union))

include ht

theorem reads_parameter : Reads (parameter type) (Derives true .parameter) := by
  intro s p s' h
  obtain ⟨n, m₁, hn, hnk, h₁⟩ := expect_bind h (by decide)
  obtain ⟨q, optional, m₂, hq, hqm, h₂⟩ := skip?_bind h₁
  obtain ⟨c, m₃, hc, hck, h₃⟩ := expect_one_bind h₂ nofun
  obtain ⟨t, m₄, htype, h₄⟩ := bind_eq_ok_iff.1 h₃
  cases h₄
  obtain ⟨w, hw, hd⟩ := ht htype
  exact ⟨_, hn.append (hq.append (hc.append hw)), .parameter hnk hqm hck hd⟩

/-- A parameter with the comma after it, the last parameter, or nothing before the
    parenthesis that closes the list. -/
theorem parameterRound_sound {r : Round Parameter} (h : parameterRound type s = .ok r m) :
    (r = .done [] ∧ m = s ∧ (s.ahead 0).kind = .punct .closeParen) ∨
      ∃ w p, Derives true .parameter w p ∧ r = .more [p] ∧
        ((s.Passes w m ∧ (m.ahead 0).kind = .punct .closeParen) ∨
          ∃ i, s.Passes (w ++ [i]) m ∧ i.token.kind = .punct .comma) := by
  rw [parameterRound, bind_of_ok sees_apply] at h
  split at h
  · next hc =>
    cases h
    exact .inl ⟨rfl, rfl, by simpa using hc⟩
  · obtain ⟨p, m₁, hp, h₁⟩ := bind_eq_ok_iff.1 h
    obtain ⟨w, hw, hd⟩ := reads_parameter ht hp
    refine .inr ⟨w, p, hd, ?_⟩
    rw [bind_of_ok sees_apply] at h₁
    split at h₁
    · next hc =>
      cases h₁
      exact ⟨rfl, .inl ⟨hw, by simpa using hc⟩⟩
    · obtain ⟨i, m₂, hi, hik, h₂⟩ := expect_one_bind h₁ nofun
      cases h₂
      exact ⟨rfl, .inr ⟨i, hw.append hi, hik⟩⟩

theorem parameterRound_advances : Advances (parameterRound type) := fun s m found h => by
  obtain ⟨h, -⟩ | ⟨w, p, hd, -, ⟨hp, -⟩ | ⟨i, hp, -⟩⟩ := parameterRound_sound ht h
  · cases h
  · exact length_lt_of_passes (hd.ne_nil nofun nofun) hp
  · exact length_lt_of_passes (by simp) hp

/-- Parameters up to the parenthesis that closes them. -/
theorem parameterRounds_sound {ps : List Parameter} {t : Token}
    (h : Rounds (parameterRound type) s ps m)
    (hc : expect [.punct .closeParen] "" m = .ok t s') :
    ∃ w, s.Passes w s' ∧ Derives true .parameters w ps := by
  obtain ⟨i, hi, hik, -⟩ := expect_eq_ok (by decide) hc
  replace hik := List.mem_singleton.1 hik
  clear hc
  induction h with
  | done h =>
    obtain ⟨hr, rfl, -⟩ | ⟨_, _, _, hr, -⟩ := parameterRound_sound ht h <;> cases hr
    exact ⟨[i], hi, .noParameter hik⟩
  | @more s m₁ m found others h hothers ih =>
    obtain ⟨hr, -⟩ | ⟨w, p, hd, hr, hp⟩ := parameterRound_sound ht h <;> cases hr
    rcases hp with ⟨hp, hclose⟩ | ⟨j, hp, hj⟩
    · -- Nothing but the parenthesis can come after a parameter without a comma.
      cases hothers with
      | done h' =>
        obtain ⟨hr, rfl, -⟩ | ⟨_, _, _, hr, -⟩ := parameterRound_sound ht h' <;> cases hr
        exact ⟨_, hp.append hi, .lastParameter hd hik⟩
      | more h' _ =>
        rw [parameterRound, bind_of_ok sees_apply, hclose, if_pos (by simp)] at h'
        cases h'
    · obtain ⟨v, hv, hdv⟩ := ih hi
      refine ⟨_, hp.append hv, ?_⟩
      rw [List.append_assoc]
      exact .nextParameter hd hj hdv

theorem parameters_bind {f : List Parameter → Reader β} {b : β}
    (h : (parameters type >>= f) s = .ok b s') :
    ∃ i v ps m, s.Passes (i :: v) m ∧ i.token.kind = .punct .openParen ∧
      Derives true .parameters v ps ∧ f ps m = .ok b s' := by
  obtain ⟨ps, m, hps, hf⟩ := bind_eq_ok_iff.1 h
  obtain ⟨i, m₁, hi, hik, h₁⟩ := expect_one_bind hps nofun
  obtain ⟨found, m₂, hg, h₂⟩ := bind_eq_ok_iff.1 h₁
  obtain ⟨t, m₃, hc, h₃⟩ := bind_eq_ok_iff.1 h₂
  cases h₃
  rw [gather_eq_ok_iff (parameterRound_advances ht)] at hg
  obtain ⟨v, hv, hd⟩ := parameterRounds_sound ht hg hc
  exact ⟨i, v, _, _, hi.append hv, hik, hd, hf⟩

theorem reads_callSignature : Reads (callSignature type) (Derives true .member) := by
  intro s a s' h
  obtain ⟨i, v, ps, m₁, hp, hik, hd, h₁⟩ := parameters_bind ht h
  obtain ⟨c, m₂, hc, hck, h₂⟩ := expect_one_bind h₁ nofun
  obtain ⟨t, m₃, htype, h₃⟩ := bind_eq_ok_iff.1 h₂
  cases h₃
  obtain ⟨w, hw, hdw⟩ := ht htype
  exact ⟨_, hp.append (hc.append hw), .call hik hd hck hdw⟩

theorem reads_indexSignature : Reads (indexSignature type) (Derives true .member) := by
  intro s a s' h
  obtain ⟨i, m₁, hi, hik, h₁⟩ := expect_one_bind h nofun
  obtain ⟨n, m₂, hn, hnk, h₂⟩ := expect_bind h₁ (by decide)
  obtain ⟨c, m₃, hc, hck, h₃⟩ := expect_one_bind h₂ nofun
  obtain ⟨k, m₄, hkey, h₄⟩ := bind_eq_ok_iff.1 h₃
  obtain ⟨v, hv, hdv⟩ := ht hkey
  obtain ⟨j, m₅, hj, hjk, h₅⟩ := expect_one_bind h₄ nofun
  obtain ⟨d, m₆, hd, hdk, h₆⟩ := expect_one_bind h₅ nofun
  obtain ⟨t, m₇, htype, h₇⟩ := bind_eq_ok_iff.1 h₆
  cases h₇
  obtain ⟨w, hw, hdw⟩ := ht htype
  exact ⟨_, hi.append (hn.append (hc.append (hv.append (hj.append (hd.append hw))))),
    .index hik hnk hck hdv hjk hdk hdw⟩

omit ht in
theorem reads_readonlyMark : Reads readonlyMark (Maybe (.keyword .readonly)) := by
  intro s b s' h
  rw [readonlyMark, bind_of_ok sees_apply] at h
  split at h
  · next hr =>
    rw [bind_of_ok (peek_apply 1)] at h
    split at h
    · obtain ⟨i, m, hi, hik, h₁⟩ := advance_bind h (List.contains_iff_mem.1 hr) (by decide)
      cases h₁
      exact ⟨[i], hi, .present (List.mem_singleton.1 hik)⟩
    · cases h
      exact ⟨[], .nil _, .absent⟩
  · cases h
    exact ⟨[], .nil _, .absent⟩

theorem reads_keyed : Reads (keyed type) (Derives true .member) := by
  intro s a s' h
  obtain ⟨readonly, m₁, hr, h₁⟩ := bind_eq_ok_iff.1 h
  obtain ⟨r, hrp, hrm⟩ := reads_readonlyMark hr
  obtain ⟨k, m₂, hk, hkk, h₂⟩ := expect_bind h₁ (by decide)
  obtain ⟨q, optional, m₃, hq, hqm, h₃⟩ := skip?_bind h₂
  rw [bind_of_ok sees_apply] at h₃
  split at h₃
  · split at h₃
    · exact absurd h₃ reject_ne_ok
    · next hno =>
      -- No word marks a method.
      cases hrm with
      | present => exact absurd rfl hno
      | absent =>
        obtain rfl := Stream.passes_nil_iff.1 hrp
        obtain ⟨i, v, ps, m₄, hp, hik, hdv, h₄⟩ := parameters_bind ht h₃
        obtain ⟨c, m₅, hc, hck, h₅⟩ := expect_one_bind h₄ nofun
        obtain ⟨t, m₆, htype, h₆⟩ := bind_eq_ok_iff.1 h₅
        cases h₆
        obtain ⟨w, hw, hdw⟩ := ht htype
        refine ⟨_, hk.append (hq.append (hp.append (hc.append hw))), ?_⟩
        simpa using Derives.method hkk hqm hik hdv hck hdw
  · obtain ⟨c, m₄, hc, hck, h₄⟩ := expect_one_bind h₃ nofun
    obtain ⟨t, m₅, htype, h₅⟩ := bind_eq_ok_iff.1 h₄
    cases h₅
    obtain ⟨w, hw, hdw⟩ := ht htype
    refine ⟨_, hrp.append (hk.append (hq.append (hc.append hw))), ?_⟩
    simpa using Derives.property hrm hkk hqm hck hdw

theorem reads_member : Reads (member type) (Derives true .member) := by
  intro s a s' h
  rw [member, bind_of_ok sees_apply] at h
  split at h
  · exact reads_callSignature ht h
  · rw [bind_of_ok sees_apply] at h
    split at h
    · exact reads_indexSignature ht h
    · exact reads_keyed ht h

/-! ### Ends of declarations -/

omit ht in
/-- Which end a declaration has depends on the token after it only, and any end will do before
    a token that makes one superfluous. -/
theorem terminator_sound {closers : List Kind} {before : List Item} {l : Item} {u : Unit}
    (hl : l ∈ before.getLast?) (hs : s.last = l.token) (h : terminator closers s = .ok u s') :
    ∃ e, s.Passes e s' ∧ (∀ i ∈ e, EndMark i.token) ∧ ∀ ⦃n v⦄,
      n.token = s'.ahead 0 ∨ n.token.kind ∈ closers ∨ n.token.kind = .eof →
        Terminator true closers before e (n :: v) := by
  rw [terminator, bind_of_ok sees_apply] at h
  split at h
  · next hmark =>
    obtain ⟨i, m, hi, hik, h₁⟩ := advance_bind h (List.contains_iff_mem.1 hmark) (by decide)
    cases h₁
    have hik : EndMark i.token := by simpa [EndMark] using hik
    exact ⟨[i], hi, by simpa using hik, fun n v _ => .mark hik⟩
  · next hmark =>
    have hmark : ¬EndMark (s.ahead 0) := by simpa [EndMark] using hmark
    rw [bind_of_ok (peek_apply 0)] at h
    split at h
    · next hclose =>
      cases h
      -- The token at hand closes the body, or the text, and so does any other in its place.
      refine ⟨[], .nil _, nofun, fun n v hn => .closer rfl ?_⟩
      rcases hn with hn | hn
      · exact hn ▸ by simpa using hclose
      · exact hn
    · rw [bind_of_ok previous_apply] at h
      split at h
      · next hline =>
        cases h
        refine ⟨[], .nil _, nofun, fun n v hn => ?_⟩
        -- The token at hand begins a new line. Another one in its place may stand anywhere, but
        -- then it closes the body, or the text.
        rcases hn with hn | hn
        · exact .lineBreak hl rfl (by rw [← hs, hn]; exact hline) fun _ => hn ▸ hmark
        · exact .closer rfl hn
      · exact absurd h reject_ne_ok

/-! ### Bodies -/

/-- A member with its end, or nothing before the brace that closes the body. -/
theorem memberRound_sound {r : Round Member} (h : memberRound type s = .ok r m) :
    ∃ i rest, s.items = i :: rest ∧
      ((i.token.kind = .punct .closeBrace ∧ r = .done (memberNotes true i) ∧
          m = s.afterComments) ∨
        ∃ w e, ∃ a : Member, Derives true .member (i.bare :: w) a ∧
          r = .more (memberNotes true i ++ [a]) ∧
          s.Passes (i :: w ++ e) m ∧ ∀ ⦃n v⦄,
            n.token = m.ahead 0 ∨ n.token.kind ∈ [Kind.punct .closeBrace] ∨ n.token.kind = .eof →
              Terminator true [.punct .closeBrace] (i.bare :: w) e (n :: v)) := by
  rw [memberRound, bind_of_ok takeComments_apply, bind_of_ok sees_apply,
    Stream.ahead_afterComments] at h
  split at h
  · next hclose =>
    have hclose : (s.ahead 0).kind = .punct .closeBrace := by simpa using hclose
    obtain ⟨i, rest, hs, hi⟩ := Stream.exists_item (s := s) (by rw [hclose]; nofun)
    cases h
    exact ⟨i, rest, hs, .inl ⟨hi ▸ hclose, by rw [Stream.comments_eq hs]; rfl, rfl⟩⟩
  · rw [bind_of_ok sees_apply, Stream.ahead_afterComments] at h
    split at h
    · exact absurd h reject_ne_ok
    · next heof =>
      obtain ⟨i, rest, hs, -⟩ := Stream.exists_item (s := s) (by simpa using heof)
      obtain ⟨a, m₁, hm, h₁⟩ := bind_eq_ok_iff.1 h
      obtain ⟨u, m₂, hu, h₂⟩ := bind_eq_ok_iff.1 h₁
      cases h₂
      obtain ⟨w, hw, hd⟩ := reads_member ht hm
      -- The first item of the member is the one at hand, without its comments.
      obtain ⟨j, w, rfl⟩ := List.exists_cons_of_ne_nil (hd.ne_nil nofun nofun)
      obtain rfl : i.bare = j := by
        have := hw.items
        rw [Stream.items_afterComments hs] at this
        exact (List.cons.inj this).1
      obtain ⟨l, hl⟩ := exists_getLast? (List.cons_ne_nil i.bare w)
      obtain ⟨e, he, -, hend⟩ := terminator_sound hl (hw.last hl) hu
      refine ⟨i, rest, hs, .inr ⟨w, e, a, hd, ?_, ?_, hend⟩⟩
      · rw [Stream.comments_eq hs]
        rfl
      · exact ((Stream.passes_afterComments_iff hs).1 hw).append he

theorem memberRound_advances : Advances (memberRound type) := fun s m found h => by
  obtain ⟨i, rest, -, ⟨-, h, -⟩ | ⟨w, e, a, -, -, hp, -⟩⟩ := memberRound_sound ht h
  · cases h
  · exact length_lt_of_passes (by simp) hp

/-- Members up to the brace that closes the body. -/
theorem memberRounds_sound {ms : List Member} {t : Token}
    (h : Rounds (memberRound type) s ms m) (hc : expect [.punct .closeBrace] "" m = .ok t s') :
    ∃ w, s.Passes w s' ∧ Derives true .members w ms := by
  induction h with
  | done h =>
    obtain ⟨i, rest, hs, ⟨hik, hr, rfl⟩ | ⟨_, _, _, _, hr, -⟩⟩ := memberRound_sound ht h <;>
      cases hr
    -- The brace that is taken is the item at hand, whose comments were taken before.
    obtain ⟨j, hj, -, -⟩ := expect_eq_ok (by decide) hc
    obtain rfl : i.bare = j := by
      have := hj.items
      rw [Stream.items_afterComments hs] at this
      exact (List.cons.inj this).1
    exact ⟨[i], (Stream.passes_afterComments_iff hs).1 hj, .noMember hik⟩
  | more h _ ih =>
    obtain ⟨v, hv, hdv⟩ := ih hc
    obtain ⟨i, rest, hs, ⟨-, hr, -⟩ | ⟨w, e, a, hd, hr, hp, hend⟩⟩ := memberRound_sound ht h <;>
      cases hr
    obtain ⟨n, v, rfl⟩ := List.exists_cons_of_ne_nil (hdv.ne_nil nofun nofun)
    refine ⟨_, hp.append hv, ?_⟩
    simpa using Derives.nextMember hd (hend (.inl hv.ahead_zero.symm)) hdv

theorem reads_body : Reads (body type) fun w ms =>
    ∃ i v, w = i :: v ∧ i.token.kind = .punct .openBrace ∧ Derives true .members v ms := by
  intro s ms s' h
  obtain ⟨i, m₁, hi, hik, h₁⟩ := expect_one_bind h nofun
  obtain ⟨found, m₂, hg, h₂⟩ := bind_eq_ok_iff.1 h₁
  obtain ⟨t, m₃, hc, h₃⟩ := bind_eq_ok_iff.1 h₂
  cases h₃
  rw [gather_eq_ok_iff (memberRound_advances ht)] at hg
  obtain ⟨v, hv, hd⟩ := memberRounds_sound ht hg hc
  exact ⟨_, hi.append hv, i, v, rfl, hik, hd⟩

end

end StyleDecl.Grammar
