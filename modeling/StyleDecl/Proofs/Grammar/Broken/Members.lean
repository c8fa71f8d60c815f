import StyleDecl.Proofs.Grammar.Broken.Tokens

/-!
# Rejected members

What was taken of a parameter, a member or a body before it is rejected can be completed, if what
was taken of a type can. A member is completed with its end and the brace that closes its body.

* `breaks_member`: members;
* `breaks_body`: bodies.
-/

namespace StyleDecl.Grammar

open Reader

variable {β : Type} {s s' m : Stream} {r : Rejection} {p : Position} {w v : List Item} {i : Item}

/-! ### Parameters and members -/

section

variable {type : Reader TypeExpr} (ht : Reads type (Derives true .union))
  (hb : Breaks p type (Yields .union))

include hb

/-- A type at the end of something. -/
theorem broken_type_bind {make : TypeExpr → β}
    (h : (type >>= fun t => pure (make t)) s = .error r s')
    (hG : ∀ u, Yields .union u → G u) : Broken p s r s' G := by
  obtain h | ⟨_, _, -, h⟩ := bind_eq_error_iff.1 h
  · exact (hb h).imp hG
  · cases h

theorem breaks_parameter : Breaks p (parameter type) (Yields .parameter) := by
  intro s r s' h
  have hG : ∀ {n c : Item} {q w : List Item} {optional : Bool}, n.token.kind ∈ Kind.names →
      Maybe (.punct .question) q optional → c.token.kind = .punct .colon → Yields .union w →
        Yields .parameter (n :: q ++ c :: w) := fun hn hq hc ⟨t, hw⟩ => ⟨_, .parameter hn hq hc hw⟩
  have htype := yields_union p
  refine broken_expect_bind h (by decide) ?_ fun n m₁ _ hn h₁ => ?_
  · exact completes_of_kinds [.identifier, .punct .colon, .identifier] (by decide)
      (hG (List.mem_cons_self ..) .absent rfl htype)
  refine broken_skip?_bind h₁ fun q optional m₂ _ hq h₂ => ?_
  refine broken_expect_bind h₂ (by decide) ?_ fun c m₃ _ hc h₃ => ?_
  · exact completes_of_kinds [.punct .colon, .identifier] (by decide) (hG hn hq rfl htype)
  · exact broken_type_bind hb h₃ fun u hu => hG hn hq (List.mem_singleton.1 hc) hu

include ht

theorem broken_parameters (h : Fails (parameterRound type) s r s') :
    Broken p s r s' (Yields .parameters) := by
  have hlast : ∀ u, Yields .parameter u → Completes p (Yields .parameters) u := by
    rintro u ⟨a, hu⟩
    exact completes_of_kinds [.punct .closeParen] (by decide) ⟨_, .lastParameter hu rfl⟩
  induction h with
  | @now s s' r h =>
    rw [parameterRound, bind_of_ok sees_apply] at h
    split at h
    · cases h
    refine broken_bind h (breaks_parameter hb) (reads_parameter ht) hlast fun w a m _ hd h₁ => ?_
    rw [bind_of_ok sees_apply] at h₁
    split at h₁
    · cases h₁
    · obtain h₁ | ⟨_, _, -, h₁⟩ := bind_eq_error_iff.1 h₁
      · exact .here (standsAt_of_expect h₁) (by simpa [Completes] using hlast w hd.yields)
      · cases h₁
  | @later s m s' r found h hfails ih =>
    obtain ⟨hr, -⟩ | ⟨w, a, hd, -, ⟨-, hclose⟩ | ⟨i, hp, hi⟩⟩ := parameterRound_sound ht h
    · cases hr
    · -- Nothing gives up before the parenthesis that closes the list.
      have hround : parameterRound type m = .ok (.done []) m := by
        rw [parameterRound, bind_of_ok sees_apply, hclose, if_pos (by simp)]
        rfl
      cases hfails with
      | now h' => rw [hround] at h'; cases h'
      | later h' => rw [hround] at h'; cases h'
    · obtain ⟨w', hw'⟩ := hd.yields
      refine .after hp (ih.imp ?_)
      rintro u ⟨as, hu⟩
      rw [List.append_assoc]
      exact ⟨_, .nextParameter hw' hi hu⟩

omit hb in
theorem closeParen_of_rounds {as : List Parameter} (h : Rounds (parameterRound type) s as m) :
    (m.ahead 0).kind = .punct .closeParen := by
  induction h with
  | done h =>
    obtain ⟨-, rfl, hclose⟩ | ⟨_, _, _, hr, -⟩ := parameterRound_sound ht h
    · exact hclose
    · cases hr
  | more _ _ ih => exact ih

/-- The parameters of a signature, behind the parenthesis that opens them. -/
theorem breaks_parameters : Breaks p (parameters type) fun u =>
    ∃ i v, u = i :: v ∧ i.token.kind = .punct .openParen ∧ Yields .parameters v := by
  intro s r s' h
  have hnone : Yields .parameters [made p (.punct .closeParen)] := ⟨_, .noParameter rfl⟩
  refine broken_expect_bind h (by decide) ?_ fun i m₁ _ hi h₁ => ?_
  · exact completes_of_kinds [.punct .openParen, .punct .closeParen] (by decide)
      ⟨_, _, rfl, rfl, hnone⟩
  replace hi := List.mem_singleton.1 hi
  obtain h₁ | ⟨as, m₂, has, h₂⟩ := bind_eq_error_iff.1 h₁
  · exact (broken_parameters ht hb (fails_of_gather h₁)).imp fun u hu => ⟨_, _, rfl, hi, hu⟩
  · rw [gather_eq_ok_iff (parameterRound_advances ht)] at has
    obtain h₂ | ⟨_, _, -, h₂⟩ := bind_eq_error_iff.1 h₂
    · exact absurd h₂ (expect_ne_error (by rw [closeParen_of_rounds ht has]; decide))
    · cases h₂

omit hb in
theorem reads_parameters : Reads (parameters type) fun u as =>
    ∃ i v, u = i :: v ∧ i.token.kind = .punct .openParen ∧ Derives true .parameters v as := by
  intro s as s' h
  have h' : (parameters type >>= pure) s = .ok as s' := by rwa [bind_pure]
  obtain ⟨i, v, as', m, hp, hi, hd, hpure⟩ := parameters_bind ht h'
  cases hpure
  exact ⟨_, hp, i, v, rfl, hi, hd⟩

/-- The type that a signature answers, behind its parameters. -/
theorem broken_signature {f : List Parameter → Token → TypeExpr → Member}
    (h : (parameters type >>= fun as => expect [.punct .colon] >>= fun c =>
      type >>= fun t => pure (f as c t)) s = .error r s')
    (hG : ∀ {i c : Item} {v w : List Item}, i.token.kind = .punct .openParen →
      Yields .parameters v → c.token.kind = .punct .colon → Yields .union w →
        G (i :: v ++ c :: w)) : Broken p s r s' G := by
  have htype := yields_union p
  refine broken_bind h (breaks_parameters ht hb) (reads_parameters ht) ?_ ?_
  · rintro _ ⟨i, v, rfl, hi, hv⟩
    exact completes_of_kinds [.punct .colon, .identifier] (by decide) (hG hi hv rfl htype)
  · rintro _ as m - ⟨i, v, rfl, hi, hv⟩ h₁
    refine broken_expect_bind h₁ (by decide) ?_ fun c m₂ _ hc h₂ => ?_
    · exact completes_of_kinds [.punct .colon, .identifier] (by decide) (hG hi hv.yields rfl htype)
    · exact broken_type_bind hb h₂ fun u hu => hG hi hv.yields (List.mem_singleton.1 hc) hu

theorem breaks_callSignature : Breaks p (callSignature type) (Yields .member) :=
  fun _ _ _ h => broken_signature ht hb h fun hi ⟨_, hv⟩ hc ⟨_, hw⟩ => ⟨_, .call hi hv hc hw⟩

theorem breaks_indexSignature : Breaks p (indexSignature type) (Yields .member) := by
  intro s r s' h
  -- Each token that is expected can be missing: the rest of the signature is written from there.
  have htype := yields_union p
  have hG : ∀ {i n c j d : Item} {v w : List Item}, i.token.kind ∈ [Kind.punct .openBracket] →
      n.token.kind ∈ Kind.names → c.token.kind ∈ [Kind.punct .colon] → Yields .union v →
        j.token.kind ∈ [Kind.punct .closeBracket] → d.token.kind ∈ [Kind.punct .colon] →
          Yields .union w → Yields .member (i :: n :: c :: (v ++ j :: d :: w)) := by
    rintro i n c j d v w hi hn hc ⟨k, hv⟩ hj hd ⟨t, hw⟩
    rw [List.mem_singleton] at hi hc hj hd
    exact ⟨_, .index hi hn hc hv hj hd hw⟩
  have hname : (made p .identifier).token.kind ∈ Kind.names := List.mem_cons_self ..
  refine broken_expect_bind h (by decide) ?_ fun i m₁ _ hi h₁ => ?_
  · exact completes_of_kinds [.punct .openBracket, .identifier, .punct .colon, .identifier,
      .punct .closeBracket, .punct .colon, .identifier] (by decide)
      (hG mem_made hname mem_made htype mem_made mem_made htype)
  refine broken_expect_bind h₁ (by decide) ?_ fun n m₂ _ hn h₂ => ?_
  · exact completes_of_kinds [.identifier, .punct .colon, .identifier, .punct .closeBracket,
      .punct .colon, .identifier] (by decide) (hG hi hname mem_made htype mem_made mem_made htype)
  refine broken_expect_bind h₂ (by decide) ?_ fun c m₃ _ hc h₃ => ?_
  · exact completes_of_kinds [.punct .colon, .identifier, .punct .closeBracket, .punct .colon,
      .identifier] (by decide) (hG hi hn mem_made htype mem_made mem_made htype)
  refine broken_bind h₃ hb ht (fun u hu => ?_) fun v k m₄ _ hk h₄ => ?_
  · refine completes_of_kinds [.punct .closeBracket, .punct .colon, .identifier] (by decide) ?_
    exact hG hi hn hc hu mem_made mem_made htype
  refine broken_expect_bind h₄ (by decide) ?_ fun j m₅ _ hj h₅ => ?_
  · exact completes_of_kinds [.punct .closeBracket, .punct .colon, .identifier] (by decide)
      (hG hi hn hc hk.yields mem_made mem_made htype)
  refine broken_expect_bind h₅ (by decide) ?_ fun d m₆ _ hd h₆ => ?_
  · exact completes_of_kinds [.punct .colon, .identifier] (by decide)
      (hG hi hn hc hk.yields hj mem_made htype)
  · exact broken_type_bind hb h₆ fun u hu => hG hi hn hc hk.yields hj hd hu

omit ht hb in
theorem readonlyMark_ne_error : readonlyMark s ≠ .error r s' := by
  intro h
  rw [readonlyMark, bind_of_ok sees_apply] at h
  split at h
  · rw [bind_of_ok (peek_apply 1)] at h
    split at h <;> cases h
  · cases h

theorem breaks_keyed : Breaks p (keyed type) (Yields .member) := by
  intro s r s' h
  have htype := yields_union p
  have hG : ∀ {u q w : List Item} {k c : Item} {readonly optional : Bool},
      Maybe (.keyword .readonly) u readonly → k.token.kind ∈ Kind.keys →
        Maybe (.punct .question) q optional → c.token.kind ∈ [Kind.punct .colon] →
          Yields .union w → Yields .member (u ++ k :: (q ++ c :: w)) := by
    rintro u q w k c readonly optional hu hk hq hc ⟨t, hw⟩
    rw [List.mem_singleton] at hc
    exact ⟨_, by simpa using Derives.property hu hk hq hc hw⟩
  -- Until a parenthesis is seen, a property completes the member.
  obtain h | ⟨readonly, m₁, hr, h₁⟩ := bind_eq_error_iff.1 h
  · exact absurd h readonlyMark_ne_error
  obtain ⟨u, hup, hu⟩ := reads_readonlyMark hr
  refine .after hup (broken_expect_bind h₁ (by decide) ?_ fun k m₂ _ hk h₂ => ?_)
  · exact completes_of_kinds [.identifier, .punct .colon, .identifier] (by decide)
      (hG hu (List.mem_cons_self ..) .absent mem_made htype)
  refine broken_skip?_bind h₂ fun q optional m₃ _ hq h₃ => ?_
  rw [bind_of_ok sees_apply] at h₃
  split at h₃
  · split at h₃
    · refine .here (standsAt_of_reject h₃) ?_
      exact completes_of_kinds [.punct .colon, .identifier] (by decide) (hG hu hk hq mem_made htype)
    · next hno =>
      -- No word marks a method.
      cases hu with
      | present => exact absurd rfl hno
      | absent =>
        refine broken_signature ht hb h₃ fun hi ⟨ps, hv⟩ hc ⟨t, hw⟩ => ?_
        have hm := Derives.method hk hq hi hv hc hw
        exact ⟨_, by simpa using hm⟩
  · refine broken_expect_bind h₃ (by decide) ?_ fun c m₄ _ hc h₄ => ?_
    · exact completes_of_kinds [.punct .colon, .identifier] (by decide) (hG hu hk hq mem_made htype)
    · exact broken_type_bind hb h₄ fun w hw => hG hu hk hq hc hw

theorem breaks_member : Breaks p (member type) (Yields .member) := by
  intro s r s' h
  rw [member, bind_of_ok sees_apply] at h
  split at h
  · exact breaks_callSignature ht hb h
  · rw [bind_of_ok sees_apply] at h
    split at h
    · exact breaks_indexSignature ht hb h
    · exact breaks_keyed ht hb h

/-! ### Bodies -/

omit ht hb in
theorem completes_noMember : Completes p (Yields .members) [] :=
  completes_of_kinds [.punct .closeBrace] (by decide) ⟨_, .noMember rfl⟩

omit ht hb in
/-- A member that is the last one of its body, up to some of its end. -/
theorem completes_lastMember {i : Item} {v : List Item}
    (h : Completes p (Yields .member) (i.bare :: v)) : Completes p (Yields .members) (i :: v) := by
  obtain ⟨kinds, hk, a, ha⟩ := h
  refine ⟨kinds ++ [.punct .semicolon, .punct .closeBrace], by simp [hk], ?_⟩
  have hm := Derives.nextMember ha (.mark (.inl (kind_made p (.punct .semicolon))))
    (.noMember (kind_made p (.punct .closeBrace)))
  exact ⟨_, by simpa using hm⟩

theorem breaks_memberRound : Breaks p (memberRound type) (Yields .members) := by
  intro s r s' h
  rw [memberRound, bind_of_ok takeComments_apply, bind_of_ok sees_apply,
    Stream.ahead_afterComments] at h
  split at h
  · cases h
  rw [bind_of_ok sees_apply, Stream.ahead_afterComments] at h
  split at h
  · obtain ⟨rfl, hr⟩ := standsAt_of_reject h
    exact ⟨[], ⟨s, .nil s, .inr rfl⟩, hr, completes_noMember⟩
  · next heof =>
    obtain ⟨i, rest, hs, -⟩ := Stream.exists_item (s := s) (by simpa using heof)
    have hmember : Broken p s.afterComments r s' (Yields .member) := by
      refine broken_bind h (breaks_member ht hb) (reads_member ht) (fun u hu => ?_) ?_
      · exact ⟨[], List.not_mem_nil, by simpa using hu⟩
      · intro w a m _ hd h₁
        obtain h₁ | ⟨_, _, -, h₁⟩ := bind_eq_error_iff.1 h₁
        · exact .here (standsAt_of_terminator h₁) ⟨[], List.not_mem_nil, by simpa using hd.yields⟩
        · cases h₁
    -- The comments were taken before the member was, so its first token has lost them.
    obtain ⟨w, hw, hr, hc⟩ := hmember
    obtain ⟨rfl, hs'⟩ | ⟨v, rfl, hs'⟩ := Stream.leads_of_afterComments hw hs
    · exact ⟨[], hs', hr, completes_noMember⟩
    · exact ⟨_, hs', hr, completes_lastMember hc⟩

theorem broken_members (h : Fails (memberRound type) s r s') :
    Broken p s r s' (Yields .members) := by
  induction h with
  | now h => exact breaks_memberRound ht hb h
  | @later s m s' r found h hfails ih =>
    obtain ⟨i, rest, hs, ⟨-, hr, -⟩ | ⟨w, e, a, hd, -, hp, hend⟩⟩ := memberRound_sound ht h
    · cases hr
    obtain ⟨v, hv, hr, kinds, hk, ms, hms⟩ := ih
    refine ⟨_, hp.leads hv, hr, ?_⟩
    rcases v with - | ⟨n, v⟩
    · -- Nothing was taken after the member, so the body may end behind it.
      have hm := Derives.nextMember hd.forget
        (hend (.inr (.inl (List.mem_singleton_self (Kind.punct .closeBrace))))).forget
        (.noMember (kind_made p (.punct .closeBrace)))
      exact completes_of_kinds [.punct .closeBrace] (by decide) ⟨_, by simpa using hm⟩
    · -- The token that came next is still there, and so is what was told from it.
      obtain ⟨m', hm', -⟩ := hv
      have hm := Derives.nextMember hd.forget (hend (.inl hm'.ahead_zero.symm)).forget hms
      exact ⟨kinds, hk, _, by simpa using hm⟩

omit hb in
theorem closeBrace_of_rounds {ms : List Member} (h : Rounds (memberRound type) s ms m) :
    (m.ahead 0).kind = .punct .closeBrace := by
  induction h with
  | done h =>
    obtain ⟨i, rest, hs, ⟨hi, -, rfl⟩ | ⟨_, _, _, _, hr, -⟩⟩ := memberRound_sound ht h
    · rwa [Stream.ahead_afterComments, Stream.ahead_zero hs]
    · cases hr
  | more _ _ ih => exact ih

/-- Members between their braces. -/
def Bodied (w : List Item) : Prop :=
  ∃ i v, w = i :: v ∧ i.token.kind = .punct .openBrace ∧ Yields .members v

theorem breaks_body : Breaks p (body type) Bodied := by
  intro s r s' h
  refine broken_expect_bind h (by decide) ?_ fun i m₁ _ hi h₁ => ?_
  · exact completes_of_kinds [.punct .openBrace, .punct .closeBrace] (by decide)
      ⟨_, _, rfl, rfl, _, .noMember rfl⟩
  replace hi := List.mem_singleton.1 hi
  obtain h₁ | ⟨ms, m₂, hms, h₂⟩ := bind_eq_error_iff.1 h₁
  · exact (broken_members ht hb (fails_of_gather h₁)).imp fun u hu => ⟨_, _, rfl, hi, hu⟩
  · rw [gather_eq_ok_iff (memberRound_advances ht)] at hms
    obtain h₂ | ⟨_, _, -, h₂⟩ := bind_eq_error_iff.1 h₂
    · exact absurd h₂ (expect_ne_error (by rw [closeBrace_of_rounds ht hms]; decide))
    · cases h₂

end

end StyleDecl.Grammar
