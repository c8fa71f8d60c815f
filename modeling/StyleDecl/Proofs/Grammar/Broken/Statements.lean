import StyleDecl.Proofs.Grammar.Broken.Types

/-!
# Rejected statements and files

What was taken of a statement before it is rejected can be completed, whatever comes after it, and
so can what was taken of a file. A file is completed with the end of the text.

* `breaks_statement`: statements;
* `broken_file`, `exists_of_rejected`: files.
-/

namespace StyleDecl.Grammar

open Reader

variable {α : Type} {s s' m : Stream} {r : Rejection} {p : Position} {w v : List Item}
  {G : List Item → Prop}

/-! ### Statements -/

/-- A statement is derived from the items `w`, whatever comes after them. -/
def Stands (w : List Item) : Prop := ∀ v, ∃ a, DerivesStatement false v w a

theorem broken_terminator_bind {closers : List Kind} {f : Unit → α}
    (h : (terminator closers >>= fun u => pure (f u)) s = .error r s')
    (hG : ∀ i : Item, EndMark i.token → G [i]) : Broken p s r s' G := by
  obtain h | ⟨_, _, -, h⟩ := bind_eq_error_iff.1 h
  · exact .here (standsAt_of_terminator h) (completes_of_kinds [.punct .semicolon] (by decide)
      (hG _ (.inl rfl)))
  · cases h

theorem modifiers_ne_error : modifiers s ≠ .error r s' := by
  intro h
  have hup : Fails modifierRound s r s' := fails_of_gather h
  clear h
  induction hup with
  | now h =>
    rw [modifierRound, bind_of_ok sees_apply] at h
    split at h
    · rw [bind_of_ok sees_apply, bind_of_ok (peek_apply 1)] at h
      split at h <;> cases h
    · cases h
  | later _ _ ih => exact ih

section

variable {u : List Item} {words : List String} (hu : Words u words)

include hu

/-- Words are completed with a type alias. -/
theorem completes_words : Completes p (fun w => Stands (u ++ w)) [] := by
  refine completes_of_kinds [.keyword .type, .identifier, .punct .equals, .identifier,
    .punct .semicolon] (by decide) fun v => ?_
  obtain ⟨t, ht⟩ := yields_union p
  have he : Terminator false [] [made p .identifier] [made p (.punct .semicolon)] v :=
    .mark (.inl rfl)
  have hs := DerivesStatement.typeAlias hu (kind_made p (.keyword .type))
    (kind_made p .identifier) (kind_made p (.punct .equals)) ht he
  exact ⟨_, by simpa using hs⟩

theorem breaks_exportDefault : Breaks p exportDefault fun w => Stands (u ++ w) := by
  intro s r s' h
  have hG : ∀ {i d n : Item} {e : Item}, i.token.kind ∈ [Kind.keyword .exportWord] →
      d.token.kind ∈ [Kind.keyword .default] → n.token.kind ∈ [Kind.identifier] →
        EndMark e.token → Stands (u ++ i :: d :: n :: [e]) := by
    intro i d n e hi hd hn he v
    rw [List.mem_singleton] at hi hd hn
    exact ⟨_, .exportDefault hu hi hd hn (.mark he)⟩
  refine broken_expect_bind h (by decide) (completes_words hu) fun i m₁ _ hi h₁ => ?_
  refine broken_expect_bind h₁ (by decide) ?_ fun d m₂ _ hd h₂ => ?_
  · exact completes_of_kinds [.keyword .default, .identifier, .punct .semicolon] (by decide)
      (hG hi mem_made mem_made endMark_made)
  refine broken_expect_bind h₂ (by decide) ?_ fun n m₃ _ hn h₃ => ?_
  · exact completes_of_kinds [.identifier, .punct .semicolon] (by decide)
      (hG hi hd mem_made endMark_made)
  · exact broken_terminator_bind h₃ fun e he => hG hi hd hn he

theorem breaks_typeAlias : Breaks p (typeAlias words) fun w => Stands (u ++ w) := by
  intro s r s' h
  have hG : ∀ {i n q e : Item} {w : List Item}, i.token.kind ∈ [Kind.keyword .type] →
      n.token.kind ∈ [Kind.identifier] → q.token.kind ∈ [Kind.punct .equals] → Yields .union w →
        EndMark e.token → Stands (u ++ i :: n :: q :: (w ++ [e])) := by
    rintro i n q e w hi hn hq ⟨t, hw⟩ he v
    rw [List.mem_singleton] at hi hn hq
    have hend : Terminator false [] w [e] v := .mark he
    have hs := DerivesStatement.typeAlias hu hi hn hq hw hend
    exact ⟨_, by simpa using hs⟩
  have htype := yields_union p
  refine broken_expect_bind h (by decide) (completes_words hu) fun i m₁ _ hi h₁ => ?_
  refine broken_expect_bind h₁ (by decide) ?_ fun n m₂ _ hn h₂ => ?_
  · exact completes_of_kinds [.identifier, .punct .equals, .identifier, .punct .semicolon]
      (by decide) (hG hi mem_made mem_made htype endMark_made)
  refine broken_expect_bind h₂ (by decide) ?_ fun q m₃ _ hq h₃ => ?_
  · exact completes_of_kinds [.punct .equals, .identifier, .punct .semicolon] (by decide)
      (hG hi hn mem_made htype endMark_made)
  refine broken_bind h₃ breaks_typeExpr reads_typeExpr (fun w hw => ?_) fun w t m₄ _ hw h₄ => ?_
  · exact completes_of_kinds [.punct .semicolon] (by decide) (hG hi hn hq hw endMark_made)
  · exact broken_terminator_bind h₄ fun e he => hG hi hn hq hw.yields he

theorem broken_variableDecl (h : variableDecl words s = .error r s')
    (hs : (s.ahead 0).kind ∈ [Kind.keyword .letWord, .keyword .const, .keyword .var]) :
    Broken p s r s' fun w => Stands (u ++ w) := by
  refine broken_advance_bind h hs (by decide) fun i m₁ _ hi h₁ => ?_
  have huntyped : ∀ {n e : Item}, n.token.kind ∈ [Kind.identifier] → EndMark e.token →
      Stands (u ++ i :: n :: [e]) := fun hn he v =>
    ⟨_, .untyped hu hi (List.mem_singleton.1 hn) (.mark he)⟩
  refine broken_expect_bind h₁ (by decide) ?_ fun n m₂ _ hn h₂ => ?_
  · exact completes_of_kinds [.identifier, .punct .semicolon] (by decide)
      (huntyped mem_made endMark_made)
  refine broken_skip?_bind h₂ fun q found m₃ _ hq h₃ => ?_
  cases hq with
  | absent => exact broken_terminator_bind h₃ fun e he => huntyped hn he
  | @present c hc =>
    have htyped : ∀ {w : List Item} {e : Item}, Yields .union w → EndMark e.token →
        Stands (u ++ i :: n :: c :: (w ++ [e])) := by
      rintro w e ⟨t, hw⟩ he v
      have hend : Terminator false [] w [e] v := .mark he
      have hs := DerivesStatement.typed hu hi (List.mem_singleton.1 hn) hc hw hend
      exact ⟨_, by simpa using hs⟩
    rw [if_pos rfl] at h₃
    have hbreaks : Breaks p (some <$> typeExpr) (Yields .union) := fun s r s' h => by
      obtain h | ⟨_, _, -, h⟩ := bind_eq_error_iff.1 h
      · exact breaks_typeExpr h
      · cases h
    have hreads : Reads (some <$> typeExpr) fun w _ => Yields .union w := fun s t s' h => by
      obtain ⟨t, m, ht, h⟩ := bind_eq_ok_iff.1 h
      cases h
      obtain ⟨w, hw, hd⟩ := reads_typeExpr ht
      exact ⟨w, hw, hd.yields⟩
    refine broken_bind h₃ hbreaks hreads (fun w hw => ?_) fun w t m₄ _ hw h₄ => ?_
    · exact completes_of_kinds [.punct .semicolon] (by decide) (htyped hw endMark_made)
    · exact broken_terminator_bind h₄ fun e he => htyped hw he

end

/-- The name and the members of an interface or a class, behind the word for it. -/
theorem broken_named {k : Kind} (h : named s = .error r s') (hs : (s.ahead 0).kind ∈ [k])
    (hk : k ≠ .eof) : Broken p s r s' fun w => ∃ i n v, w = i :: n :: v ∧ i.token.kind = k ∧
      n.token.kind = .identifier ∧ Bodied v := by
  refine broken_advance_bind h hs (by simpa using hk.symm) fun i m₁ _ hi h₁ => ?_
  replace hi := List.mem_singleton.1 hi
  refine broken_expect_bind h₁ (by decide) ?_ fun n m₂ _ hn h₂ => ?_
  · exact completes_of_kinds [.identifier, .punct .openBrace, .punct .closeBrace] (by decide)
      ⟨_, _, _, rfl, hi, rfl, _, _, rfl, rfl, _, .noMember rfl⟩
  · replace hn := List.mem_singleton.1 hn
    obtain h₂ | ⟨_, _, -, h₂⟩ := bind_eq_error_iff.1 h₂
    · exact (breaks_body reads_typeExpr breaks_typeExpr h₂).imp fun v hv =>
        ⟨_, _, _, rfl, hi, hn, hv⟩
    · cases h₂

theorem breaks_statement : Breaks p statement Stands := by
  intro s r s' h
  obtain h | ⟨words, m₁, hwords, h₁⟩ := bind_eq_error_iff.1 h
  · exact absurd h modifiers_ne_error
  obtain ⟨u, hup, hu⟩ := reads_modifiers hwords
  refine .after hup ?_
  rw [bind_of_ok sees_apply] at h₁
  split at h₁
  · exact breaks_exportDefault hu h₁
  rw [bind_of_ok sees_apply] at h₁
  split at h₁
  · exact breaks_typeAlias hu h₁
  rw [bind_of_ok sees_apply] at h₁
  split at h₁
  · next hk =>
    obtain h₁ | ⟨_, _, -, h₁⟩ := bind_eq_error_iff.1 h₁
    · refine (broken_named h₁ (List.contains_iff_mem.1 hk) nofun).imp ?_
      rintro _ ⟨i, n, _, rfl, hi, hn, b, w, rfl, hb, ms, hw⟩ v
      exact ⟨_, .interfaceDecl hu hi hn hb hw⟩
    · cases h₁
  rw [bind_of_ok sees_apply] at h₁
  split at h₁
  · next hk =>
    obtain h₁ | ⟨_, _, -, h₁⟩ := bind_eq_error_iff.1 h₁
    · refine (broken_named h₁ (List.contains_iff_mem.1 hk) nofun).imp ?_
      rintro _ ⟨i, n, _, rfl, hi, hn, b, w, rfl, hb, ms, hw⟩ v
      exact ⟨_, .classDecl hu hi hn hb hw⟩
    · cases h₁
  rw [bind_of_ok sees_apply] at h₁
  split at h₁
  · next hk => exact broken_variableDecl hu h₁ (List.contains_iff_mem.1 hk)
  · exact .here (standsAt_of_reject h₁) (completes_words hu)

/-! ### Files -/

/-- A file is derived from the items `w` and the end of the text behind them. -/
def IsDerived (p : Position) (w : List Item) : Prop :=
  ∃ ss, DerivesFile false (w ++ [made p .eof]) ss

theorem IsDerived.eofFree (h : IsDerived p (v ++ w)) : EofFree v := by
  obtain ⟨ss, h⟩ := h
  have hclosed := h.closed
  clear h
  induction v with
  | nil => exact eofFree_nil
  | cons i v ih =>
    rw [List.append_assoc, List.cons_append] at hclosed
    cases hv : v ++ (w ++ [made p .eof]) with
    | nil => simp at hv
    | cons j u =>
      rw [hv] at hclosed
      cases hclosed with
      | cons hi hu => exact eofFree_cons.2 ⟨hi, ih (by rwa [List.append_assoc, hv])⟩

theorem broken_statementRound (h : statementRound s = .error r s') (hs : Closed s.items) :
    Broken p s r s' (IsDerived p) := by
  obtain ⟨i, rest, hi⟩ := List.exists_cons_of_ne_nil hs.ne_nil
  rw [statementRound_of_items hi, bind_of_ok sees_apply] at h
  split at h
  · cases h
  obtain h | ⟨found, m, hm, h⟩ := bind_eq_error_iff.1 h
  · exact absurd h skip?_ne_error
  cases found with
  | true => cases h
  | false =>
    obtain ⟨hf, -⟩ | ⟨-, rfl, -⟩ := skip?_eq_ok hm
    · cases hf
    obtain h | ⟨_, _, -, h⟩ := bind_eq_error_iff.1 h
    · obtain ⟨w, hw, hr, kinds, hk, hc⟩ := breaks_statement (p := p) h
      obtain ⟨rfl, hs'⟩ | ⟨v, rfl, hs'⟩ := Stream.leads_of_afterComments hw hi
      · exact ⟨[], hs', hr, [], nofun, _, .done (kind_made p .eof)⟩
      · obtain ⟨a, ha⟩ := hc [made p .eof]
        have hf := DerivesFile.statement ha (.done (kind_made p .eof))
        exact ⟨_, hs', hr, kinds, hk, _, by simpa using hf⟩
    · cases h

theorem broken_statements (h : Fails statementRound s r s') (hs : Closed s.items) :
    Broken p s r s' (IsDerived p) := by
  have heof : (made p .eof).token.kind = .eof := rfl
  induction h with
  | now h => exact broken_statementRound h hs
  | @later s m s' r found h hfails ih =>
    obtain ⟨i, rest, hi, ⟨-, hr, -⟩ | ⟨hk, hp, -⟩ | ⟨w, a, hp, -, hef, hd⟩⟩ :=
      statementRound_sound h hs.ne_nil
    · cases hr
    · rw [hp.items] at hs
      exact .after hp ((ih (hs.of_append (by simp [hk]))).imp fun u ⟨ss, hu⟩ => ⟨_, .empty hk hu⟩)
    · rw [hp.items] at hs
      obtain ⟨v, hv, hr, kinds, hk, ss, hss⟩ := ih (hs.of_append hef)
      refine ⟨_, hp.leads hv, hr, ?_⟩
      rcases v with - | ⟨n, v⟩
      · -- Nothing was taken after the statement, so the file may end behind it.
        have hf := DerivesFile.statement (hd (v := []) (.inr heof)).forget (.done heof)
        exact ⟨[], nofun, _, by simpa using hf⟩
      · -- The token that came next is still there, and so is what was told from it.
        obtain ⟨m', hm', -⟩ := hv
        have hf := DerivesFile.statement (hd (.inl hm'.ahead_zero.symm)).forget hss
        exact ⟨kinds, hk, _, by simpa using hf⟩

theorem broken_file (h : file s = .error r s') (hs : Closed s.items) :
    Broken p s r s' (IsDerived p) := by
  obtain h | ⟨_, _, -, h⟩ := bind_eq_error_iff.1 h
  · exact broken_statements (fails_of_gather h) hs
  · cases h

/-- A file is rejected at a token of its text, and what comes before the token can be completed
    where it stands. -/
theorem exists_of_rejected (h : file s = .error r s') (hs : Closed s.items) :
    ∃ w j rest, s.Leads w s' ∧ s'.items = j :: rest ∧ r.StandsAt j.token ∧
      Completes ⟨0, j.token.line, j.token.column⟩
        (IsDerived ⟨0, j.token.line, j.token.column⟩) w := by
  obtain ⟨w, hw, hr, kinds, hk, hd⟩ :=
    broken_file (p := ⟨0, (s'.ahead 0).line, (s'.ahead 0).column⟩) h hs
  -- What was taken does not close the text, so there is a token at hand.
  obtain ⟨j, rest, hj⟩ : ∃ j rest, s'.items = j :: rest := by
    obtain ⟨m, hm, hs'⟩ := hw
    rw [hm.items] at hs
    obtain ⟨i, rest, hi⟩ := List.exists_cons_of_ne_nil (hs.of_append hd.eofFree).ne_nil
    rcases hs' with rfl | rfl
    · exact ⟨i, rest, hi⟩
    · exact ⟨_, _, Stream.items_afterComments hi⟩
  rw [Stream.ahead_zero hj] at hr hd
  exact ⟨w, j, rest, hw, hj, hr, kinds, hk, hd⟩

/-- A file that is read ends before the token that closes the text. -/
theorem exists_of_file {f : DeclFile} (h : file s = .ok f s') (hs : Closed s.items) :
    ∃ w i, s.Leads w s' ∧ s'.items = [i] ∧ i.comments = [] ∧ i.token.kind = .eof := by
  obtain ⟨ss, m, hg, h₁⟩ := bind_eq_ok_iff.1 h
  cases h₁
  rw [gather_eq_ok_iff statementRound_advances] at hg
  clear h
  induction hg with
  | @done s s' found h =>
    obtain ⟨i, rest, hi, ⟨hk, -, rfl⟩ | ⟨-, -, hr⟩ | ⟨_, _, _, hr, -⟩⟩ :=
      statementRound_sound h hs.ne_nil
    · refine ⟨[], i.bare, ⟨s, .nil s, .inr rfl⟩, ?_, rfl, hk⟩
      rw [hi] at hs
      cases hs with
      | last => exact Stream.items_afterComments hi
      | cons hne _ => exact absurd hk hne
    · cases hr
    · cases hr
  | more h _ ih =>
    obtain ⟨i, rest, hi, ⟨-, hr, -⟩ | ⟨hk, hp, -⟩ | ⟨w, a, hp, -, hef, -⟩⟩ :=
      statementRound_sound h hs.ne_nil
    · cases hr
    · rw [hp.items] at hs
      obtain ⟨v, j, hv, hj⟩ := ih (hs.of_append (by simp [hk]))
      exact ⟨_, j, hp.leads hv, hj⟩
    · rw [hp.items] at hs
      obtain ⟨v, j, hv, hj⟩ := ih (hs.of_append hef)
      exact ⟨_, j, hp.leads hv, hj⟩

theorem file_of_ok {tokens : List Token} {f : DeclFile} (h : DeclFile.ofTokens? tokens = .ok f) :
    ∃ s', Reader.file (Stream.ofTokens tokens) = .ok f s' := by
  rw [DeclFile.ofTokens?] at h
  split at h
  · next hfile =>
    cases h
    exact ⟨_, hfile⟩
  · cases h

theorem file_of_error {tokens : List Token} {r : Rejection}
    (h : DeclFile.ofTokens? tokens = .error r) :
    ∃ s', Reader.file (Stream.ofTokens tokens) = .error r s' := by
  rw [DeclFile.ofTokens?] at h
  split at h
  · cases h
  · next hfile =>
    cases h
    exact ⟨_, hfile⟩

end StyleDecl.Grammar
