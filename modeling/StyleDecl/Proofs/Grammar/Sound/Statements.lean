import StyleDecl.Proofs.Grammar.EndOfText
import StyleDecl.Proofs.Grammar.Sound.Types

/-!
# Reading statements and files

What is read as a statement or a file is derived. The end of a statement depends on the token after
it, which need not be known: any token will do that is the one at hand or the end of the text.

* `statement_sound`: statements;
* `file_sound`: files.
-/

namespace StyleDecl.Grammar

open Reader

variable {β : Type} {s s' m : Stream}

/-! ### Statements -/

theorem modifierRound_sound {r : Round String} (h : modifierRound s = .ok r m) :
    (r = .done [] ∧ m = s) ∨ ∃ i, s.Passes [i] m ∧
      (i.token.kind = .keyword .exportWord ∨ i.token.kind = .keyword .declare) ∧
      r = .more [i.token.text] := by
  rw [modifierRound, bind_of_ok sees_apply] at h
  split at h
  · next hw =>
    rw [bind_of_ok sees_apply, bind_of_ok (peek_apply 1)] at h
    split at h
    · cases h
      exact .inl ⟨rfl, rfl⟩
    · obtain ⟨i, m₁, hi, hik, h₁⟩ := advance_bind h (List.contains_iff_mem.1 hw) (by decide)
      cases h₁
      exact .inr ⟨i, hi, by simpa using hik, rfl⟩
  · cases h
    exact .inl ⟨rfl, rfl⟩

theorem modifierRound_advances : Advances modifierRound := fun s m found h => by
  obtain ⟨h, -⟩ | ⟨i, hp, -⟩ := modifierRound_sound h
  · cases h
  · exact length_lt_of_passes (List.cons_ne_nil _ _) hp

theorem reads_modifiers : Reads modifiers Words := by
  intro s words s' h
  rw [modifiers, gather_eq_ok_iff modifierRound_advances] at h
  induction h with
  | done h =>
    obtain ⟨hr, rfl⟩ | ⟨_, _, _, hr⟩ := modifierRound_sound h <;> cases hr
    exact ⟨[], .nil _, .nil⟩
  | more h _ ih =>
    obtain ⟨w, hw, hd⟩ := ih
    obtain ⟨hr, -⟩ | ⟨i, hp, hik, hr⟩ := modifierRound_sound h <;> cases hr
    exact ⟨_, hp.append hw, .cons hik hd⟩

/-- The end of a statement, with nothing after it. -/
theorem terminator_bind {f : Unit → Reader β} {b : β} {before : List Item} (hb : before ≠ [])
    {s₀ : Stream} (hs : s₀.Passes before s) (h : (terminator [] >>= f) s = .ok b s') :
    ∃ e m, s.Passes e m ∧ f () m = .ok b s' ∧ EofFree e ∧
      ∀ ⦃n v⦄, n.token = m.ahead 0 ∨ n.token.kind = .eof →
        Terminator true [] before e (n :: v) := by
  obtain ⟨u, m, hu, hf⟩ := bind_eq_ok_iff.1 h
  obtain ⟨l, hl⟩ := exists_getLast? hb
  obtain ⟨e, he, hmark, hend⟩ := terminator_sound hl (hs.last hl) hu
  exact ⟨e, m, he, hf, fun i hi => (hmark i hi).ne_eof, fun n v hn => hend (hn.imp_right .inr)⟩

/-- The name and the members of an interface or a class, behind the word for it. -/
theorem named_bind {f : String × List Member → Reader β} {b : β} {k : Kind}
    (h : (named >>= f) s = .ok b s') (hs : [k].contains (s.ahead 0).kind)
    (hk : k ≠ .eof) :
    ∃ i n o w ms m, s.Passes (i :: n :: o :: w) m ∧ i.token.kind = k ∧
      n.token.kind = .identifier ∧ o.token.kind = .punct .openBrace ∧
      Derives true .members w ms ∧ f (n.token.text, ms) m = .ok b s' := by
  obtain ⟨r, m, hr, hf⟩ := bind_eq_ok_iff.1 h
  obtain ⟨i, m₁, hi, hik, h₁⟩ :=
    advance_bind hr (List.contains_iff_mem.1 hs) (by simpa using hk.symm)
  obtain ⟨n, m₂, hn, hnk, h₂⟩ := expect_one_bind h₁ nofun
  obtain ⟨ms, m₃, hb, h₃⟩ := bind_eq_ok_iff.1 h₂
  cases h₃
  obtain ⟨_, hw, o, w, rfl, hok, hd⟩ := reads_body reads_typeExpr hb
  exact ⟨i, n, o, w, ms, _, hi.append (hn.append hw), List.mem_singleton.1 hik, hnk, hok, hd, hf⟩

/-- What a statement takes and what it derives. That depends on the token after it only, and it
    may as well stand at the end of the text. -/
theorem statement_sound {a : Statement} (h : statement s = .ok a s') :
    ∃ w, s.Passes w s' ∧ w ≠ [] ∧ EofFree w ∧ ∀ ⦃n v⦄,
      n.token = s'.ahead 0 ∨ n.token.kind = .eof → DerivesStatement true (n :: v) w a := by
  obtain ⟨words, m₁, hwords, h₁⟩ := bind_eq_ok_iff.1 h
  obtain ⟨u, hu, hd⟩ := reads_modifiers hwords
  -- The first word that is none of those before a statement decides what the statement is. `export`
  -- is such a word only before `default`.
  rw [bind_of_ok sees_apply] at h₁
  split at h₁
  · obtain ⟨i, m₂, hi, hik, h₂⟩ := expect_one_bind h₁ nofun
    obtain ⟨d, m₃, hdf, hdk, h₃⟩ := expect_one_bind h₂ nofun
    obtain ⟨n, m₄, hn, hnk, h₄⟩ := expect_one_bind h₃ nofun
    obtain ⟨e, m₅, he, h₅, hef, hend⟩ := terminator_bind (List.cons_ne_nil n []) hn h₄
    cases h₅
    exact ⟨_, hu.append (hi.append (hdf.append (hn.append he))), by simp,
      by simp [hd.eofFree, hik, hdk, hnk, hef],
      fun n v hv => .exportDefault hd hik hdk hnk (hend hv)⟩
  rw [bind_of_ok sees_apply] at h₁
  split at h₁
  · obtain ⟨i, m₂, hi, hik, h₂⟩ := expect_one_bind h₁ nofun
    obtain ⟨n, m₃, hn, hnk, h₃⟩ := expect_one_bind h₂ nofun
    obtain ⟨q, m₄, hq, hqk, h₄⟩ := expect_one_bind h₃ nofun
    obtain ⟨t, m₅, ht, h₅⟩ := bind_eq_ok_iff.1 h₄
    obtain ⟨w, hw, hdw⟩ := reads_typeExpr ht
    obtain ⟨e, m₆, he, h₆, hef, hend⟩ := terminator_bind (hdw.ne_nil nofun nofun) hw h₅
    cases h₆
    refine ⟨_, hu.append (hi.append (hn.append (hq.append (hw.append he)))), by simp,
      by simp [hd.eofFree, hik, hnk, hqk, hdw.eofFree, hef], fun n v hv => ?_⟩
    simpa using DerivesStatement.typeAlias hd hik hnk hqk hdw (hend hv)
  rw [bind_of_ok sees_apply] at h₁
  split at h₁
  · next hk =>
    obtain ⟨i, n, o, w, ms, m₂, hp, hik, hnk, hok, hdw, h₂⟩ := named_bind h₁ hk nofun
    cases h₂
    exact ⟨_, hu.append hp, by simp, by simp [hd.eofFree, hik, hnk, hok, hdw.eofFree],
      fun n v _ => .interfaceDecl hd hik hnk hok hdw⟩
  rw [bind_of_ok sees_apply] at h₁
  split at h₁
  · next hk =>
    obtain ⟨i, n, o, w, ms, m₂, hp, hik, hnk, hok, hdw, h₂⟩ := named_bind h₁ hk nofun
    cases h₂
    exact ⟨_, hu.append hp, by simp, by simp [hd.eofFree, hik, hnk, hok, hdw.eofFree],
      fun n v _ => .classDecl hd hik hnk hok hdw⟩
  rw [bind_of_ok sees_apply] at h₁
  split at h₁
  · next hk =>
    obtain ⟨i, m₂, hi, hik, h₂⟩ := advance_bind h₁ (List.contains_iff_mem.1 hk) (by decide)
    obtain ⟨n, m₃, hn, hnk, h₃⟩ := expect_one_bind h₂ nofun
    obtain ⟨q, found, m₄, hq, hqm, h₄⟩ := skip?_bind h₃
    cases hqm with
    | absent =>
      obtain rfl := Stream.passes_nil_iff.1 hq
      obtain ⟨e, m₅, he, h₅, hef, hend⟩ := terminator_bind (List.cons_ne_nil n []) hn h₄
      cases h₅
      exact ⟨_, hu.append (hi.append (hn.append he)), by simp,
        by simp [hd.eofFree, ne_eof_of_mem hik (by decide), hnk, hef],
        fun n v hv => .untyped hd hik hnk (hend hv)⟩
    | @present c hck =>
      obtain ⟨t?, m₅, ht, h₅⟩ := bind_eq_ok_iff.1 h₄
      obtain ⟨t, m₆, ht, h₆⟩ := bind_eq_ok_iff.1 ht
      cases h₆
      obtain ⟨w, hw, hdw⟩ := reads_typeExpr ht
      obtain ⟨e, m₇, he, h₇, hef, hend⟩ := terminator_bind (hdw.ne_nil nofun nofun) hw h₅
      cases h₇
      refine ⟨_, hu.append (hi.append (hn.append (hq.append (hw.append he)))), by simp,
        by simp [hd.eofFree, ne_eof_of_mem hik (by decide), hnk, hck, hdw.eofFree, hef],
        fun n v hv => ?_⟩
      simpa using DerivesStatement.typed hd hik hnk hck hdw (hend hv)
  · exact absurd h₁ reject_ne_ok

/-! ### Files -/

/-- The next statement, behind the comments before the item at hand. -/
theorem statementRound_of_items {i : Item} {rest : List Item} (hs : s.items = i :: rest) :
    statementRound s = (do
      if ← sees [.eof] then return .done (statementNotes true i)
      else if ← skip? .semicolon then return .more (statementNotes true i)
      else return .more (statementNotes true i ++ [← statement]) : Reader (Round Statement))
        s.afterComments := by
  have hnotes : commentStatements s.comments (s.afterComments.ahead 0) = statementNotes true i := by
    rw [Stream.comments_eq hs, Stream.ahead_afterComments, Stream.ahead_zero hs]
    rfl
  rw [statementRound, bind_of_ok takeComments_apply, bind_of_ok (peek_apply 0), hnotes]

/-- The end of the text, an empty statement, or a statement. -/
theorem statementRound_sound {r : Round Statement} (h : statementRound s = .ok r m)
    (hs : s.items ≠ []) :
    ∃ i rest, s.items = i :: rest ∧
      ((i.token.kind = .eof ∧ r = .done (statementNotes true i) ∧ m = s.afterComments) ∨
        (i.token.kind = .punct .semicolon ∧ s.Passes [i] m ∧ r = .more (statementNotes true i)) ∨
        ∃ w a, s.Passes (i :: w) m ∧ r = .more (statementNotes true i ++ [a]) ∧ EofFree (i :: w) ∧
          ∀ ⦃n v⦄, n.token = m.ahead 0 ∨ n.token.kind = .eof →
            DerivesStatement true (n :: v) (i.bare :: w) a) := by
  obtain ⟨i, rest, hs⟩ := List.exists_cons_of_ne_nil hs
  have hi := Stream.items_afterComments hs
  refine ⟨i, rest, hs, ?_⟩
  rw [statementRound_of_items hs, bind_of_ok sees_apply, Stream.ahead_zero hi] at h
  split at h
  · next hk =>
    cases h
    exact .inl ⟨by simpa using hk, rfl, rfl⟩
  · obtain ⟨q, found, m₁, hq, hqm, h₁⟩ := skip?_bind h
    cases hqm with
    | @present j hj =>
      cases h₁
      obtain rfl : i.bare = j := (List.cons.inj (hi.symm.trans hq.items)).1
      exact .inr (.inl ⟨hj, (Stream.passes_afterComments_iff hs).1 hq, rfl⟩)
    | absent =>
      obtain rfl := Stream.passes_nil_iff.1 hq
      rw [if_neg nofun] at h₁
      obtain ⟨a, m₂, ha, h₂⟩ := bind_eq_ok_iff.1 h₁
      cases h₂
      obtain ⟨w, hw, hne, hef, hd⟩ := statement_sound ha
      obtain ⟨j, w, rfl⟩ := List.exists_cons_of_ne_nil hne
      obtain rfl : i.bare = j := (List.cons.inj (hi.symm.trans hw.items)).1
      exact .inr (.inr
        ⟨w, a, (Stream.passes_afterComments_iff hs).1 hw, rfl, by simpa using hef, hd⟩)

theorem statementRound_advances : Advances statementRound := by
  intro s m found h
  by_cases hs : s.items = []
  · have hk : (s.ahead 0).kind = .eof := by simp [Stream.ahead, hs, s.final_kind]
    rw [statementRound, bind_of_ok takeComments_apply, bind_of_ok (peek_apply 0),
      bind_of_ok sees_apply, Stream.ahead_afterComments, hk, if_pos (by simp)] at h
    cases h
  · obtain ⟨i, rest, -, ⟨-, h, -⟩ | ⟨-, hp, -⟩ | ⟨w, a, hp, -⟩⟩ := statementRound_sound h hs
    · cases h
    · exact length_lt_of_passes (List.cons_ne_nil _ _) hp
    · exact length_lt_of_passes (List.cons_ne_nil _ _) hp

/-- A file that is read from a closed list of items is derived from them. -/
theorem file_sound {f : DeclFile} (h : file s = .ok f s') (hs : Closed s.items) :
    DerivesFile true s.items f.statements := by
  obtain ⟨ss, m, hg, h₁⟩ := bind_eq_ok_iff.1 h
  cases h₁
  rw [gather_eq_ok_iff statementRound_advances] at hg
  clear h
  induction hg with
  | done h =>
    obtain ⟨i, rest, hi, ⟨hk, hr, -⟩ | ⟨-, -, hr⟩ | ⟨_, _, _, hr, -⟩⟩ :=
      statementRound_sound h hs.ne_nil <;> cases hr
    rw [hi] at hs ⊢
    cases hs with
    | last => exact .done hk
    | cons hne _ => exact absurd hk hne
  | @more s m s' found others h _ ih =>
    obtain ⟨i, rest, hi, ⟨-, hr, -⟩ | ⟨hk, hp, hr⟩ | ⟨w, a, hp, hr, hef, hd⟩⟩ :=
      statementRound_sound h hs.ne_nil <;> cases hr
    · rw [hp.items] at hs ⊢
      exact .empty hk (ih (hs.of_append (by simp [hk])))
    · rw [hp.items] at hs ⊢
      have hm := hs.of_append hef
      -- The list is closed, so that there is a token after the statement to tell where it ends.
      obtain ⟨n, v, hv⟩ := List.exists_cons_of_ne_nil hm.ne_nil
      have hd := hd (v := v) (.inl (Stream.ahead_zero hv).symm)
      rw [← hv] at hd
      simpa using DerivesFile.statement hd (ih hm)

end StyleDecl.Grammar
