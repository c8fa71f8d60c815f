import StyleDecl.Proofs.Grammar.Moved
import StyleDecl.Proofs.Grammar.Overlap

/-!
# Rejections are neither late nor early

A text is rejected at the first token that cannot stand where it stands, as far as can be told
from it and the token after it.

* The rejection is not late: what stands before the token is the beginning of a text that is
  read (`broken_file`), so no token was read before that should have been rejected.
* It is not early: no text is read that begins in the same way up to the token after it
  (`Overlap.tandem`), so the token is rejected for good reason.

Texts are lists of tokens here. The columns of tokens do not count, but their lines do, since a
line break may take the place of a terminator.
-/

namespace StyleDecl

open Grammar

namespace Token

/-- A list of tokens without comments, in the order of their lines, that ends with its only
    token for the end of the text. -/
structure IsPlain (tokens : List Token) : Prop where
  uncommented : ∀ t ∈ tokens, t.kind ≠ .comment
  ordered : tokens.Pairwise fun t u => t.line ≤ u.line
  closed : ∃ ts e, tokens = ts ++ [e] ∧ e.kind = .eof ∧ ∀ t ∈ ts, t.kind ≠ .eof

/-- Tokens without comments before them make items of their own. -/
theorem group_append {ts us : List Token} (h : ∀ t ∈ ts, t.kind ≠ .comment) :
    Item.group (ts ++ us) = ts.map (⟨[], ·⟩) ++ Item.group us := by
  induction ts with
  | nil => rfl
  | cons t ts ih =>
    rw [List.forall_mem_cons] at h
    rw [List.cons_append, Item.group, if_neg h.1, ih h.2]
    rfl

theorem group_of_uncommented {ts : List Token} (h : ∀ t ∈ ts, t.kind ≠ .comment) :
    Item.group ts = ts.map (⟨[], ·⟩) := by
  simpa [Item.group] using @group_append ts [] h

theorem IsPlain.group {tokens : List Token} (h : IsPlain tokens) :
    Item.group tokens = tokens.map (⟨[], ·⟩) :=
  group_of_uncommented h.uncommented

theorem IsPlain.closed_group {tokens : List Token} (h : IsPlain tokens) :
    Closed (Item.group tokens) := by
  obtain ⟨ts, e, rfl, he, hne⟩ := h.closed
  exact Grammar.closed_group he hne

end Token

namespace Grammar

/-- A file that can be derived is read. -/
theorem accepted_of_derived {tokens : List Token} {ss : List Statement}
    (h : DerivesFile false (Item.group tokens) ss) : ∃ f, DeclFile.ofTokens? tokens = .ok f := by
  obtain ⟨ss', hd, -⟩ := h.recall
  exact ⟨⟨ss'⟩, hd.ofTokens?⟩

end Grammar

section

variable {before after : List Token} {t : Token} {kinds : List Kind}

/-- Tokens of the kinds `kinds` and the end of the text, on the line of the token `t`. -/
def Token.instead (t : Token) (kinds : List Kind) : List Token :=
  (kinds ++ [Kind.eof]).map fun k => (made ⟨0, t.line, t.column⟩ k).token

theorem Token.IsPlain.instead (h : IsPlain (before ++ t :: after)) (hk : Kind.comment ∉ kinds)
    (hbefore : ∀ u ∈ before, u.kind ≠ .eof) (hkinds : Kind.eof ∉ kinds) :
    IsPlain (before ++ t.instead kinds) := by
  obtain ⟨hordered, -, hle⟩ := List.pairwise_append.1 h.ordered
  have hline : ∀ u ∈ t.instead kinds, u.line = t.line := by
    intro u hu
    obtain ⟨k, -, rfl⟩ := List.mem_map.1 hu
    rfl
  refine ⟨List.forall_mem_append.2 ⟨fun u hu => ?_, fun u hu => ?_⟩,
    List.pairwise_append.2 ⟨hordered, ?_, fun u hu v hv => ?_⟩, ?_⟩
  · exact h.uncommented u (List.mem_append_left _ hu)
  · obtain ⟨k, hk', rfl⟩ := List.mem_map.1 hu
    rintro rfl
    simp [hk] at hk'
  · refine List.pairwise_of_forall_mem_list fun u hu v hv => ?_
    exact Nat.le_of_eq ((hline u hu).trans (hline v hv).symm)
  · rw [hline v hv]
    exact hle u hu t (List.mem_cons_self ..)
  · refine ⟨before ++ kinds.map fun k => (made ⟨0, t.line, t.column⟩ k).token,
      (made ⟨0, t.line, t.column⟩ .eof).token, ?_, rfl,
      List.forall_mem_append.2 ⟨hbefore, fun u hu => ?_⟩⟩
    · rw [Token.instead, List.map_append, List.map_singleton, List.append_assoc]
    · obtain ⟨k, hk', rfl⟩ := List.mem_map.1 hu
      rintro rfl
      exact hkinds hk'

/-- What was read before a rejection can be completed on the same line. -/
theorem Grammar.IsDerived.accepted (h : Token.IsPlain (before ++ t :: after))
    (hk : Kind.comment ∉ kinds) (hd : IsDerived ⟨0, t.line, t.column⟩
      (before.map (⟨[], ·⟩) ++ kinds.map (made ⟨0, t.line, t.column⟩))) :
    Token.IsPlain (before ++ t.instead kinds) ∧
      ∃ f, DeclFile.ofTokens? (before ++ t.instead kinds) = .ok f := by
  have hfree := IsDerived.eofFree (w := []) (by rwa [List.append_nil])
  rw [eofFree_append] at hfree
  have hplain : Token.IsPlain (before ++ t.instead kinds) := by
    -- Nothing is derived beyond the end of the text, so none of these tokens stands for it.
    refine h.instead hk (fun u hu => hfree.1 ⟨[], u⟩ (List.mem_map_of_mem hu)) fun he => ?_
    exact hfree.2 _ (List.mem_map_of_mem he) rfl
  refine ⟨hplain, ?_⟩
  obtain ⟨ss, hd⟩ := hd
  refine @accepted_of_derived _ ss ?_
  rw [hplain.group, List.map_append, Token.instead, List.map_map, List.map_append]
  exact (List.append_assoc ..) ▸ hd

end

namespace DeclFile

variable {tokens before after : List Token} {t : Token} {r : Rejection} {s' : Stream}

/-- A rejection stands at a token of the text, and what was read before can be completed. -/
theorem exists_of_rejected (hplain : Token.IsPlain tokens)
    (h : Reader.file (Stream.ofTokens tokens) = .error r s') :
    ∃ before t after, tokens = before ++ t :: after ∧ r.StandsAt t ∧
      s'.items.length = after.length + 1 ∧ ∃ kinds : List Kind, Kind.comment ∉ kinds ∧
        IsDerived ⟨0, t.line, t.column⟩ (before.map (⟨[], ·⟩) ++
          kinds.map (made ⟨0, t.line, t.column⟩)) := by
  have hclosed : Closed (Stream.ofTokens tokens).items := hplain.closed_group
  obtain ⟨w, j, rest, hw, hj, hr, kinds, hk, hd⟩ := Grammar.exists_of_rejected h hclosed
  have htokens := hw.tokens
  obtain ⟨m, hm, -⟩ := hw
  have hitems : tokens.map (⟨[], ·⟩) = w ++ m.items := hplain.group ▸ hm.items
  refine ⟨w.map Item.token, j.token, rest.map Item.token, ?_, hr, ?_, kinds, hk, ?_⟩
  · rw [hj] at htokens
    rw [← List.map_cons, ← htokens]
    change _ = (Item.group tokens).map Item.token
    rw [hplain.group, List.map_map]
    exact (List.map_id tokens).symm
  · rw [hj, List.length_cons, List.length_map]
  · have hbare : (w.map Item.token).map (⟨[], ·⟩) = w := by
      rw [List.map_map]
      refine (List.map_congr_left fun i hi => ?_).trans (List.map_id w)
      have hi' : i ∈ tokens.map (⟨[], ·⟩) := hitems ▸ List.mem_append_left _ hi
      obtain ⟨u, -, rfl⟩ := List.mem_map.1 hi'
      rfl
    rwa [hbare]

/-- Texts that begin alike up to the token behind the one at which `after` begins, and go on with
    the rest of `after` and with `rest`. -/
def alike (after rest : List Token) : Overlap where
  Same := Token.Alike
  refl := .refl
  alike := id
  whole := after.isEmpty
  rest := Item.group (after.drop 1)
  rest' := Item.group rest

theorem reach_alike (h : ∀ u ∈ after, u.kind ≠ .comment) (rest : List Token) :
    (alike after rest).reach ≤ after.length + 1 := by
  rcases after with - | ⟨u, after⟩
  · exact Nat.zero_le _
  · have hgroup : Item.group after = after.map (⟨[], ·⟩) :=
      Token.group_of_uncommented fun v hv => h v (List.mem_cons_of_mem _ hv)
    have hlength := congrArg List.length hgroup
    rw [List.length_map] at hlength
    exact Nat.le_of_eq (congrArg (· + 2) hlength)

theorem meets_alike (hplain : Token.IsPlain (before ++ t :: after)) {begins rest : List Token}
    (hsame : List.Forall₂ Token.Alike (before ++ t :: after.take 1) begins) :
    (alike after rest).Meets false ((before ++ t :: after.take 1).length + 1)
      (Stream.ofTokens (before ++ t :: after)) (Stream.ofTokens (begins ++ rest))
      ((before ++ t :: after.take 1).map (⟨[], ·⟩)) (begins.map (⟨[], ·⟩)) := by
  have hsplit : before ++ t :: after = (before ++ t :: after.take 1) ++ after.drop 1 := by
    rw [List.append_assoc, List.cons_append, List.take_append_drop]
  have hcommon : ∀ u ∈ before ++ t :: after.take 1, u.kind ≠ .comment := fun u hu =>
    hplain.uncommented u (hsplit ▸ List.mem_append_left _ hu)
  refine ⟨?_, ?_, ?_, ?_, ?_, nofun⟩
  · rw [hsplit]
    exact Token.group_append hcommon
  · refine Token.group_append fun u hu => ?_
    obtain ⟨v, hv, hvu⟩ := exists_of_mem_right hsame hu
    exact hvu.kind ▸ hcommon v hv
  · rw [List.forall₂_map_left_iff, List.forall₂_map_right_iff]
    exact hsame.imp fun _ _ hu => ⟨rfl, hu⟩
  · rcases after with - | ⟨u, after⟩
    · refine .inl ⟨rfl, ?_⟩
      have hclosed := hplain.closed_group
      rwa [hplain.group] at hclosed
    · exact .inr ⟨rfl, by simp⟩
  · rw [List.length_map]
    exact Nat.lt_succ_self _

/-- Nothing is read that begins like a text that is rejected, up to the token behind the one
    where it is rejected. -/
theorem not_ok_of_alike (hplain : Token.IsPlain (before ++ t :: after))
    (h : Reader.file (Stream.ofTokens (before ++ t :: after)) = .error r s')
    (hs' : s'.items.length = after.length + 1) {begins rest : List Token}
    (hsame : List.Forall₂ Token.Alike (before ++ t :: after.take 1) begins) (f : DeclFile) :
    ofTokens? (begins ++ rest) ≠ .ok f := by
  intro hf
  obtain ⟨m, hm⟩ := file_of_ok hf
  have hrun := (alike after rest).tandem.agrees_file.run ⟨_, _, meets_alike hplain hsame⟩
  rw [h, hm] at hrun
  cases hrun with
  | parted hl =>
    -- The token where the text is rejected is still in common, and so is the one behind it.
    have hafter : ∀ u ∈ after, u.kind ≠ .comment := fun u hu =>
      hplain.uncommented u (List.mem_append_right _ (List.mem_cons_of_mem _ hu))
    have hreach := reach_alike hafter rest
    change s'.items.length < (alike after rest).reach at hl
    omega

/-- A text is rejected at a token where it could not have gone on. What comes before the token
    can be completed to a text that is read, and nothing is read that has the same tokens on the
    same lines up to the token and the one behind it. -/
theorem rejected_neither_late_nor_early (hplain : Token.IsPlain tokens)
    (h : ofTokens? tokens = .error r) :
    ∃ before t after, tokens = before ++ t :: after ∧ r.StandsAt t ∧
      (∃ more f, Token.IsPlain (before ++ more) ∧ ofTokens? (before ++ more) = .ok f) ∧
      ∀ ⦃begins rest⦄, List.Forall₂ Token.Alike (before ++ t :: after.take 1) begins →
        ∀ f, ofTokens? (begins ++ rest) ≠ .ok f := by
  obtain ⟨s', hs'⟩ := file_of_error h
  obtain ⟨before, t, after, rfl, hr, hlength, kinds, hk, hd⟩ := exists_of_rejected hplain hs'
  obtain ⟨hmore, f, hf⟩ := hd.accepted hplain hk
  exact ⟨before, t, after, rfl, hr, ⟨_, f, hmore, hf⟩,
    fun _ _ hsame f => not_ok_of_alike hplain hs' hlength hsame f⟩

/-- A type alias without a type is rejected at the semicolon. -/
theorem rejected_alias_without_type :
    let tokens : List Token := [⟨.keyword .type, "type", 1, 1, 1⟩, ⟨.identifier, "A", 1, 6, 1⟩,
      ⟨.punct .equals, "=", 1, 8, 1⟩, ⟨.punct .semicolon, ";", 1, 9, 1⟩, ⟨.eof, "", 1, 10, 1⟩]
    let r : Rejection := ⟨.noType (.punct .semicolon), 1, 9⟩
    Token.IsPlain tokens ∧ ofTokens? tokens = .error r ∧
      ∃ before t after, tokens = before ++ t :: after ∧ r.StandsAt t ∧
        (∃ more f, Token.IsPlain (before ++ more) ∧ ofTokens? (before ++ more) = .ok f) ∧
        ∀ ⦃begins rest⦄, List.Forall₂ Token.Alike (before ++ t :: after.take 1) begins →
          ∀ f, ofTokens? (begins ++ rest) ≠ .ok f := by
  intro tokens r
  have hplain : Token.IsPlain tokens :=
    ⟨by decide, by decide, tokens.dropLast, ⟨.eof, "", 1, 10, 1⟩, rfl, rfl, by decide⟩
  have hr : ofTokens? tokens = .error r := rfl
  exact ⟨hplain, hr, rejected_neither_late_nor_early hplain hr⟩

end DeclFile

end StyleDecl
