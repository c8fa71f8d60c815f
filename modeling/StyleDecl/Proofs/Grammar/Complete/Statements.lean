import StyleDecl.Proofs.Grammar.Complete.Members
import StyleDecl.Proofs.Grammar.Sound.Statements

/-!
# Derived statements and files are read

Statements and files are taken as what they derive. What comes after a statement is another one or
the end of the text, and does not go on with it.

* `DerivesStatement.taken`: statements;
* `DerivesFile.read`, `DerivesFile.ofTokens?`: files.
-/

namespace StyleDecl.Grammar

open Reader

variable {s s' m m' : Stream} {keep : Bool} {i : Item} {w v : List Item}

/-! ### Statements -/

/-- The tokens at hand do not go on with the words before a statement. -/
def EndsWords (s : Stream) : Prop :=
  (s.ahead 0).kind ≠ .keyword .default ∧
    ((s.ahead 0).kind = .keyword .exportWord → (s.ahead 1).kind = .keyword .default) ∧
    (s.ahead 0).kind ≠ .keyword .declare

theorem takes_modifiers {words : List String} (h : Words w words) :
    Takes modifiers EndsWords w words := by
  intro s s' hp he
  induction h generalizing s with
  | nil =>
    obtain rfl := Stream.passes_nil_iff.1 hp
    obtain ⟨-, hexport, hdeclare⟩ := he
    refine gather_of_done modifierRound_advances ?_
    rw [modifierRound, bind_of_ok sees_apply]
    split
    · next hw =>
      have hw : (s'.ahead 0).kind = .keyword .exportWord := by
        simpa [hdeclare] using hw
      rw [bind_of_ok sees_apply, bind_of_ok (peek_apply 1), hexport hw, hw, if_pos (by simp)]
      rfl
    · rfl
  | @cons i w words hi hw ih =>
    obtain ⟨m, h₁, hp⟩ := Passes.uncons hp
    refine gather_of_one modifierRound_advances ?_ (ih hp)
    -- The words before a statement are never the word after `export` in a default export.
    have hne : (m.ahead 0).kind ≠ .keyword .default := by
      cases hw with
      | nil =>
        obtain rfl := Stream.passes_nil_iff.1 hp
        exact he.1
      | cons hj _ => rw [hp.ahead_zero]; rcases hj with hj | hj <;> simp [hj]
    rw [modifierRound, bind_of_ok sees_apply, h₁.ahead_zero, if_pos (by simpa using hi),
      bind_of_ok sees_apply, bind_of_ok (peek_apply 1), ahead_one_of_passes h₁,
      if_neg (by simp [hne]), bind_of_ok (advance_of_passes h₁)]
    rfl

/-- The word for what is declared ends the words before it, unless it is one of them. -/
theorem endsWords_of_kind {k : Kind} (h : (s.ahead 0).kind = k)
    (hk : k ∉ [Kind.keyword .default, .keyword .exportWord, .keyword .declare]) :
    EndsWords s := by
  simp only [List.mem_cons, List.not_mem_nil, or_false, not_or] at hk
  subst h
  exact ⟨hk.1, fun he => absurd he hk.2.1, hk.2.2⟩

theorem starts_words {u : List Item} {words : List String} (hu : Words u words)
    (hi : ∃ k, i.token.kind = .keyword k) (hp : s.Passes (u ++ i :: w) s') :
    ∃ k, (s.ahead 0).kind = .keyword k := by
  cases hu with
  | nil => rwa [hp.ahead_zero]
  | cons hj _ => rw [hp.ahead_zero]; rcases hj with hj | hj <;> exact ⟨_, hj⟩

theorem keyword_of_mem {k : Kind}
    (h : k ∈ [Kind.keyword .letWord, .keyword .const, .keyword .var]) : ∃ w, k = .keyword w := by
  simp only [List.mem_cons, List.not_mem_nil, or_false] at h
  rcases h with rfl | rfl | rfl <;> exact ⟨_, rfl⟩

/-- A statement begins with a keyword. -/
theorem starts_statement {a : Statement} (h : DerivesStatement keep v w a) (hp : s.Passes w s') :
    ∃ k, (s.ahead 0).kind = .keyword k := by
  cases h with
  | exportDefault hu hi _ _ _ => exact starts_words hu ⟨_, hi⟩ hp
  | typeAlias hu hi _ _ _ _ => exact starts_words hu ⟨_, hi⟩ (by simpa using hp)
  | interfaceDecl hu hi _ _ _ | classDecl hu hi _ _ _ => exact starts_words hu ⟨_, hi⟩ hp
  | untyped hu hi _ _ => exact starts_words hu (keyword_of_mem hi) hp
  | typed hu hi _ _ _ _ => exact starts_words hu (keyword_of_mem hi) (by simpa using hp)

/-- The token at hand does not go on with a statement, neither with its type nor with
    the colon before it. -/
def EndsStatement (s : Stream) : Prop := EndsUnion s ∧ (s.ahead 0).kind ≠ .punct .colon

theorem ne_colon_of_terminator {closers : List Kind} {before e : List Item}
    (h : Terminator keep closers before e v) (he : s.Passes e m)
    (hm : (m.ahead 0).kind ≠ .punct .colon) : (s.ahead 0).kind ≠ .punct .colon := by
  cases h with
  | mark hi => rw [he.ahead_zero]; rcases hi with hi | hi <;> rw [hi] <;> nofun
  | closer | lineBreak => rwa [← Stream.passes_nil_iff.1 he]

/-- A file does not go on with a statement before it. -/
theorem endsStatement_of_file {ss : List Statement} (h : DerivesFile keep v ss)
    (hp : s.Passes v s') : EndsStatement s := by
  cases h with
  | done hi | empty hi _ =>
    exact ⟨endsUnion_of_kind (by rw [hp.ahead_zero, hi]) (by decide),
      by rw [hp.ahead_zero, hi]; nofun⟩
  | statement hd _ =>
    obtain ⟨m, h₁, -⟩ := Stream.passes_append_iff.1 hp
    obtain ⟨k, hk⟩ := starts_statement hd ((Stream.passes_afterComments_iff h₁.items).2 h₁)
    rw [Stream.ahead_afterComments] at hk
    exact ⟨endsUnion_of_kind hk (by simp), by rw [hk]; nofun⟩

/-- The name and the members of an interface or a class, behind the word for it. -/
theorem named_of_derives {n b : Item} {ms : List Member} (hn : n.token.kind = .identifier)
    (hb : b.token.kind = .punct .openBrace) (hw : Derives true .members w ms)
    (hp : s.Passes (i :: n :: b :: w) s') : named s = .ok (n.token.text, ms) s' := by
  obtain ⟨m₁, h₁, hp⟩ := Passes.uncons hp
  obtain ⟨m₂, h₂, hp⟩ := Passes.uncons hp
  have hms : Symbol.members.Taken typeExpr w ms :=
    hw.taken reads_typeExpr (fun _ _ _ h => takes_typeExpr h) (Nat.le_refl _)
  rw [named, bind_of_ok (advance_of_passes h₁), bind_of_ok (expect_one_of_passes h₂ hn),
    bind_of_ok (body_of_taken hb hms hp)]
  rfl

/-- A statement that declares a variable. -/
theorem statement_of_variable {u : List Item} {words : List String} (hu : Words u words)
    (hp : s.Passes u m)
    (hm : (m.ahead 0).kind ∈ [Kind.keyword .letWord, .keyword .const, .keyword .var]) :
    statement s = Reader.variableDecl words m := by
  have hk : ∀ k ∈ [Keyword.exportWord, .type, .interface, .classWord, .declare, .default],
      (m.ahead 0).kind ≠ .keyword k := by
    intro k hk he
    rw [he] at hm
    revert hk hm
    cases k <;> decide
  have hwords : EndsWords m :=
    ⟨hk _ (by decide), fun he => absurd he (hk _ (by decide)), hk _ (by decide)⟩
  rw [statement, bind_of_ok (takes_modifiers hu hp hwords), bind_of_ok sees_apply,
    if_neg (by simp [hk]), bind_of_ok sees_apply, if_neg (by simp [hk]), bind_of_ok sees_apply,
    if_neg (by simp [hk]), bind_of_ok sees_apply, if_neg (by simp [hk]), bind_of_ok sees_apply,
    if_pos (List.contains_iff_mem.2 hm)]

/-- What is derived is taken before what may come after it. -/
theorem DerivesStatement.taken {a : Statement} (h : DerivesStatement true v w a)
    (hp : s.Passes w m) (hv : m.Passes v s') (he : EndsStatement m) : statement s = .ok a m := by
  have hnone : Kind.punct .semicolon ∉ ([] : List Kind) ∧ Kind.punct .comma ∉ ([] : List Kind) :=
    ⟨nofun, nofun⟩
  cases h with
  | @exportDefault i d n u e words hu hi hd hn hend =>
    obtain ⟨m₁, h₁, hp⟩ := Stream.passes_append_iff.1 hp
    obtain ⟨m₂, h₂, hp⟩ := Passes.uncons hp
    obtain ⟨m₃, h₃, hp⟩ := Passes.uncons hp
    obtain ⟨m₄, h₄, h₅⟩ := Passes.uncons hp
    -- This `export` is none of the words before the statement, for `default` comes after it.
    have hwords : EndsWords m₁ := by
      rw [EndsWords, ahead_one_of_passes h₂, h₂.ahead_zero, h₃.ahead_zero, hi, hd]
      exact ⟨nofun, fun _ => rfl, nofun⟩
    rw [statement, bind_of_ok (takes_modifiers hu h₁ hwords), bind_of_ok sees_apply,
      h₂.ahead_zero, hi, if_pos (by simp), Reader.exportDefault,
      bind_of_ok (expect_one_of_passes h₂ hi), bind_of_ok (expect_one_of_passes h₃ hd),
      bind_of_ok (expect_one_of_passes h₄ hn),
      bind_of_ok (terminator_of_terminator hend h₄ h₅ hv hnone)]
    rfl
  | @typeAlias i n q u w e words t hu hi hn hq hd hend =>
    rw [List.append_assoc] at hp
    obtain ⟨m₁, h₁, hp⟩ := Stream.passes_append_iff.1 hp
    obtain ⟨m₂, h₂, hp⟩ := Passes.uncons hp
    obtain ⟨m₃, h₃, hp⟩ := Passes.uncons hp
    obtain ⟨m₄, h₄, hp⟩ := Passes.uncons hp
    obtain ⟨m₅, h₅, h₆⟩ := Stream.passes_append_iff.1 hp
    have hkind : (m₁.ahead 0).kind = .keyword .type := by rw [h₂.ahead_zero, hi]
    rw [statement, bind_of_ok (takes_modifiers hu h₁ (endsWords_of_kind hkind (by decide))),
      bind_of_ok sees_apply, hkind, if_neg (by simp), bind_of_ok sees_apply, hkind,
      if_pos (by simp), Reader.typeAlias, bind_of_ok (expect_one_of_passes h₂ hi),
      bind_of_ok (expect_one_of_passes h₃ hn), bind_of_ok (expect_one_of_passes h₄ hq),
      bind_of_ok (takes_typeExpr hd h₅ (endsUnion_of_terminator hend h₆ he.1)),
      bind_of_ok (terminator_of_terminator hend h₅ h₆ hv hnone)]
    rfl
  | @interfaceDecl i n b u w words ms hu hi hn hb hd =>
    obtain ⟨m₁, h₁, h₂⟩ := Stream.passes_append_iff.1 hp
    have hkind : (m₁.ahead 0).kind = .keyword .interface := by rw [h₂.ahead_zero, hi]
    rw [statement, bind_of_ok (takes_modifiers hu h₁ (endsWords_of_kind hkind (by decide))),
      bind_of_ok sees_apply, hkind, if_neg (by simp), bind_of_ok sees_apply, hkind,
      if_neg (by simp), bind_of_ok sees_apply, hkind, if_pos (by simp),
      bind_of_ok (named_of_derives hn hb hd h₂)]
    rfl
  | @classDecl i n b u w words ms hu hi hn hb hd =>
    obtain ⟨m₁, h₁, h₂⟩ := Stream.passes_append_iff.1 hp
    have hkind : (m₁.ahead 0).kind = .keyword .classWord := by rw [h₂.ahead_zero, hi]
    rw [statement, bind_of_ok (takes_modifiers hu h₁ (endsWords_of_kind hkind (by decide))),
      bind_of_ok sees_apply, hkind, if_neg (by simp), bind_of_ok sees_apply, hkind,
      if_neg (by simp), bind_of_ok sees_apply, hkind, if_neg (by simp), bind_of_ok sees_apply,
      hkind, if_pos (by simp), bind_of_ok (named_of_derives hn hb hd h₂)]
    rfl
  | @untyped i n u e words hu hi hn hend =>
    obtain ⟨m₁, h₁, hp⟩ := Stream.passes_append_iff.1 hp
    obtain ⟨m₂, h₂, hp⟩ := Passes.uncons hp
    obtain ⟨m₃, h₃, h₄⟩ := Passes.uncons hp
    -- No type is read: the token after the name is a mark, or else the one after the statement.
    have hcolon := ne_colon_of_terminator hend h₄ he.2
    rw [statement_of_variable hu h₁ (by rwa [h₂.ahead_zero]), Reader.variableDecl,
      bind_of_ok (advance_of_passes h₂), bind_of_ok (expect_one_of_passes h₃ hn),
      bind_of_ok (skip?_of_ne hcolon), if_neg nofun]
    exact bind_of_ok (terminator_of_terminator hend h₃ h₄ hv hnone)
  | @typed i n c u w e words t hu hi hn hc hd hend =>
    rw [List.append_assoc] at hp
    obtain ⟨m₁, h₁, hp⟩ := Stream.passes_append_iff.1 hp
    obtain ⟨m₂, h₂, hp⟩ := Passes.uncons hp
    obtain ⟨m₃, h₃, hp⟩ := Passes.uncons hp
    obtain ⟨m₄, h₄, hp⟩ := Passes.uncons hp
    obtain ⟨m₅, h₅, h₆⟩ := Stream.passes_append_iff.1 hp
    have htype : (some <$> typeExpr) m₄ = .ok (some t) m₅ := by
      rw [map_eq_pure_bind,
        bind_of_ok (takes_typeExpr hd h₅ (endsUnion_of_terminator hend h₆ he.1))]
      rfl
    rw [statement_of_variable hu h₁ (by rwa [h₂.ahead_zero]), Reader.variableDecl,
      bind_of_ok (advance_of_passes h₂), bind_of_ok (expect_one_of_passes h₃ hn),
      bind_of_ok (skip?_of_passes h₄ hc), if_pos rfl, bind_of_ok htype]
    exact bind_of_ok (terminator_of_terminator hend h₅ h₆ hv hnone)

/-! ### Files -/

/-- What is derived from the items of a stream is what is read from it. -/
theorem DerivesFile.read {ss : List Statement} (h : DerivesFile true w ss) :
    ∀ ⦃s : Stream⦄, s.items = w → ∃ s', file s = .ok ⟨ss⟩ s' := by
  suffices hg : ∀ ⦃s : Stream⦄, s.items = w → ∃ s', gather statementRound s = .ok ss s' by
    intro s hs
    obtain ⟨s', hs'⟩ := hg hs
    exact ⟨s', bind_of_ok hs'⟩
  induction h with
  | @done i hi =>
    intro s hs
    refine ⟨s.afterComments, gather_of_done statementRound_advances ?_⟩
    rw [statementRound_of_items hs, bind_of_ok sees_apply, Stream.ahead_afterComments,
      Stream.ahead_zero hs, hi, if_pos (by simp)]
    rfl
  | @empty i v ss hi _ ih =>
    intro s hs
    obtain ⟨s', hs'⟩ := ih (Stream.items_afterToken hs)
    refine ⟨s', gather_of_more statementRound_advances ?_ hs'⟩
    rw [statementRound_of_items hs, bind_of_ok sees_apply, Stream.ahead_afterComments,
      Stream.ahead_zero hs, hi, if_neg (by simp),
      bind_of_ok (skip?_of_eq (Stream.items_afterComments hs) hi), if_pos rfl,
      Stream.afterToken_afterComments hs]
    rfl
  | @statement i w v a ss hd hv ih =>
    intro s hs
    obtain ⟨m, hp⟩ := Stream.exists_passes hs
    have hm : m.items = v := List.append_cancel_left (hp.items.symm.trans hs)
    obtain ⟨m', hm'⟩ := Stream.exists_passes (hm.trans (List.append_nil v).symm)
    obtain ⟨s', hs'⟩ := ih hm
    -- The comments are taken first. What they leave begins with a keyword, so it is neither the end
    -- of the text nor an empty statement.
    replace hp := (Stream.passes_afterComments_iff hs).2 hp
    have ha := hd.taken hp hm' (endsStatement_of_file hv hm')
    obtain ⟨k, hk⟩ := starts_statement hd hp
    refine ⟨s', ?_⟩
    have hround : statementRound s = .ok (.more (statementNotes true i ++ [a])) m := by
      rw [statementRound_of_items hs, bind_of_ok sees_apply, hk, if_neg (by simp),
        bind_of_ok (skip?_of_ne (by rw [hk]; nofun)), if_neg nofun, bind_of_ok ha]
      rfl
    simpa using gather_of_more statementRound_advances hround hs'

/-- What is derived from the items of a list of tokens is the file of these tokens. -/
theorem DerivesFile.ofTokens? {tokens : List Token} {ss : List Statement}
    (h : DerivesFile true (Item.group tokens) ss) : DeclFile.ofTokens? tokens = .ok ⟨ss⟩ := by
  obtain ⟨s', hs'⟩ := h.read (s := Stream.ofTokens tokens) rfl
  rw [DeclFile.ofTokens?, hs']

end StyleDecl.Grammar
