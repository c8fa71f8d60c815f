import StyleDecl.Proofs.Grammar.Words.Types

/-!
# The words of derived statements and files

A statement holds the words of its tokens, but a default export does not hold the modifiers before
it. So a file holds the words of the tokens that are kept.

* `DerivesStatement.words`: statements;
* `DerivesFile.words`: files.
-/

namespace StyleDecl

namespace Grammar

open Reader

variable {keep : Bool} {w v : List Item} {i : Item}

/-! ### Modifiers -/

/-- Modifiers before what is neither a modifier nor the word `default` lead to no default
    export. -/
theorem Words.leadsToDefault {words : List String} {t : Token} (h : Words w words)
    (ts : List Token) (ht : t.isModifier = false) (hd : t.kind ≠ .keyword .default) :
    Token.leadsToDefault (w.map Item.token ++ t :: ts) = false := by
  induction h with
  | nil => exact Token.leadsToDefault_of_not ht
  | @cons i w words hi hw ih =>
    -- After a modifier comes another one or `t`, and neither is the word `default`.
    have hnext : ∃ u us, w.map Item.token ++ t :: ts = u :: us ∧ u.kind ≠ .keyword .default := by
      cases hw with
      | nil => exact ⟨t, ts, rfl, hd⟩
      | cons hj _ => exact ⟨_, _, rfl, by rcases hj with hj | hj <;> simp [hj]⟩
    obtain ⟨u, us, hu, hk⟩ := hnext
    rw [hu] at ih
    rw [List.map_cons, List.cons_append, hu, Token.leadsToDefault, ih]
    simp [hk]

/-- The modifiers of a statement that is no default export are kept. -/
theorem Words.settled {words : List String} {k : Keyword} (h : Words w words)
    (hi : i.token.kind = .keyword k) (hk : k ∉ [Keyword.exportWord, .declare, .default])
    (hv : Settled v) : Settled (w ++ i :: v) := by
  have hmodifier : i.token.isModifier = false := by
    simp only [List.mem_cons, not_or] at hk
    simp [Token.isModifier, hi, hk]
  have hdefault : i.token.kind ≠ .keyword .default := by
    rintro he
    rw [hi] at he
    cases he
    exact hk (by decide)
  induction h with
  | nil => exact hv.cons hmodifier
  | @cons j w words _ hw ih =>
    intro ts
    have hlead := hw.leadsToDefault (v.map Item.token ++ ts) hmodifier hdefault
    have hkept := ih ts
    simp only [List.map_append, List.map_cons, List.cons_append, List.append_assoc] at hkept ⊢
    rw [Token.kept, hlead, Bool.and_false, hkept]
    rfl

/-- Modifiers before a default export are not kept. -/
theorem Words.kept_default {words : List String} {t u : Token} (h : Words w words)
    (ts : List Token) (ht : t.kind = .keyword .exportWord) (hu : u.kind = .keyword .default) :
    Token.leadsToDefault (w.map Item.token ++ t :: u :: ts) ∧
      Token.kept (w.map Item.token ++ t :: u :: ts) = t :: u :: Token.kept ts := by
  have hmodifier : u.isModifier = false := by simp [Token.isModifier, hu]
  induction h with
  | nil =>
    refine ⟨by simp [Token.leadsToDefault, ht, hu], ?_⟩
    rw [List.map_nil, List.nil_append, Token.kept_cons_of_head hmodifier,
      Token.kept_cons_of_not hmodifier]
  | @cons i w words hi _ ih =>
    have hi : i.token.isModifier := by rcases hi with hi | hi <;> simp [Token.isModifier, hi]
    obtain ⟨v, vs, hv⟩ : ∃ v vs, w.map Item.token ++ t :: u :: ts = v :: vs := by
      cases w <;> exact ⟨_, _, rfl⟩
    rw [hv] at ih
    rw [List.map_cons, List.cons_append, hv]
    exact ⟨by simp [Token.leadsToDefault, hi, ih.1], by rw [Token.kept, hi, ih.1]; exact ih.2⟩

theorem Words.words {words : List String} (h : Words w words) :
    Item.words w = words.map Word.ofText := by
  induction h with
  | nil => rfl
  | @cons i w words hi _ ih =>
    have hk : i.token.kind ∈ Kind.keys := by rcases hi with hi | hi <;> rw [hi] <;> decide
    simp [Token.word?_of_mem hk, ih]

/-! ### Statements and files -/

theorem settled_identifier (hi : i.token.kind = .identifier) (hw : Settled w) :
    Settled (i :: w) :=
  .cons (by simp [Token.isModifier, hi]) hw

/-- The words that variables begin with are no modifiers. -/
theorem keyword_of_variable
    (hi : i.token.kind ∈ [Kind.keyword .letWord, .keyword .const, .keyword .var]) :
    ∃ k, i.token.kind = .keyword k ∧ k ∉ [Keyword.exportWord, .declare, .default] := by
  simp only [List.mem_cons, List.not_mem_nil, or_false] at hi
  obtain hi | hi | hi := hi <;> exact ⟨_, hi, by decide⟩

/-- The tokens of a statement that is no default export are kept. -/
theorem DerivesStatement.settled {a : Statement} (h : DerivesStatement keep v w a)
    (ha : ∀ name, a ≠ .exportDefault name) : Settled w := by
  cases h with
  | exportDefault => exact absurd rfl (ha _)
  | typeAlias hu hi hn hq hd he =>
    have htype := hd.settled.cons (isModifier_of_punct hq)
    exact (hu.settled hi (by decide) (settled_identifier hn htype)).append he.settled
  | interfaceDecl hu hi hn hb hd | classDecl hu hi hn hb hd =>
    have hbody := hd.settled.cons (isModifier_of_punct hb)
    exact hu.settled hi (by decide) (settled_identifier hn hbody)
  | untyped hu hi hn he =>
    obtain ⟨k, hk, hne⟩ := keyword_of_variable hi
    exact hu.settled hk hne (settled_identifier hn he.settled)
  | typed hu hi hn hc hd he =>
    obtain ⟨k, hk, hne⟩ := keyword_of_variable hi
    have htype := hd.settled.cons (isModifier_of_punct hc)
    exact (hu.settled hk hne (settled_identifier hn htype)).append he.settled

/-- A statement that is no default export holds the words that it is derived from. -/
theorem DerivesStatement.words {a : Statement} (h : DerivesStatement keep v w a)
    (hw : ∀ i ∈ w, Spelled i) (ha : ∀ name, a ≠ .exportDefault name) :
    Item.words w = a.words := by
  cases h with simp only [List.append_assoc, List.cons_append, List.forall_mem_append,
    List.forall_mem_cons] at hw
  | exportDefault => exact absurd rfl (ha _)
  | typeAlias hu hi hn hq hd he =>
    simp [hu.words, words_keyword hi hw.2.1, words_identifier hn, Token.word?_of_punct hq,
      hd.words hw.2.2.2.2.1, he.words, Statement.words, Symbol.words]
  | interfaceDecl hu hi hn hb hd | classDecl hu hi hn hb hd =>
    simp [hu.words, words_keyword hi hw.2.1, words_identifier hn, Token.word?_of_punct hb,
      hd.words hw.2.2.2.2, Statement.words, Symbol.words]
  | untyped hu hi hn he =>
    obtain ⟨k, hk, -⟩ := keyword_of_variable hi
    have htext := text_of_keyword_spells (hw.2.1.spells hk (by simp))
    simp [hu.words, words_keyword hk hw.2.1, words_identifier hn, he.words, Statement.words, htext]
  | typed hu hi hn hc hd he =>
    obtain ⟨k, hk, -⟩ := keyword_of_variable hi
    have htext := text_of_keyword_spells (hw.2.1.spells hk (by simp))
    simp [hu.words, words_keyword hk hw.2.1, words_identifier hn, Token.word?_of_punct hc,
      hd.words hw.2.2.2.2.1, he.words, Statement.words, Symbol.words, htext]

/-- A statement holds the words of those of its tokens that are kept. -/
theorem DerivesStatement.kept {a : Statement} (h : DerivesStatement keep v w a)
    (hw : ∀ i ∈ w, Spelled i) (ts : List Token) :
    Token.words (Token.kept (w.map Item.token ++ ts)) = a.words ++ Token.words (Token.kept ts) := by
  by_cases ha : ∀ name, a ≠ .exportDefault name
  · rw [h.settled ha, Token.words_append, ← h.words hw ha]
    rfl
  -- Only the words `v` before a default export are lost.
  · cases h with
    | @exportDefault i d n v e words hu hi hd hn he =>
      simp only [List.forall_mem_append, List.forall_mem_cons] at hw
      have htail := settled_identifier hn he.settled ts
      have hkept := (hu.kept_default ((n :: e).map Item.token ++ ts) hi hd).2
      have htokens : Token.kept ((v ++ i :: d :: n :: e).map Item.token ++ ts) =
          (i :: d :: n :: e).map Item.token ++ Token.kept ts := by
        rw [htail] at hkept
        simpa using hkept
      have hwords : Item.words (i :: d :: n :: e) =
          (Statement.exportDefault n.token.text).words := by
        simp [words_keyword hi hw.2.1, words_keyword hd hw.2.2.1, words_identifier hn, he.words,
          Statement.words]
      rw [htokens, Token.words_append, ← hwords]
      rfl
    | _ => exact absurd (fun _ => nofun) ha

theorem words_statementNotes (keep : Bool) (i : Item) (ss : List Statement) :
    (statementNotes keep i ++ ss).flatMap Statement.words = ss.flatMap Statement.words := by
  rw [List.flatMap_append,
    flatMap_statementNotes (fun s hs => by cases s <;> first | rfl | cases hs), List.nil_append]

/-- A file holds the words of those of its tokens that are kept. -/
theorem DerivesFile.words {ss : List Statement} (h : DerivesFile keep w ss)
    (hw : ∀ i ∈ w, Spelled i) :
    Token.words (Token.kept (w.map Item.token)) = ss.flatMap Statement.words := by
  induction h with simp only [List.cons_append, List.forall_mem_append, List.forall_mem_cons] at hw
  | @done i hi =>
    have hnotes := words_statementNotes keep i []
    rw [List.append_nil] at hnotes
    have heof : i.token.word? = none := if_neg fun hk => by
      simp [hi, Kind.keys, Kind.names] at hk
    rw [hnotes, List.map_singleton, Token.kept_cons_of_not (by simp [Token.isModifier, hi])]
    exact List.filterMap_cons_none heof
  | @empty i v ss hi _ ih =>
    rw [words_statementNotes, List.map_cons, Token.kept_cons_of_not (isModifier_of_punct hi),
      ← ih hw.2]
    exact List.filterMap_cons_none (Token.word?_of_punct hi)
  | @statement i w v a ss hd _ ih =>
    have hs := hd.kept (List.forall_mem_cons.2 ⟨hw.1.bare, hw.2.1⟩) (v.map Item.token)
    rw [words_statementNotes, List.flatMap_cons, ← ih hw.2.2, ← hs, List.map_append]
    rfl

end Grammar

end StyleDecl
