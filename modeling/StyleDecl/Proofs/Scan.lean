import StyleDecl.Proofs.Spelling

/-!
# Scanning

A text is scanned lexeme by lexeme: blanks in front are passed over
(`Cursor.finds_blank`), and a lexeme makes its token and leaves what comes after it
to be scanned from the place it leads to (`Cursor.finds_lexeme`).

* `Kind.Spells`: a text that is scanned as one token of a kind, and nothing else;
* `Token.spells_of_mem_scan`: every token is spelled by its text.
-/

namespace StyleDecl

/-- What an answer is can be seen from its value. -/
theorem eq_ok_of_toOption {ε α : Type} {x : Except ε α} {a : α} (h : x.toOption = some a) :
    x = .ok a := by
  cases x with
  | error e => cases h
  | ok b => exact congrArg Except.ok (Option.some_inj.1 h)

/-- The text `s` is one token of the kind `k`, and nothing else. -/
def Kind.Spells (k : Kind) (s : String) : Prop :=
  ∃ t e, Token.scan s = .ok [t, e] ∧ t.kind = k ∧ t.text = s

namespace Cursor

variable {c : Char} {cs rest : List Char} {p : Position} {l : Lexeme} {cur next last : Cursor}
  {ts us : List Token}

/-! ### One step -/

/-- No lexeme begins with white space. -/
theorem not_isWhitespace_of_starting {next : Option Char} (h : Lexeme.starting c next = some l) :
    c.isWhitespace = false := by
  rw [Bool.eq_false_iff]
  intro hc
  simp only [Char.isWhitespace, Bool.or_eq_true, decide_eq_true_eq] at hc
  have hslash : c ≠ '/' := by
    rintro rfl
    simp at hc
  rw [Lexeme.starting_of_ne_slash hslash next none] at h
  have hnone : Lexeme.starting c none = none := by
    rcases hc with ((rfl | rfl) | rfl) | rfl <;> decide
  rw [hnone] at h
  cases h

theorem skipBlanks_of_not_blank (h : c.isWhitespace = false) :
    skipBlanks ⟨c :: rest, p⟩ = ⟨c :: rest, p⟩ := by
  simp [skipBlanks, move, Reading.blanks, Reading.span, h]

theorem step_blank (h : c.isWhitespace) : step ⟨c :: rest, p⟩ = step ⟨rest, p.next c⟩ := by
  simp [step, skipBlanks, move, Reading.blanks, Reading.span, h]

/-- Scanning depends on the next step only. -/
theorem scan_congr (h : cur.step = next.step) : cur.scan = next.scan := by
  cases hs : next.step with
  | finished => rw [scan_of_finished hs, scan_of_finished (h.trans hs)]
  | token => rw [scan_of_token hs, scan_of_token (h.trans hs)]
  | rejected => rw [scan_of_rejected hs, scan_of_rejected (h.trans hs)]

@[simp] theorem scan_nil : scan ⟨[], p⟩ = ⟨[], none, ⟨[], p⟩⟩ := scan_of_finished rfl

theorem step_lexeme (h : l.Spells cs) (hr : l.Stops cs rest) :
    step ⟨cs ++ rest, p⟩ = .token (token ⟨cs, p⟩ l cs) ⟨rest, p.after cs⟩ := by
  obtain ⟨c, tail, rfl, hstart⟩ := h.starts_more rest
  rw [step, List.cons_append, skipBlanks_of_not_blank (not_isWhitespace_of_starting hstart)]
  have hread := h.read_more hr
  rw [List.cons_append] at hread
  simp only [stepHere, hstart, take, hread, move]
  rfl

/-! ### Many steps -/

/-- Scanning from `cur` on finds the tokens `ts` and goes on at `next`. -/
def Finds (cur : Cursor) (ts : List Token) (next : Cursor) : Prop :=
  cur.scan = { next.scan with tokens := ts ++ next.scan.tokens }

theorem Finds.refl (cur : Cursor) : cur.Finds [] cur := rfl

theorem Finds.trans (h : cur.Finds ts next) (h' : next.Finds us last) :
    cur.Finds (ts ++ us) last := by
  rw [Finds, h, h', List.append_assoc]

theorem finds_blank (h : c.isWhitespace) : Finds ⟨c :: rest, p⟩ [] ⟨rest, p.next c⟩ :=
  scan_congr (step_blank h)

theorem finds_blanks (h : ∀ c ∈ cs, c.isWhitespace) :
    Finds ⟨cs ++ rest, p⟩ [] ⟨rest, p.after cs⟩ := by
  induction cs generalizing p with
  | nil => exact .refl _
  | cons c cs ih =>
    rw [List.forall_mem_cons] at h
    exact (finds_blank h.1).trans (ih h.2)

theorem finds_of_step {t : Token} (h : cur.step = .token t next) : cur.Finds [t] next :=
  scan_of_token h

theorem finds_lexeme (h : l.Spells cs) (hr : l.Stops cs rest) :
    Finds ⟨cs ++ rest, p⟩ [token ⟨cs, p⟩ l cs] ⟨rest, p.after cs⟩ :=
  finds_of_step (step_lexeme h hr)

/-- The first token begins on the line of the cursor if no blank is in front of it. -/
theorem line_of_scan (hc : c.isWhitespace = false) {t : Token}
    (h : t ∈ (scan ⟨c :: rest, p⟩).tokens.head?) : t.line = p.line := by
  cases hs : step ⟨c :: rest, p⟩ with
  | finished => rw [scan_of_finished hs] at h; cases h
  | rejected => rw [scan_of_rejected hs] at h; cases h
  | token u next =>
    rw [scan_of_token hs] at h
    obtain rfl := Option.some_inj.1 h
    rw [step, skipBlanks_of_not_blank hc, stepHere] at hs
    simp only at hs
    split at hs
    · cases hs
    · rw [take] at hs
      split at hs <;> cases hs
      rfl

/-- The token that is found was read as a lexeme, and its text spells this lexeme. -/
theorem spells_of_step {t : Token} (h : cur.step = .token t next) :
    ∃ l : Lexeme, l.Spells t.text.toList ∧ l.kind t.text.toList = t.kind := by
  rw [step, stepHere] at h
  split at h
  · cases h
  · next c rest hrest =>
    split at h
    · cases h
    · next l hl =>
      rw [take] at h
      split at h
      · next hc =>
        cases h
        rw [hrest] at hc
        refine ⟨l, ?_, ?_⟩
        · rw [token, hrest, String.toList_ofList]
          exact Lexeme.spells_of_read hl hc
        · rw [token, String.toList_ofList]
          cases l <;> rfl
      · cases h

end Cursor

/-! ### Spellings -/

section

variable {k : Kind} {s : String} {t : Token} {ts : List Token} {l : Lexeme}

theorem Lexeme.stops_nil (l : Lexeme) (cs : List Char) : l.Stops cs [] := by
  cases l <;> simp [Lexeme.Stops]

/-- A text is scanned as the tokens that are found up to its end. -/
theorem Token.scan_of_finds {source : String} {p : Position}
    (h : (Cursor.start source).Finds ts ⟨[], p⟩) :
    Token.scan source = .ok (ts ++ [Cursor.eof ⟨[], p⟩]) := by
  rw [Token.scan, h, Cursor.scan_nil, List.append_nil]

/-- A lexeme is one token. -/
theorem Lexeme.Spells.kind_spells (h : l.Spells s.toList) : (l.kind s.toList).Spells s := by
  have hfinds := Cursor.finds_lexeme (p := .start) h (l.stops_nil _)
  rw [List.append_nil] at hfinds
  refine ⟨_, _, Token.scan_of_finds hfinds, rfl, ?_⟩
  rw [Cursor.token, h.keeps, String.ofList_toList]

theorem Cursor.spells_of_mem_scan {cur : Cursor} (h : t ∈ cur.scan.tokens) :
    ∃ l : Lexeme, l.Spells t.text.toList ∧ l.kind t.text.toList = t.kind := by
  induction hn : cur.rest.length using Nat.strong_induction_on generalizing cur with
  | _ n ih =>
    cases hs : cur.step with
    | finished => rw [Cursor.scan_of_finished hs] at h; cases h
    | rejected => rw [Cursor.scan_of_rejected hs] at h; cases h
    | token u next =>
      rw [Cursor.scan_of_token hs] at h
      obtain rfl | h := List.mem_cons.1 h
      · exact Cursor.spells_of_step hs
      · exact ih _ (hn ▸ Cursor.length_rest_lt_of_step hs) h rfl

/-- Every token is spelled by its text. -/
theorem Token.spells_of_mem_scan {cur : Cursor} (h : t ∈ cur.scan.tokens) :
    t.kind.Spells t.text := by
  obtain ⟨l, hl, hk⟩ := Cursor.spells_of_mem_scan h
  exact hk ▸ hl.kind_spells

/-- The tokens of a text are those of its scan and the token for its end. -/
theorem Token.scan_eq_ok_iff {source : String} : Token.scan source = .ok ts ↔
    (Cursor.start source).scan.rejection = none ∧
      ts = (Cursor.start source).scan.tokens ++ [(Cursor.start source).scan.cursor.eof] := by
  rw [Token.scan]
  cases (Cursor.start source).scan.rejection with
  | some r => exact ⟨fun h => (by cases h), fun h => (by cases h.1)⟩
  | none => simp [eq_comm]

/-- What scanning a text that is one token comes to. -/
theorem Kind.Spells.tokens (h : k.Spells s) : (Cursor.start s).scan.rejection = none ∧
    ∃ t, (Cursor.start s).scan.tokens = [t] ∧ t.kind = k ∧ t.text = s := by
  obtain ⟨t, e, hscan, ht⟩ := h
  obtain ⟨hok, htokens⟩ := Token.scan_eq_ok_iff.1 hscan
  have heq : [t] ++ [e] = (Cursor.start s).scan.tokens ++ [_] := htokens
  exact ⟨hok, t, (List.append_inj' heq rfl).1.symm, ht⟩

/-- One token is one lexeme. -/
theorem Kind.spells_iff : k.Spells s ↔ ∃ l : Lexeme, l.Spells s.toList ∧ l.kind s.toList = k := by
  refine ⟨fun h => ?_, fun ⟨_, h, hk⟩ => hk ▸ h.kind_spells⟩
  obtain ⟨-, t, htokens, rfl, hs⟩ := h.tokens
  have hspells := Cursor.spells_of_mem_scan (htokens ▸ List.mem_singleton_self t)
  rwa [hs] at hspells

/-- The tokens of a text are closed by the only one for the end of the text. -/
theorem Token.exists_of_scan_eq_ok {source : String} (h : Token.scan source = .ok ts) :
    ∃ us e, ts = us ++ [e] ∧ e.kind = .eof ∧ ∀ t ∈ us, t.kind ≠ .eof ∧ t.kind.Spells t.text := by
  obtain ⟨-, rfl⟩ := Token.scan_eq_ok_iff.1 h
  refine ⟨_, _, rfl, rfl, fun t ht => ⟨?_, Token.spells_of_mem_scan ht⟩⟩
  obtain ⟨l, -, hk⟩ := Cursor.spells_of_mem_scan ht
  rw [← hk]
  cases l with
  | word => rw [Lexeme.kind]; split <;> nofun
  | _ => nofun

theorem Kind.comment_spells_iff : Kind.comment.Spells s ↔ Lexeme.comment.Spells s.toList := by
  refine ⟨fun h => ?_, fun h => h.kind_spells⟩
  obtain ⟨l, hl, hk⟩ := Kind.spells_iff.1 h
  cases l with
  | comment => exact hl
  | word => simp only [Lexeme.kind] at hk; split at hk <;> cases hk
  | _ => cases hk

theorem Kind.string_spells_iff : Kind.string.Spells s ↔ Lexeme.string.Spells s.toList := by
  refine ⟨fun h => ?_, fun h => h.kind_spells⟩
  obtain ⟨l, hl, hk⟩ := Kind.spells_iff.1 h
  cases l with
  | string => exact hl
  | word => simp only [Lexeme.kind] at hk; split at hk <;> cases hk
  | _ => cases hk

/-- A comment is one token, provided that its line ends with it. The token spans the
    lines of its text. -/
theorem Cursor.finds_comment {rest : List Char} {p : Position} (h : Kind.comment.Spells s)
    (hr : Reading.Stops (· ≠ '\n') rest) :
    ∃ t : Token, Cursor.Finds ⟨s.toList ++ rest, p⟩ [t] ⟨rest, p.after s.toList⟩ ∧
      t.kind = .comment ∧ t.text = s ∧ t.line = p.line ∧ t.endLine = (p.after s.toList).line := by
  have hl := Kind.comment_spells_iff.1 h
  exact ⟨_, finds_lexeme hl fun _ => hr, rfl, by rw [token, hl.keeps, String.ofList_toList], rfl,
    rfl⟩

end

end StyleDecl
