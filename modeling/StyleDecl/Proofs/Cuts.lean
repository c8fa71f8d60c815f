import StyleDecl.Proofs.Lexical

/-!
# Cutting a text into lexemes

A text is cut into lexemes from left to right, by taking the longest lexeme at each place and
skipping the white space in front of it. Each lexeme makes a token, which tells where it begins
and, of a comment, where it ends; places are told by the line feeds in front of them. So cutting
says of any text what its tokens are, and where it has none, without a word about reading.

Scanning follows the cutting, token by token (`Cursor.finds_of_cuts`), and comes to the same end.

* `Lexeme.Makes`: the token of a lexeme at its place;
* `Cuts`: cutting off lexemes;
* `Token.scan_iff_cuts`: the tokens of a text, and the place where it has none.
-/

namespace StyleDecl

/-! ### Places and tokens -/

/-- The line of the place behind the characters `before`, from one. -/
def lineBehind (before : List Char) : Nat := 1 + before.count '\n'

/-- The column of the place behind the characters `before`: its distance from the last line feed,
    or from the place before the first character. -/
def columnBehind (before : List Char) : Nat := 1 + (before.reverse.takeWhile (· ≠ '\n')).length

/-- The lexeme `l`, written `cs` behind the characters `before`, makes the token `t`. Only comments
    are told where they end. -/
structure Lexeme.Makes (l : Lexeme) (before cs : List Char) (t : Token) : Prop where
  denotes : l.Denotes cs t.kind t.text.toList
  line : t.line = lineBehind before
  column : t.column = columnBehind before
  endLine : t.endLine = if l = comment then lineBehind (before ++ cs) else lineBehind before

/-- The token for the end of the text `text`. -/
def Token.closingOf (text : List Char) : Token :=
  ⟨.eof, "", lineBehind text, columnBehind text, lineBehind text⟩

/-- Why no lexeme begins with the character `c` when `next` is the character after it. -/
def Fault.ofPlace (c : Char) (next : Option Char) : Fault :=
  if c = '/' ∧ (next = none ∨ next = some '*') then .unterminatedComment
  else if c = '"' ∨ c = '\'' then .unterminatedString
  else .unexpectedCharacter c

/-- Behind the characters `before`, lexemes that make the tokens `ts` are cut off the text `rest`,
    with white space before each of them, up to the place behind the characters `before'`, where
    `rest'` is left. -/
inductive Cuts : (before rest : List Char) → (ts : List Token) → (before' rest' : List Char) → Prop
  | nil (before rest : List Char) : Cuts before rest [] before rest
  | cons {before blanks cs rest before' rest' : List Char} {l : Lexeme} {t : Token}
    {ts : List Token} :
    (∀ b ∈ blanks, b.isWhitespace) → l.Longest cs (cs ++ rest) → l.Makes (before ++ blanks) cs t →
      Cuts (before ++ blanks ++ cs) rest ts before' rest' →
      Cuts before (blanks ++ (cs ++ rest)) (t :: ts) before' rest'

/-- Cutting loses nothing. -/
theorem Cuts.text {before rest before' rest' : List Char} {ts : List Token}
    (h : Cuts before rest ts before' rest') : before ++ rest = before' ++ rest' := by
  induction h with
  | nil => rfl
  | cons _ _ _ _ ih => simpa using ih

variable {c : Char} {cs rest before blanks : List Char} {l : Lexeme} {t : Token}

theorem Position.after_start (before : List Char) :
    Position.start.after before = ⟨before.length, lineBehind before, columnBehind before⟩ := by
  induction before using List.reverseRecOn with
  | nil => rfl
  | append_singleton before c ih =>
    rw [after_append, ih, after_cons, after_nil, next]
    split
    · next hc => simp [hc, lineBehind, columnBehind, Nat.add_assoc]
    · next hc =>
      simp [hc, lineBehind, columnBehind, Nat.add_comm]

/-! ### Tokens -/

/-- The token that reading gives for the lexeme `l`, written `cs` behind the characters `before`. -/
def Lexeme.tokenBehind (l : Lexeme) (before cs : List Char) : Token where
  kind := l.kind cs
  text := String.ofList (l.text cs)
  line := lineBehind before
  column := columnBehind before
  endLine := if l = comment then lineBehind (before ++ cs) else lineBehind before

/-- A lexeme makes one token only. -/
theorem Lexeme.Forms.makes_iff (h : l.Forms cs) (before : List Char) :
    l.Makes before cs t ↔ t = l.tokenBehind before cs := by
  constructor
  · rintro ⟨hdenotes, hline, hcolumn, hend⟩
    obtain ⟨hkind, htext⟩ := h.denotes_iff.1 hdenotes
    ext
    · exact hkind
    · rw [tokenBehind, ← htext, String.ofList_toList]
    · exact hline
    · exact hcolumn
    · exact hend
  · rintro rfl
    exact ⟨h.denotes_iff.2 ⟨rfl, String.toList_ofList⟩, rfl, rfl, rfl⟩

/-- Where a token was cut off. -/
theorem Cuts.exists_of_append {before rest before' rest' : List Char} {us vs : List Token}
    {t : Token} (h : Cuts before rest (us ++ t :: vs) before' rest') :
    ∃ (l : Lexeme) (m blanks cs more : List Char), Cuts before rest us m (blanks ++ (cs ++ more)) ∧
      (∀ b ∈ blanks, b.isWhitespace) ∧ l.Longest cs (cs ++ more) ∧
      t = l.tokenBehind (m ++ blanks) cs := by
  induction us generalizing before rest with
  | nil =>
    cases h with
    | cons hblanks hl ht _ =>
      exact ⟨_, before, _, _, _, .nil _ _, hblanks, hl, (hl.forms.makes_iff _).1 ht⟩
  | cons u us ih =>
    cases h with
    | cons hblanks hl hu hrest =>
      obtain ⟨l, m, blanks, cs, more, hcuts, h⟩ := ih hrest
      exact ⟨l, m, blanks, cs, more, .cons hblanks hl hu hcuts, h⟩

/-! ### Places where no lexeme begins -/

namespace Lexeme

/-- The fault where no lexeme begins. -/
theorem ofPlace_of_starting_eq_none (h : starting c rest.head? = none) :
    Fault.ofPlace c rest.head? = .unexpectedCharacter c := by
  unfold starting at h
  split at h
  · cases h
  next hs =>
    split at h
    · cases h
    next hq =>
      rw [isQuote_iff] at hq
      rw [Fault.ofPlace, if_neg fun hc => hs ⟨hc.1, hc.2.imp_right .inr⟩, if_neg hq]

/-- The fault where a lexeme begins and does not end. -/
theorem ofPlace_of_not_complete (h : starting c rest.head? = some l)
    (hc : ¬(l.read (c :: rest)).complete) : Fault.ofPlace c rest.head? = l.fault := by
  obtain ⟨rfl, rfl, hnext⟩ | ⟨rfl, hq⟩ | ⟨rfl, -⟩ | ⟨rfl, -⟩ | ⟨p, rfl, -⟩ := starting_eq_some h
  · have hblock : rest.head? = none ∨ rest.head? = some '*' := by
      rcases hnext with hnone | hslash | hstar
      · exact .inl hnone
      · -- A line comment ends wherever the text does.
        obtain ⟨rest, rfl⟩ := List.head?_eq_some_iff.1 hslash
        exact absurd rfl hc
      · exact .inr hstar
    rw [Fault.ofPlace, if_pos ⟨rfl, hblock⟩, fault]
  · rw [isQuote_iff] at hq
    rw [Fault.ofPlace, if_neg (by rcases hq with rfl | rfl <;> simp), if_pos hq, fault]
    nofun
  all_goals exact absurd rfl hc

end Lexeme

/-! ### Cutting and scanning -/

/-- Lexemes can be cut off until nothing but white space is left, or no lexeme begins. -/
theorem Cuts.exists (before text : List Char) :
    ∃ ts before' blanks rest, Cuts before text ts before' (blanks ++ rest) ∧
      (∀ b ∈ blanks, b.isWhitespace) ∧ (rest = [] ∨ ∃ c rest', rest = c :: rest' ∧
        c.isWhitespace = false ∧ ∀ ⦃l cs⦄, Lexeme.Forms l cs → ¬cs <+: c :: rest') := by
  induction hn : text.length using Nat.strong_induction_on generalizing before text with
  | _ n ih =>
    obtain ⟨gap, tail, rfl, hgap, hhead⟩ : ∃ gap tail, text = gap ++ tail ∧
        (∀ b ∈ gap, b.isWhitespace) ∧ Reading.Stops Char.isWhitespace tail :=
      ⟨_, _, (List.takeWhile_append_dropWhile (p := Char.isWhitespace)).symm,
        fun _ => List.mem_takeWhile_imp, fun c hc => by
          have hnot := List.head?_dropWhile_not Char.isWhitespace text
          rw [Option.mem_def.1 hc] at hnot
          simpa using hnot⟩
    rcases tail with - | ⟨c, rest⟩
    · exact ⟨[], before, gap, [], .nil _ _, hgap, .inl rfl⟩
    rcases Lexeme.longest_or_not_forms c rest with ⟨l, cs, rest', heq, hne, hl⟩ | hnone
    · -- A lexeme is cut off, and the rest is shorter.
      have hpos := List.length_pos_iff.2 hne
      rw [heq] at hn ⊢
      simp only [List.length_append] at hn
      obtain ⟨ts, before', blanks, last, hcuts, hblanks, hlast⟩ :=
        ih rest'.length (by omega) (before ++ gap ++ cs) rest' rfl
      have hmakes := (hl.forms.makes_iff (before ++ gap)).2 rfl
      exact ⟨_, before', blanks, last, .cons hgap hl hmakes hcuts, hblanks, hlast⟩
    · have hc := Reading.stops_cons_iff.1 hhead
      exact ⟨[], before, gap, c :: rest, .nil _ _, hgap, .inr ⟨c, rest, rfl, hc, hnone⟩⟩

namespace Cursor

variable {p : Position} {before' rest' : List Char} {ts : List Token}

theorem scan_blanks (h : ∀ b ∈ blanks, b.isWhitespace) :
    scan ⟨blanks, p⟩ = ⟨[], none, ⟨[], p.after blanks⟩⟩ := by
  have hfinds : Finds ⟨blanks ++ [], p⟩ [] ⟨[], p.after blanks⟩ := finds_blanks h
  rw [List.append_nil] at hfinds
  rw [hfinds, scan_nil]
  rfl

/-- The token of a lexeme that is read. -/
theorem token_start (l : Lexeme) (before cs rest : List Char) :
    token ⟨rest, Position.start.after before⟩ l cs = l.tokenBehind before cs := by
  rw [token, Lexeme.tokenBehind, ← Position.after_append, Position.after_start,
    Position.after_start]

/-- The token that closes a text. -/
theorem eof_start (before rest : List Char) :
    eof ⟨rest, Position.start.after before⟩ = Token.closingOf before := by
  rw [eof, Token.closingOf, Position.after_start]

/-- Where a lexeme is cut off, its token is found. -/
theorem step_longest (h : l.Longest cs (cs ++ rest)) :
    step ⟨cs ++ rest, Position.start.after before⟩ =
      .token (l.tokenBehind before cs) ⟨rest, Position.start.after (before ++ cs)⟩ := by
  obtain ⟨c, tail, rfl, hstart, hread⟩ := h.read
  rw [List.cons_append] at hread ⊢
  rw [step, skipBlanks_of_not_blank (not_isWhitespace_of_starting hstart)]
  simp only [stepHere, hstart, take, hread, move, if_true, token_start, Position.beyond_zero,
    Position.after_append]

/-- Where lexemes are cut off, their tokens are found. -/
theorem finds_of_cuts (h : Cuts before rest ts before' rest') :
    Finds ⟨rest, Position.start.after before⟩ ts ⟨rest', Position.start.after before'⟩ := by
  induction h with
  | nil => exact .refl _
  | @cons before blanks cs rest before' rest' l t ts hblanks hl ht _ ih =>
    obtain rfl := (hl.forms.makes_iff _).1 ht
    have hgap : Finds ⟨blanks ++ (cs ++ rest), Position.start.after before⟩ [] _ :=
      finds_blanks hblanks
    rw [← Position.after_append] at hgap
    exact (hgap.trans (finds_of_step (step_longest hl))).trans ih

/-- A text is rejected where no lexeme begins, and where one begins and does not end. -/
theorem step_rejected (hc : c.isWhitespace = false) (h : ∀ l : Lexeme,
    Lexeme.starting c rest.head? = some l → (l.read (c :: rest)).complete = false) :
    ∃ next, step ⟨c :: rest, p⟩ =
      .rejected (reject ⟨c :: rest, p⟩ (.ofPlace c rest.head?)) next := by
  rw [step, skipBlanks_of_not_blank hc]
  cases hstart : Lexeme.starting c rest.head? with
  | none =>
    simp only [stepHere, hstart, Lexeme.ofPlace_of_starting_eq_none hstart]
    exact ⟨_, rfl⟩
  | some l =>
    have hincomplete := Bool.eq_false_iff.1 (h l hstart)
    rw [Lexeme.ofPlace_of_not_complete hstart hincomplete]
    simp only [stepHere, hstart, take, if_neg hincomplete]
    exact ⟨_, rfl⟩

theorem step_of_not_complete (hstart : Lexeme.starting c rest.head? = some l)
    (hc : ¬(l.read (c :: rest)).complete) :
    ∃ next, step ⟨c :: rest, p⟩ = .rejected (reject ⟨c :: rest, p⟩ l.fault) next := by
  rw [← Lexeme.ofPlace_of_not_complete hstart hc]
  refine step_rejected (not_isWhitespace_of_starting hstart) fun l' hl => ?_
  obtain rfl := Option.some.inj (hstart.symm.trans hl)
  exact Bool.eq_false_iff.2 hc

/-- Where no lexeme begins, the text is rejected. -/
theorem rejection_of_not_forms (hc : c.isWhitespace = false)
    (h : ∀ ⦃l cs⦄, Lexeme.Forms l cs → ¬cs <+: c :: rest) :
    (scan ⟨c :: rest, Position.start.after before⟩).rejection =
      some ⟨.ofPlace c rest.head?, lineBehind before, columnBehind before⟩ := by
  have hincomplete : ∀ l : Lexeme, Lexeme.starting c rest.head? = some l →
      (l.read (c :: rest)).complete = false := fun l hstart => Bool.eq_false_iff.2 fun hcomplete =>
    h (Lexeme.forms_of_read hstart hcomplete) ⟨_, l.read_append (c :: rest)⟩
  obtain ⟨next, hstep⟩ := step_rejected (p := Position.start.after before) hc hincomplete
  rw [scan_of_rejected hstep, reject, Position.after_start]

end Cursor

section

variable {source : String} {us : List Token}

/-- The tokens of a text that can be cut into lexemes. -/
theorem Token.scan_of_cuts (h : Cuts [] source.toList us before blanks)
    (hblanks : ∀ b ∈ blanks, b.isWhitespace) :
    Token.scan source = .ok (us ++ [Token.closingOf source.toList]) := by
  have hfinds : (Cursor.start source).Finds us _ := Cursor.finds_of_cuts h
  have htext : source.toList = before ++ blanks := h.text
  rw [Token.scan, hfinds, Cursor.scan_blanks hblanks, ← Position.after_append, Cursor.eof_start,
    List.append_nil, htext]

/-- The rejection of a text where no lexeme begins. -/
theorem Token.scan_of_not_forms (h : Cuts [] source.toList us before (blanks ++ c :: rest))
    (hblanks : ∀ b ∈ blanks, b.isWhitespace) (hc : c.isWhitespace = false)
    (hnone : ∀ ⦃l cs⦄, Lexeme.Forms l cs → ¬cs <+: c :: rest) :
    Token.scan source = .error ⟨.ofPlace c rest.head?, lineBehind (before ++ blanks),
      columnBehind (before ++ blanks)⟩ := by
  have hgap : Cursor.Finds ⟨blanks ++ c :: rest, Position.start.after before⟩ [] _ :=
    Cursor.finds_blanks hblanks
  have hfinds : (Cursor.start source).Finds us _ := Cursor.finds_of_cuts h
  rw [← Position.after_append] at hgap
  rw [Token.scan, hfinds.trans hgap]
  simp only [Cursor.rejection_of_not_forms hc hnone]

/-- Cutting comes to one of two ends, and scanning follows it there. -/
theorem Token.exists_cuts (source : String) :
    (∃ us before blanks, Cuts [] source.toList us before blanks ∧
      (∀ b ∈ blanks, b.isWhitespace) ∧
      Token.scan source = .ok (us ++ [Token.closingOf source.toList])) ∨
    ∃ us before blanks c rest, Cuts [] source.toList us before (blanks ++ c :: rest) ∧
      (∀ b ∈ blanks, b.isWhitespace) ∧ c.isWhitespace = false ∧
      (∀ ⦃l cs⦄, Lexeme.Forms l cs → ¬cs <+: c :: rest) ∧
      Token.scan source = .error ⟨.ofPlace c rest.head?, lineBehind (before ++ blanks),
        columnBehind (before ++ blanks)⟩ := by
  obtain ⟨us, before, blanks, rest, hcuts, hblanks, rfl | ⟨c, rest, rfl, hc, hnone⟩⟩ :=
    Cuts.exists [] source.toList
  · rw [List.append_nil] at hcuts
    exact .inl ⟨us, before, blanks, hcuts, hblanks, Token.scan_of_cuts hcuts hblanks⟩
  · exact .inr ⟨us, before, blanks, c, rest, hcuts, hblanks, hc, hnone,
      Token.scan_of_not_forms hcuts hblanks hc hnone⟩

end

/-- The tokens of a text are those of the lexemes that are cut off it, each the longest one at its
    place, and the one for its end. Where no lexeme begins, the text has no tokens and is rejected
    at this place. -/
theorem Token.scan_iff_cuts (source : String) :
    (∀ ts, Token.scan source = .ok ts ↔ ∃ us before blanks,
      Cuts [] source.toList us before blanks ∧ (∀ b ∈ blanks, b.isWhitespace) ∧
        ts = us ++ [Token.closingOf source.toList]) ∧
      ∀ r, Token.scan source = .error r ↔ ∃ us before blanks c rest,
        Cuts [] source.toList us before (blanks ++ c :: rest) ∧ (∀ b ∈ blanks, b.isWhitespace) ∧
          c.isWhitespace = false ∧ (∀ ⦃l cs⦄, Lexeme.Forms l cs → ¬cs <+: c :: rest) ∧
          r = ⟨.ofPlace c rest.head?, lineBehind (before ++ blanks),
            columnBehind (before ++ blanks)⟩ := by
  refine ⟨fun ts => ⟨fun h => ?_, ?_⟩, fun r => ⟨fun h => ?_, ?_⟩⟩
  · obtain ⟨us, before, blanks, hcuts, hblanks, hscan⟩ | ⟨_, _, _, _, _, _, _, _, _, hscan⟩ :=
      Token.exists_cuts source
    · rw [hscan] at h
      exact ⟨us, before, blanks, hcuts, hblanks, (Except.ok.inj h).symm⟩
    · rw [hscan] at h
      cases h
  · rintro ⟨us, before, blanks, hcuts, hblanks, rfl⟩
    exact Token.scan_of_cuts hcuts hblanks
  · obtain ⟨_, _, _, _, _, hscan⟩ |
           ⟨us, before, blanks, c, rest, hcuts, hblanks, hc, hnone, hscan⟩ :=
      Token.exists_cuts source
    · rw [hscan] at h
      cases h
    · rw [hscan] at h
      exact ⟨us, before, blanks, c, rest, hcuts, hblanks, hc, hnone, (Except.error.inj h).symm⟩
  · rintro ⟨us, before, blanks, c, rest, hcuts, hblanks, hc, hnone, rfl⟩
    exact Token.scan_of_not_forms hcuts hblanks hc hnone

end StyleDecl
