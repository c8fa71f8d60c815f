import StyleDecl.Proofs.CarriageReturns.Places

/-!
# Lexemes with carriage returns

A lexeme is found in the text with carriage returns where it stands for one of the text with line
feeds alone, and its token is the same, up to the layout of comments. But a literal that goes on in
the next line is not closed: the backslash before the end of the line goes with the carriage return,
and the line feed after it ends the literal too early.

* `Lexeme.Longest.crlf`: lexemes that are found;
* `Lexeme.Longest.step_crlf`: literals that are not closed.
-/

namespace StyleDecl

/-! ### Lexemes -/

section

variable {c q : Char} {cs rest before : List Char} {l : Lexeme} {p : Char → Bool}

theorem Reading.Stops.crlf (h : Stops p rest) (hp : p '\r' = false) :
    Stops p (Text.crlf rest) := by
  cases rest with
  | nil => exact stops_nil
  | cons c rest =>
    by_cases hc : c = '\n'
    · rw [hc, Text.crlf_newline]
      exact stops_cons_iff.2 hp
    · rw [Text.crlf_cons hc]
      exact stops_cons_iff.2 (stops_cons_iff.1 h)

/-- A block comment is closed where it is closed with line feeds alone. -/
theorem Text.not_closes_crlf (h : ¬['*', '/'] <:+: cs ++ ['*']) :
    ¬['*', '/'] <:+: crlf cs ++ ['*'] := by
  induction cs with
  | nil => exact h
  | cons c cs ih =>
    rw [List.cons_append, List.infix_cons_iff, not_or, ← List.cons_append,
      Reading.closes_cons_iff_head] at h
    by_cases hc : c = '\n'
    · rw [hc, crlf_newline]
      simpa [List.infix_cons_iff, List.cons_prefix_cons] using ih h.2
    · rw [crlf_cons hc, List.cons_append, List.infix_cons_iff, not_or, ← List.cons_append,
        Reading.closes_cons_iff_head, head?_crlf (by decide) (by decide)]
      exact ⟨h.1, ih h.2⟩

namespace Lexeme

/-- A lexeme is the longest one because the text after it does not go on with it. -/
theorem Longest.stops (h : l.Longest cs (cs ++ rest)) : l.Stops cs rest := by
  obtain ⟨c, tail, rfl, -, hread⟩ := h.read
  have hrest : (l.read (c :: tail ++ rest)).rest = rest := by rw [hread]
  cases l with
  | comment =>
    intro htake
    obtain ⟨ds, hds⟩ := exists_of_slashes htake
    rw [hds] at hrest
    rw [← hrest]
    exact Reading.stops_span _ (ds ++ rest)
  | number | word =>
    change Reading.Stops _ rest
    rw [← hrest]
    exact Reading.stops_span _ _
  | string | punct => trivial

/-- A lexeme is found where the text after it does not go on with it. -/
theorem Forms.step (h : l.Forms cs) (hr : l.Stops cs rest) (before : List Char) :
    Cursor.step ⟨cs ++ rest, Position.start.after before⟩ =
      .token (l.tokenBehind before cs) ⟨rest, Position.start.after (before ++ cs)⟩ := by
  obtain ⟨⟨c, tail, rfl, hstart⟩, hc, htext⟩ := h.read []
  rw [List.append_nil] at hstart hc htext
  have happend := l.read_append (c :: tail)
  have hlen := congrArg List.length happend
  rw [List.length_append] at hlen
  have heq := htext.eq_of_length_le (by omega)
  rw [← heq] at happend
  have hnil := List.append_cancel_left (happend.trans (List.append_nil _).symm)
  have hstep := Cursor.step_more hstart hc (fun _ => heq ▸ hr) (Position.start.after before)
  rwa [← heq, hnil, List.nil_append, Cursor.token_start, ← Position.after_append] at hstep

/-- A token stays as it is, up to the layout of a comment, if the lexeme has as many line feeds. -/
theorem redrawn_tokenBehind {cs' : List Char} (hcs : l ≠ comment → cs' = cs)
    (hlines : Layout.commentLines "" (String.ofList (l.text cs')) =
      Layout.commentLines "" (String.ofList (l.text cs)))
    (hcount : cs'.count '\n' = cs.count '\n') (before : List Char) :
    (l.tokenBehind before cs).Redrawn 0 (l.tokenBehind (Text.crlf before) cs') where
  kind := by
    by_cases hl : l = comment
    · rw [hl]
      rfl
    · rw [hcs hl]
      rfl
  text hk := by
    have hl : l ≠ comment := by
      rintro rfl
      exact hk rfl
    rw [hcs hl]
    rfl
  lines := hlines
  line := lineBehind_crlf before
  endLine := by
    simp only [tokenBehind, lineBehind, List.count_append, Text.count_crlf, hcount, Nat.add_zero]

/-- A lexeme without line feeds is the same one. -/
theorem Forms.crlf_plain (h : l.Forms cs) (hcs : '\n' ∉ cs) (hs : l.Stops cs (Text.crlf rest))
    (before : List Char) : ∃ cs' rest', Text.crlf (cs ++ rest) = cs' ++ rest' ∧
      Abreast (before ++ cs) rest (Text.crlf before ++ cs') rest' ∧ l.Forms cs' ∧
      l.Stops cs' rest' ∧
      (l.tokenBehind before cs).Redrawn 0 (l.tokenBehind (Text.crlf before) cs') := by
  have hcrlf := Text.crlf_of_not_mem hcs
  have habreast := Abreast.same (before ++ cs) rest
  rw [Text.crlf_append, hcrlf] at habreast
  exact ⟨cs, Text.crlf rest, by rw [Text.crlf_append, hcrlf], habreast, h, hs,
    redrawn_tokenBehind (fun _ => rfl) rfl rfl before⟩

/-- A lexeme other than a literal over two lines is found in the text with carriage returns, too. A
    line comment takes the carriage return after it. -/
theorem Longest.crlf (h : l.Longest cs (cs ++ rest)) (hl : l = string → '\n' ∉ cs)
    (before : List Char) : ∃ cs' rest', Text.crlf (cs ++ rest) = cs' ++ rest' ∧
      Abreast (before ++ cs) rest (Text.crlf before ++ cs') rest' ∧ l.Forms cs' ∧
      l.Stops cs' rest' ∧
      (l.tokenBehind before cs).Redrawn 0 (l.tokenBehind (Text.crlf before) cs') := by
  have hs := h.stops
  have hforms := h.forms
  cases hforms with
  | @lineComment cs hcs =>
    have hplain : '\n' ∉ '/' :: '/' :: cs := by simp [hcs]
    -- The comment goes on to the end of the text, where there is no line feed to put a carriage
    -- return before, or to a line feed. Then the carriage return is a blank at the end of its line.
    cases rest with
    | nil =>
      have hend : comment.Stops ('/' :: '/' :: cs) (Text.crlf []) := hs
      exact h.forms.crlf_plain hplain hend before
    | cons c tail =>
      obtain rfl : c = '\n' := by simpa using Reading.stops_cons_iff.1 (hs rfl)
      have hcrlf := Text.crlf_of_not_mem hplain
      have habreast := Abreast.passed (before ++ '/' :: '/' :: cs) tail
      have htext : comment.text ('/' :: '/' :: (cs ++ ['\r'])) =
          comment.text ('/' :: '/' :: cs) := by
        rw [text, text, commentText_line, commentText_line, Text.trimEnd_append_return]
      rw [Text.crlf_append, hcrlf, List.append_assoc] at habreast
      refine ⟨'/' :: '/' :: (cs ++ ['\r']), '\n' :: Text.crlf tail, ?_, habreast,
        .lineComment (by simp [hcs]), fun _ => Reading.stops_cons_iff.2 rfl,
        redrawn_tokenBehind (fun hne => absurd rfl hne) (by rw [htext]) ?_ before⟩
      · rw [Text.crlf_append, hcrlf]
        simp
      · simp [List.count_append]
  | @blockComment cs hcs =>
    have hcrlf : Text.crlf ('/' :: '*' :: cs ++ ['*', '/']) =
        '/' :: '*' :: Text.crlf cs ++ ['*', '/'] := by
      rw [Text.crlf_append]
      rfl
    have htext (cs : List Char) : comment.text ('/' :: '*' :: cs) = '/' :: '*' :: cs := rfl
    have habreast := Abreast.same (before ++ ('/' :: '*' :: cs ++ ['*', '/'])) rest
    rw [Text.crlf_append, hcrlf] at habreast
    refine ⟨'/' :: '*' :: Text.crlf cs ++ ['*', '/'], Text.crlf rest, ?_, habreast,
      .blockComment (Text.not_closes_crlf hcs), fun hslashes => ?_,
      redrawn_tokenBehind (fun hne => absurd rfl hne) ?_ ?_ before⟩
    · rw [Text.crlf_append, hcrlf]
    · simp at hslashes
    · have hlines := Layout.commentLines_crlf "" ('/' :: '*' :: cs ++ ['*', '/'])
      rwa [hcrlf] at hlines
    · rw [← hcrlf, Text.count_crlf]
  -- What is left is written in one line: literals by assumption, and other lexemes always.
  | string => exact h.forms.crlf_plain (hl rfl) trivial before
  | number | word =>
    exact h.forms.crlf_plain (h.forms.newline_not_mem (by simp) (by simp))
      (Reading.Stops.crlf hs (by decide)) before
  | punct => exact h.forms.crlf_plain (h.forms.newline_not_mem (by simp) (by simp)) trivial before

/-- No lexeme begins with a line feed. -/
theorem Longest.head?_ne (h : l.Longest cs (cs ++ rest)) :
    (cs ++ rest).head? ≠ some '\n' := by
  obtain ⟨c, tail, rfl, hstart, -⟩ := h.read
  have hc := Cursor.not_isWhitespace_of_starting hstart
  rw [List.cons_append, List.head?_cons]
  rintro heq
  rw [Option.some_inj.1 heq] at hc
  cases hc

end Lexeme

/-- A literal with a carriage return in it is not closed: what is escaped is the carriage return,
    and the line feed after it is not. -/
theorem Literal.Inside.not_complete_crlf (hq : q = '"' ∨ q = '\'') (h : Inside q cs)
    (hn : '\n' ∈ cs) (rest : List Char) :
    (Reading.stringTail q (Text.crlf cs ++ rest)).complete = false := by
  have hquote : '\\' ≠ q := by rcases hq with rfl | rfl <;> decide
  have hfeed : '\n' ≠ q := by rcases hq with rfl | rfl <;> decide
  induction h with
  | nil => cases hn
  | @plain c cs hc hplain hb _ ih =>
    rw [Text.crlf_cons hplain, List.cons_append, Reading.stringTail_plain hc hplain hb]
    exact ih ((List.mem_cons.1 hn).resolve_left (Ne.symm hplain))
  | @escape c cs _ ih =>
    rw [Text.crlf_cons (by decide)]
    by_cases hc : c = '\n'
    · rw [hc, Text.crlf_newline, List.cons_append, List.cons_append, List.cons_append,
        Reading.stringTail_escape hquote, Reading.stringTail_newline hfeed]
      rfl
    · rw [Text.crlf_cons hc, List.cons_append, List.cons_append, Reading.stringTail_escape hquote]
      refine ih ?_
      simpa [Ne.symm hc] using hn

/-- The text is rejected at a literal over two lines. -/
theorem Lexeme.Longest.step_crlf (h : Longest .string cs (cs ++ rest)) (hn : '\n' ∈ cs)
    (p : Position) : ∃ next, Cursor.step ⟨Text.crlf (cs ++ rest), p⟩ =
      .rejected ⟨.unterminatedString, p.line, p.column⟩ next := by
  obtain ⟨q, cs, hq, hinside, rfl⟩ : ∃ q cs', (q = '"' ∨ q = '\'') ∧ Literal.Inside q cs' ∧
      cs = q :: cs' ++ [q] := by
    cases h.forms with
    | string hq hin => exact ⟨_, _, hq, hin, rfl⟩
  have hfeed : '\n' ≠ q := by rcases hq with rfl | rfl <;> decide
  have hincomplete := hinside.not_complete_crlf hq (by simpa [hfeed] using hn)
    (Text.crlf (q :: rest))
  have htext : Text.crlf (q :: cs ++ [q] ++ rest) =
      q :: (Text.crlf cs ++ Text.crlf (q :: rest)) := by
    rw [← Text.crlf_append, List.append_assoc, List.cons_append, Text.crlf_cons hfeed.symm]
    rfl
  rw [htext]
  exact Cursor.step_of_not_complete (starting_quote hq _) (Bool.eq_false_iff.1 hincomplete)

end

end StyleDecl
