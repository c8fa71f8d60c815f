import Mathlib.Data.List.Forall2
import StyleDecl.Proofs.Grammar.Moved
import StyleDecl.Proofs.Writes

/-!
# Seams between texts

A text that is scanned by itself is scanned alike as a part of another text, provided
that what comes after it does not go on with its last lexeme: no word or number goes
on there, and no line comment swallows it (`Seam`). Only the places of its tokens differ
(`Cursor.finds_more`).
-/

namespace StyleDecl

variable {cs rest : List Char} {c : Char} {l : Lexeme} {p q : Position} {ts : List Token}

/-! ### Readings of more text -/

namespace Reading

/-- Where a span ends, it does not go on. -/
theorem stops_span (p : Char → Bool) (cs : List Char) : Stops p (Reading.span p cs).rest := by
  intro c hc
  have hhead : (cs.dropWhile p).head? = some c := hc
  have hnot := List.head?_dropWhile_not p cs
  rwa [hhead] at hnot

/-- A span that came to its end stays as it is when there is more text. -/
theorem span_more {p : Char → Bool} (h : (Reading.span p cs).rest = [] → Stops p rest) :
    Reading.span p (cs ++ rest) =
      { text := (Reading.span p cs).text, rest := (Reading.span p cs).rest ++ rest } := by
  have hstops : Stops p ((Reading.span p cs).rest ++ rest) := by
    cases hrest : (Reading.span p cs).rest with
    | nil => exact h hrest
    | cons d ds => exact stops_cons_iff.2 (stops_cons_iff.1 (hrest ▸ stops_span p cs))
  have hspan := span_of_stops (mem_span cs) hstops
  rwa [← List.append_assoc, span_append] at hspan

end Reading

namespace Lexeme

/-- A lexeme that was read stays as it is when there is more text that does not go on with
    it. -/
theorem read_more (hstart : starting c cs.head? = some l) (hc : (l.read (c :: cs)).complete)
    (hr : (l.read (c :: cs)).rest = [] → l.Stops (l.read (c :: cs)).text rest) :
    l.read (c :: cs ++ rest) =
      { text := (l.read (c :: cs)).text, rest := (l.read (c :: cs)).rest ++ rest } := by
  cases l with
  | comment =>
    cases cs with
    | nil => cases hc
    | cons d cs =>
      by_cases hline : c = '/' ∧ d = '/'
      · obtain ⟨rfl, rfl⟩ := hline
        have hspan := Reading.span_more (p := (· ≠ '\n')) fun h => hr h rfl
        exact congrArg (Reading.cons '/' <| Reading.cons '/' ·) hspan
      · have hif : Reading.comment (c :: d :: cs) =
            Reading.cons c (Reading.cons d (Reading.blockTail cs)) :=
          congrArg (Reading.cons c <| Reading.cons d ·) (if_neg hline)
        have hmore : Reading.comment (c :: d :: (cs ++ rest)) =
            Reading.cons c (Reading.cons d (Reading.blockTail (cs ++ rest))) :=
          congrArg (Reading.cons c <| Reading.cons d ·) (if_neg hline)
        rw [read, hif] at hc
        rw [read, List.cons_append, List.cons_append, hmore, hif, Reading.blockTail_more hc rest]
        rfl
  | string => exact congrArg (Reading.cons c) (Reading.stringTail_more hc rest)
  | number => exact Reading.span_more hr
  | word => exact Reading.span_more hr
  | punct p => rfl

end Lexeme

/-! ### Places -/

/-- Every line feed begins a line. -/
theorem Position.line_after (p : Position) (cs : List Char) :
    (p.after cs).line = p.line + cs.count '\n' := by
  induction cs generalizing p with
  | nil => rfl
  | cons c cs ih =>
    rw [after_cons, ih, next]
    split
    · next hc => rw [hc, List.count_cons_self]; simp only; omega
    · next hc => rw [List.count_cons_of_ne hc]

/-- Places on lines `n` apart stay `n` lines apart. -/
theorem Position.line_after_add {n : Nat} (h : q.line = p.line + n) (cs : List Char) :
    (q.after cs).line = (p.after cs).line + n := by
  rw [line_after, line_after, h]
  omega

namespace Cursor

variable {cur next : Cursor} {t : Token}

/-! ### One step -/

/-- A lexeme is found alike when there is more text that does not go on with it. -/
theorem step_more (hstart : Lexeme.starting c cs.head? = some l)
    (hc : (l.read (c :: cs)).complete)
    (hr : (l.read (c :: cs)).rest = [] → l.Stops (l.read (c :: cs)).text rest) (q : Position) :
    step ⟨c :: cs ++ rest, q⟩ =
      .token (token ⟨[], q⟩ l (l.read (c :: cs)).text)
        ⟨(l.read (c :: cs)).rest ++ rest, q.after (l.read (c :: cs)).text⟩ := by
  have hread := Lexeme.read_more hstart hc hr
  have hmore : Lexeme.starting c (cs ++ rest).head? = some l := by
    refine Lexeme.starting_append hstart ?_
    rintro rfl rfl
    cases hc
  rw [List.cons_append] at hread ⊢
  rw [step, skipBlanks_of_not_blank (not_isWhitespace_of_starting hmore)]
  simp only [stepHere, hmore, take, hread, move]
  rfl

/-- Only blanks are left at the end. -/
theorem blank_of_step (h : cur.step = .finished next) : ∀ c ∈ cur.rest, c.isWhitespace := by
  rw [step, stepHere] at h
  split at h
  · next hrest =>
    have happend := Reading.span_append Char.isWhitespace cur.rest
    rw [show (Reading.span Char.isWhitespace cur.rest).rest = [] from hrest,
      List.append_nil] at happend
    exact happend ▸ Reading.mem_span cur.rest
  · split at h
    · cases h
    · rw [take] at h
      split at h <;> cases h

/-- A token is a lexeme behind blanks, and it is found wherever there is more text that does
    not go on with it. -/
theorem lexeme_of_step (h : cur.step = .token t next) :
    ∃ bs taken, ∃ l : Lexeme, cur.rest = bs ++ (taken ++ next.rest) ∧
      (∀ b ∈ bs, b.isWhitespace) ∧
      t = token ⟨[], cur.position.after bs⟩ l taken ∧
      next.position = (cur.position.after bs).after taken ∧
      ∀ rest q, (next.rest = [] → l.Stops taken rest) →
        step ⟨taken ++ (next.rest ++ rest), q⟩ =
          .token (token ⟨[], q⟩ l taken) ⟨next.rest ++ rest, q.after taken⟩ := by
  have hblanks := Reading.span_append Char.isWhitespace cur.rest
  rw [step, stepHere] at h
  split at h
  · cases h
  · next c tail hrest =>
    split at h
    · cases h
    · next l hstart =>
      rw [take] at h
      split at h
      · next hc =>
        rw [hrest] at hc h
        have happend := l.read_append (c :: tail)
        have hmore : ∀ rest, ((l.read (c :: tail)).rest = [] →
            l.Stops (l.read (c :: tail)).text rest) → _ := fun _ => Lexeme.read_more hstart hc
        -- A lexeme that comes to its end takes no step past the end of the text.
        have hbeyond : (l.read (c :: tail)).beyond = 0 := by
          have hread := hmore [] fun _ => l.stops_nil _
          rw [List.append_nil, List.append_nil] at hread
          rw [hread]
        cases h
        refine ⟨_, _, l, ?_, Reading.mem_span cur.rest, rfl, ?_, fun rest q hr => ?_⟩
        · rw [move, happend, ← hrest]
          exact hblanks.symm
        · rw [move, hbeyond, Position.beyond_zero]
          rfl
        · rw [← List.append_assoc, move, happend]
          exact step_more hstart hc hr q
      · cases h

/-! ### Many steps -/

/-- The tokens of a text lie on its lines. -/
theorem lines_of_mem_scan (h : t ∈ cur.scan.tokens) :
    cur.position.line ≤ t.line ∧ t.endLine ≤ (cur.position.after cur.rest).line := by
  induction hn : cur.rest.length using Nat.strong_induction_on generalizing cur with
  | _ n ih =>
    cases hs : cur.step with
    | finished => rw [scan_of_finished hs] at h; cases h
    | rejected => rw [scan_of_rejected hs] at h; cases h
    | token u next =>
      obtain ⟨bs, taken, l, hrest, -, hu, hnext, -⟩ := lexeme_of_step hs
      have hlt := length_rest_lt_of_step hs
      rw [scan_of_token hs] at h
      simp only [hrest, Position.line_after, List.count_append]
      obtain rfl | h := List.mem_cons.1 h
      · rw [hu]
        simp only [token, Position.line_after]
        split <;> omega
      · have hlines := ih _ (hn ▸ hlt) h rfl
        simp only [hnext, Position.line_after] at hlines
        omega

end Cursor

/-! ### Seams -/

theorem exists_of_slashes (h : cs.take 2 = ['/', '/']) : ∃ ds, cs = '/' :: '/' :: ds := by
  obtain ⟨ds, hds⟩ := List.take_prefix 2 cs
  exact ⟨ds, by rw [← hds, h]; rfl⟩

/-- Whether a token is a comment that goes on to the end of its line. -/
def Token.IsLineComment (t : Token) : Prop :=
  t.kind = .comment ∧ t.text.toList.take 2 = ['/', '/']

/-- The text `rest` does not go on with any of the tokens `ts` before it. -/
structure Seam (ts : List Token) (rest : List Char) : Prop where
  /-- No word and no number goes on. -/
  ends : Ends rest
  /-- No comment swallows the text. -/
  lines : Reading.Stops (· ≠ '\n') rest ∨ ∀ t ∈ ts, ¬t.IsLineComment

namespace Seam

theorem nil (ts : List Token) : Seam ts [] := ⟨ends_nil, .inl Reading.stops_nil⟩

/-- Nothing goes on over the end of a line. -/
theorem newline (ts : List Token) (rest : List Char) : Seam ts ('\n' :: rest) :=
  ⟨ends_cons (by decide), .inl (Reading.stops_cons_iff.2 rfl)⟩

theorem tail {t : Token} (h : Seam (t :: ts) rest) : Seam ts rest :=
  ⟨h.ends, h.lines.imp_right fun hts t ht => hts t (List.mem_cons_of_mem _ ht)⟩

/-- The text does not go on with the lexeme of a token before it. -/
theorem stops {cur : Cursor} (h : Seam (cur.token l cs :: ts) rest) : l.Stops cs rest := by
  by_cases hl : l = .comment
  · subst hl
    intro hslashes
    refine h.lines.resolve_right fun hts => hts _ List.mem_cons_self ⟨rfl, ?_⟩
    obtain ⟨cs, rfl⟩ := exists_of_slashes hslashes
    have htext := Lexeme.commentText_line cs
    simp [Cursor.token, Lexeme.text, htext]
  · exact h.ends.stops hl

end Seam

namespace Cursor

variable {cur : Cursor} {n : Nat}

theorem token_moved (h : q.line = p.line + n) (l : Lexeme) (taken : List Char) :
    (token ⟨[], p⟩ l taken).Moved n (token ⟨[], q⟩ l taken) where
  kind := rfl
  text := rfl
  line := h
  endLine := by
    simp only [token]
    split
    · exact Position.line_after_add h taken
    · exact h

/-- A text that is scanned to its end is scanned alike wherever it stands, if what comes after
    it does not go on with any of its tokens. Where it stood before, its tokens are the same. -/
theorem finds_more (h : cur.scan.rejection = none) (hs : Seam cur.scan.tokens rest)
    (hq : q.line = cur.position.line + n) :
    ∃ ts, Finds ⟨cur.rest ++ rest, q⟩ ts ⟨rest, q.after cur.rest⟩ ∧
      List.Forall₂ (Token.Moved n) cur.scan.tokens ts ∧
      (q = cur.position → ts = cur.scan.tokens) := by
  induction hlen : cur.rest.length using Nat.strong_induction_on generalizing cur q with
  | _ m ih =>
    cases hstep : cur.step with
    | finished next =>
      rw [scan_of_finished hstep]
      exact ⟨[], finds_blanks (blank_of_step hstep), .nil, fun _ => rfl⟩
    | rejected r next => rw [scan_of_rejected hstep] at h; cases h
    | token t next =>
      have hlt := length_rest_lt_of_step hstep
      obtain ⟨bs, taken, l, hrest, hbs, rfl, hnext, hmore⟩ := lexeme_of_step hstep
      rw [scan_of_token hstep] at h hs ⊢
      -- First the blanks and the lexeme, and then the rest of the text.
      have hline := Position.line_after_add hq bs
      have hlexeme : Finds ⟨taken ++ (next.rest ++ rest), q.after bs⟩
          [token ⟨[], q.after bs⟩ l taken] ⟨next.rest ++ rest, (q.after bs).after taken⟩ :=
        finds_of_step (hmore rest (q.after bs) fun _ => hs.stops)
      obtain ⟨ts, hfinds, hmoved, hsame⟩ := ih _ (hlen ▸ hlt) h hs.tail
        (hnext ▸ Position.line_after_add hline taken) rfl
      refine ⟨_, ?_, .cons (token_moved hline l taken) hmoved, ?_⟩
      · rw [hrest, List.append_assoc, List.append_assoc, Position.after_append,
          Position.after_append]
        exact (finds_blanks hbs).trans (hlexeme.trans hfinds)
      · rintro rfl
        rw [hsame hnext.symm]

end Cursor

end StyleDecl
