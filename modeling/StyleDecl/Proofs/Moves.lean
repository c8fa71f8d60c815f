import StyleDecl.Proofs.Cuts
import StyleDecl.Token.Lexer

/-!
# Moving a lexer by hand

A lexer can be moved by single characters, by lexemes and over all of its text, in any order,
wherever it stands and whatever stands there. All that this does to its cursor, also where it
ends in a rejection, is to move it over what some readings take (`Cursor.Reaches`). A reading
takes the characters at the cursor and may step past the end of the text, but only if it leaves
nothing. So a cursor stands behind all characters that were taken so far, or else at some
distance past the end of the text (`Cursor.StandsIn`), and this alone tells its line and its
column.

* `Lexer.reaches_perform`: what an action does to the cursor;
* `Lexer.standsIn_after`: where a lexer stands after any actions;
* `Lexer.cursor_after`: the line and the column there, and what an action does and answers.
-/

namespace StyleDecl

variable {text rest before : List Char} {r : Reading} {cur next last : Cursor} {l : Lexeme}

/-! ### What a reading takes -/

/-- The reading takes the beginning of the text `text` and leaves the rest. It steps past the end
    only if nothing is left. -/
structure Reading.TakenFrom (r : Reading) (text : List Char) : Prop where
  append : r.text ++ r.rest = text
  rest_eq_nil : r.beyond ≠ 0 → r.rest = []

namespace Reading

theorem takenFrom_span (p : Char → Bool) (text : List Char) : (span p text).TakenFrom text where
  append := span_append p text
  rest_eq_nil h := absurd rfl h

theorem takenFrom_one (text : List Char) : (one text).TakenFrom text where
  append := one_append text
  rest_eq_nil h := by
    cases text with
    | nil => rfl
    | cons c rest => exact absurd rfl h

theorem rest_stringTail (quote : Char) (text : List Char) :
    (stringTail quote text).beyond ≠ 0 → (stringTail quote text).rest = [] := by
  fun_induction stringTail quote text <;> simp_all

theorem beyond_blockTail (text : List Char) : (blockTail text).beyond = 0 := by
  fun_induction blockTail text <;> simp_all

theorem rest_string : (text : List Char) → (string text).beyond ≠ 0 → (string text).rest = []
  | [], _ => rfl
  | quote :: rest, h => rest_stringTail quote rest h

theorem rest_comment : (text : List Char) → (comment text).beyond ≠ 0 → (comment text).rest = []
  | [], _ => rfl
  | [_], _ => rfl
  | c :: d :: rest, h => by
    simp only [comment, beyond_cons] at h
    split at h
    · exact absurd rfl h
    · exact absurd (beyond_blockTail rest) h

end Reading

/-- Reading a lexeme takes it from the text, whatever the text begins with. -/
theorem Lexeme.takenFrom_read (l : Lexeme) (text : List Char) : (l.read text).TakenFrom text where
  append := l.read_append text
  rest_eq_nil := by
    cases l with
    | comment => exact Reading.rest_comment text
    | string => exact Reading.rest_string text
    | number => exact (Reading.takenFrom_span _ text).rest_eq_nil
    | word => exact (Reading.takenFrom_span _ text).rest_eq_nil
    | punct => exact (Reading.takenFrom_one text).rest_eq_nil

/-! ### Where readings lead -/

/-- Readings one after the other lead from one cursor to another. -/
inductive Cursor.Reaches : Cursor → Cursor → Prop
  | refl (cur : Cursor) : Reaches cur cur
  | move {cur next : Cursor} {r : Reading} :
    r.TakenFrom cur.rest → Reaches (cur.move r) next → Reaches cur next

namespace Cursor

theorem reaches_move (h : r.TakenFrom cur.rest) : cur.Reaches (cur.move r) := .move h (.refl _)

theorem Reaches.trans (h : cur.Reaches next) (h' : next.Reaches last) : cur.Reaches last := by
  induction h with
  | refl => exact h'
  | move hr _ ih => exact .move hr (ih h')

theorem reaches_skipBlanks (cur : Cursor) : cur.Reaches cur.skipBlanks :=
  reaches_move (Reading.takenFrom_span _ _)

theorem reaches_read (cur : Cursor) (l : Lexeme) : cur.Reaches (cur.move (l.read cur.rest)) :=
  reaches_move (l.takenFrom_read cur.rest)

/-- The place that a step comes to, also if it is rejected. -/
def Step.cursor : Step → Cursor
  | finished cur => cur
  | token _ cur => cur
  | rejected _ cur => cur

theorem reaches_step (cur : Cursor) : cur.Reaches cur.step.cursor := by
  refine cur.reaches_skipBlanks.trans ?_
  rw [step, stepHere]
  split
  · exact .refl _
  · split
    · exact .refl _
    · rw [take]
      split
      · exact reaches_read _ _
      · exact reaches_read _ _

/-- A scan ends where the last of its steps leads. -/
theorem reaches_scan (cur : Cursor) : cur.Reaches cur.scan.cursor := by
  -- On the length of the rest, which gets shorter with every token.
  induction hn : cur.rest.length using Nat.strong_induction_on generalizing cur with
  | _ n ih =>
    have hstep := cur.reaches_step
    cases hs : cur.step with
    | finished next =>
      rw [hs] at hstep
      rwa [scan_of_finished hs]
    | rejected r next =>
      rw [hs] at hstep
      rwa [scan_of_rejected hs]
    | token t next =>
      rw [hs] at hstep
      rw [scan_of_token hs]
      exact hstep.trans (ih _ (hn ▸ length_rest_lt_of_step hs) next rfl)

theorem offset_move (cur : Cursor) (r : Reading) :
    (cur.move r).position.offset = cur.position.offset + r.text.length + r.beyond := by
  rw [move, Position.beyond, Position.offset_after]

/-- No reading leads back. -/
theorem Reaches.offset_le (h : cur.Reaches next) :
    cur.position.offset ≤ next.position.offset := by
  induction h with
  | refl => exact Nat.le_refl _
  | @move cur next r _ _ ih =>
    refine Nat.le_trans ?_ ih
    rw [offset_move]
    omega

/-! ### Where a cursor stands -/

/-- The cursor stands in the text `text`: behind the characters before it, or at some distance
    past the end of the text. -/
def StandsIn (text : List Char) (cur : Cursor) : Prop :=
  ∃ before n, text = before ++ cur.rest ∧ (n ≠ 0 → cur.rest = []) ∧
    cur.position = (Position.start.after before).beyond n

theorem standsIn_start (source : String) : (start source).StandsIn source.toList :=
  ⟨[], 0, rfl, fun h => absurd rfl h, rfl⟩

theorem StandsIn.move (h : cur.StandsIn text) (hr : r.TakenFrom cur.rest) :
    (cur.move r).StandsIn text := by
  obtain ⟨before, n, rfl, hn, hp⟩ := h
  have htext : before ++ cur.rest = before ++ r.text ++ (cur.move r).rest := by
    rw [List.append_assoc, ← hr.append]
    rfl
  by_cases hzero : n = 0
  · subst hzero
    refine ⟨before ++ r.text, r.beyond, htext, hr.rest_eq_nil, ?_⟩
    rw [Cursor.move, hp, Position.beyond_zero, Position.after_append]
  · -- Past the end nothing is left to be taken.
    have hnil : r.text = [] ∧ r.rest = [] :=
      List.append_eq_nil_iff.1 (hr.append.trans (hn hzero))
    rw [hnil.1, List.append_nil] at htext
    refine ⟨before, n + r.beyond, htext, fun _ => hnil.2, ?_⟩
    rw [Cursor.move, hp, hnil.1]
    simp only [Position.beyond, Position.after_nil, Nat.add_assoc]

theorem StandsIn.reaches (h : cur.StandsIn text) (hr : cur.Reaches next) :
    next.StandsIn text := by
  induction hr with
  | refl => exact h
  | move hr _ ih => exact ih (h.move hr)

end Cursor

/-- The last line of the text `text` begins at the offset `n`: just after the last line feed, or
    at zero if there is none. -/
structure Text.LastLine (text : List Char) (n : Nat) : Prop where
  le_length : n ≤ text.length
  feed : n = 0 ∨ text[n - 1]? = some '\n'
  not_mem : '\n' ∉ text.drop n

/-- The column behind a text is the distance from the beginning of its last line. -/
theorem Text.exists_lastLine (text : List Char) :
    ∃ n, LastLine text n ∧ columnBehind text = text.length - n + 1 := by
  induction text using List.reverseRecOn with
  | nil => exact ⟨0, ⟨Nat.le_refl _, .inl rfl, List.not_mem_nil⟩, rfl⟩
  | append_singleton text c ih =>
    obtain ⟨n, ⟨hle, hfeed, hmem⟩, hcolumn⟩ := ih
    by_cases hc : c = '\n'
    · exact ⟨text.length + 1, ⟨by simp, .inr (by simp [hc]), by simp⟩,
        by simp [columnBehind, hc]⟩
    · refine ⟨n, ⟨by simp only [List.length_append]; omega, hfeed.imp_right fun h => ?_, ?_⟩, ?_⟩
      · exact List.getElem?_append_left (List.getElem?_eq_some_iff.1 h).1 ▸ h
      · rw [List.drop_append_of_le_length hle, List.mem_append, List.mem_singleton]
        exact fun h => h.elim hmem fun h => hc h.symm
      · simp [columnBehind, hc] at hcolumn ⊢
        omega

namespace Cursor.StandsIn

/-- The line and the column of a cursor are those of the place behind the characters before it;
    steps past the end count as columns. -/
theorem position_eq (h : cur.StandsIn text) :
    ∃ before n, text = before ++ cur.rest ∧ (n ≠ 0 → cur.rest = []) ∧
      text.take (min cur.position.offset text.length) = before ∧
      cur.position = ⟨before.length + n, lineBehind before, columnBehind before + n⟩ := by
  obtain ⟨before, n, rfl, hn, hp⟩ := h
  rw [Position.after_start] at hp
  refine ⟨before, n, rfl, hn, ?_, hp⟩
  rw [hp, Position.beyond]
  by_cases hzero : n = 0
  · simp [hzero]
  · simp [hn hzero]

/-- The text that a reading takes, if it does not step past the end, is what lies between the
    places before and after it. -/
theorem text_eq (h : cur.StandsIn text) (hr : r.TakenFrom cur.rest)
    (hle : (cur.move r).position.offset ≤ text.length) :
    r.text = (text.take (cur.move r).position.offset).drop cur.position.offset := by
  obtain ⟨before, n, rfl, hn, -, hp⟩ := h.position_eq
  have hlength : cur.rest.length = r.text.length + r.rest.length := by
    rw [← hr.append, List.length_append]
  rw [offset_move, hp, List.length_append] at hle
  rw [offset_move, hp]
  have hzero : n = 0 := by
    by_contra hne
    have := congrArg List.length (hn hne)
    simp only [List.length_nil] at this hle
    omega
  have hbeyond : r.beyond = 0 := by
    by_contra hne
    have := congrArg List.length (hr.rest_eq_nil hne)
    simp only [List.length_nil] at this hle
    omega
  simp [hzero, hbeyond, ← hr.append, List.take_append]

end Cursor.StandsIn

/-! ### Any actions -/

namespace Lexer

/-- A lexer after some actions, whether they end in a rejection or not. -/
def after (lexer : Lexer) (actions : List Action) : Lexer :=
  actions.foldl (fun lexer action => (lexer.perform action).2) lexer

/-- All that an action does to the cursor is to move it over what readings take. -/
theorem reaches_perform (lexer : Lexer) (action : Action) :
    lexer.cursor.Reaches (lexer.perform action).2.cursor := by
  cases action with
  | peek => exact .refl _
  | advance => exact Cursor.reaches_move (Reading.takenFrom_one _)
  | skipBlanks => exact lexer.cursor.reaches_skipBlanks
  | read l => exact lexer.cursor.reaches_read l
  | scan =>
    have hscan := lexer.cursor.reaches_scan
    rw [perform, scan]
    split <;> exact hscan

/-- Whatever was done to a lexer, its cursor stands in its text. -/
theorem standsIn_after {lexer : Lexer} (h : lexer.cursor.StandsIn text) (actions : List Action) :
    (lexer.after actions).cursor.StandsIn text := by
  induction actions generalizing lexer with
  | nil => exact h
  | cons action actions ih => exact ih (h.reaches (lexer.reaches_perform action))

/-- A single step takes the character at hand, if there is one. -/
theorem advance_eq {lexer : Lexer} (h : lexer.cursor.StandsIn text) :
    (lexer.perform .advance).1 = .ok (.text (String.ofList
      ((text.take (lexer.perform .advance).2.cursor.position.offset).drop
        lexer.cursor.position.offset))) := by
  obtain ⟨before, n, htext, hn, -, hp⟩ := h.position_eq
  have hlength := congrArg List.length htext
  have hone : (lexer.perform .advance).1 =
      .ok (.text (String.ofList (Reading.one lexer.cursor.rest).text)) := rfl
  rw [hone, show (lexer.perform .advance).2.cursor = lexer.cursor.move _ from rfl]
  cases hrest : lexer.cursor.rest with
  | nil =>
    -- At the end there is no character, and nothing lies between the two places.
    rw [List.drop_eq_nil_of_le]
    · rfl
    · rw [hrest, List.length_append] at hlength
      rw [List.length_take, hp]
      simp only [List.length_nil] at hlength ⊢
      omega
  | cons c rest =>
    have hzero : n = 0 := by_contra fun hne => List.cons_ne_nil c rest (hrest.symm.trans (hn hne))
    rw [hrest, List.length_append, List.length_cons] at hlength
    rw [← hrest, ← h.text_eq (Reading.takenFrom_one _)]
    rw [Cursor.offset_move, hp, hrest]
    simp only [Reading.one, List.length_singleton]
    omega

/-- The text of a lexeme is what was taken, but for the blanks at the end of a line comment. -/
theorem text_lexeme (l : Lexeme) (taken : List Char) :
    l.text taken = if l = .comment ∧ ['/', '/'] <+: taken then Text.trimEnd taken else taken := by
  cases l with
  | comment =>
    simp only [Lexeme.text, commentText, List.prefix_iff_eq_take, true_and, eq_comm]
    rfl
  | _ => rfl

/-- Reading a lexeme that comes to its end answers what it took. -/
theorem read_eq_ok_iff {lexer : Lexer} {answer : Answer} :
    (lexer.perform (.read l)).1 = .ok answer ↔ (l.read lexer.cursor.rest).complete ∧
      answer = .text (String.ofList (l.text (l.read lexer.cursor.rest).text)) := by
  simp only [perform, read]
  split
  · next hc => exact ⟨fun h => ⟨hc, (Except.ok.inj h).symm⟩, fun h => congrArg Except.ok h.2.symm⟩
  · next hc => exact ⟨nofun, fun h => absurd h.1 hc⟩

/-- Whatever was done to a lexer, its line is one more than the number of line feeds that it has
    come past, and its column is one more than the distance from the last of them. No action leads
    back. Reading a lexeme that comes to its end without a step past the end of the text answers
    the text that it has come past, and so does a single step; a line comment is answered without
    the blanks at its end. -/
theorem cursor_after (source : String) (actions : List Action) :
    let text := source.toList
    let lexer := (start source).after actions
    let place := lexer.cursor.position
    let past := text.take (min place.offset text.length)
    place.line = 1 + past.count '\n' ∧
      (∃ n, Text.LastLine past n ∧ place.column = place.offset - n + 1) ∧
      ∀ action,
        let answer := (lexer.perform action).1
        let next := (lexer.perform action).2.cursor.position
        let taken := (text.take next.offset).drop place.offset
        place.offset ≤ next.offset ∧
          (action = .advance → answer = .ok (.text (String.ofList taken))) ∧
          ∀ l a, action = .read l → answer = .ok a → next.offset ≤ text.length →
            a = .text (String.ofList
              (if l = .comment ∧ ['/', '/'] <+: taken then Text.trimEnd taken else taken)) := by
  intro text lexer place past
  have hstands : lexer.cursor.StandsIn text :=
    standsIn_after (Cursor.standsIn_start source) actions
  obtain ⟨before, n, -, -, hpast, hp⟩ := hstands.position_eq
  obtain ⟨m, hm, hcolumn⟩ := Text.exists_lastLine before
  have hplace : place = ⟨before.length + n, lineBehind before, columnBehind before + n⟩ := hp
  have hpast : past = before := hpast
  rw [hplace, hpast]
  refine ⟨rfl, ⟨m, hm, ?_⟩, fun action => ⟨?_, ?_, ?_⟩⟩
  · have hle := hm.le_length
    rw [hcolumn]
    simp only
    omega
  · exact hplace ▸ (lexer.reaches_perform action).offset_le
  · rintro rfl
    exact hplace ▸ advance_eq hstands
  · rintro l a rfl hok hle
    have htaken := hstands.text_eq (l.takenFrom_read lexer.cursor.rest) hle
    rw [(read_eq_ok_iff.1 hok).2, htaken, text_lexeme]
    exact hplace ▸ rfl

/-- A line comment with a blank at its end, and a literal whose escape the end of the text cuts
    off, so that reading it is rejected one step past the end. -/
theorem cursor_after_escape :
    let lexer := (start "// a \n'b\\").after [.read .comment, .advance, .read .string]
    ((start "// a \n'b\\").perform (.read .comment)).1 = .ok (.text "// a") ∧
      lexer.cursor.position = ⟨10, 2, 5⟩ ∧
      ∃ n, Text.LastLine "// a \n'b\\".toList n ∧ 5 = 10 - n + 1 := by
  intro lexer
  have hok := read_eq_ok_iff.2 ⟨(by decide +kernel :
    (Lexeme.comment.read (start "// a \n'b\\").cursor.rest).complete = true), rfl⟩
  obtain ⟨-, -, hactions⟩ := cursor_after "// a \n'b\\" []
  obtain ⟨-, -, hread⟩ := hactions (.read .comment)
  obtain ⟨-, hcolumn, -⟩ :=
    cursor_after "// a \n'b\\" [.read .comment, .advance, .read .string]
  have hp : lexer.cursor.position = ⟨10, 2, 5⟩ := by decide +kernel
  refine ⟨?_, hp, ?_⟩
  · rw [hok, hread .comment _ rfl hok (by decide +kernel)]
    exact congrArg (Except.ok ∘ Answer.text) (by decide +kernel)
  · rw [hp, List.take_of_length_le (by decide +kernel)] at hcolumn
    exact hcolumn

end Lexer

end StyleDecl
