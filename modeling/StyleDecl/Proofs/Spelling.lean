import Mathlib.Data.List.Basic
import Mathlib.Data.List.TakeWhile
import StyleDecl.Proofs.Text.Trim
import StyleDecl.Token.Cursor

/-!
# Spellings

A lexeme is read up to where it ends, and what comes after it makes no difference
unless it goes on with it: a letter after a word, a digit after a number, anything
but a line feed after a line comment.

* `Lexeme.Spells`: the characters that a lexeme is read from, all of them;
* `Lexeme.Spells.read_append`: such characters are read alike wherever what comes
  after them does not go on with them (`Lexeme.Stops`);
* `Lexeme.spells_of_read`: what is read of any text spells the lexeme.
-/

namespace StyleDecl

variable {cs rest : List Char} {c d q : Char} {l : Lexeme}

/-! ### Readings of more text -/

namespace Reading

/-- The text `rest` does not begin with a character that satisfies `p`. -/
def Stops (p : Char → Bool) (rest : List Char) : Prop := ∀ c ∈ rest.head?, p c = false

@[simp] theorem stops_nil {p : Char → Bool} : Stops p [] := nofun

theorem stops_cons_iff {p : Char → Bool} : Stops p (c :: rest) ↔ p c = false := by
  simp [Stops]

theorem span_of_stops {p : Char → Bool} (hcs : ∀ c ∈ cs, p c) (hr : Stops p rest) :
    Reading.span p (cs ++ rest) = { text := cs, rest } := by
  have hrest : rest.takeWhile p = [] ∧ rest.dropWhile p = rest := by
    cases rest with
    | nil => exact ⟨rfl, rfl⟩
    | cons c rest => simp [stops_cons_iff.1 hr]
  rw [span, List.takeWhile_append_of_pos hcs, List.dropWhile_append_of_pos hcs, hrest.1, hrest.2,
    List.append_nil]

/-- The characters that a span takes go on being taken. -/
theorem mem_span {p : Char → Bool} (cs : List Char) : ∀ c ∈ (Reading.span p cs).text, p c :=
  fun _ => List.mem_takeWhile_imp

theorem cons_inj {r r' : Reading} (h : cons c r = cons c r') : r = r' := by
  obtain ⟨text, rest, beyond, complete⟩ := r
  obtain ⟨text', rest', beyond', complete'⟩ := r'
  simpa [cons] using h

/-! The equations of reading a literal and a block comment, one for each case. -/

theorem stringTail_quote : stringTail q (q :: rest) = { text := [q], rest } := by
  rw [stringTail.eq_def]
  exact if_pos rfl

theorem stringTail_newline (hq : '\n' ≠ q) :
    stringTail q ('\n' :: rest) = { text := [], rest := '\n' :: rest, complete := false } := by
  rw [stringTail.eq_def]
  simp [hq]

theorem stringTail_escape (hq : '\\' ≠ q) :
    stringTail q ('\\' :: d :: rest) = cons '\\' (cons d (stringTail q rest)) := by
  rw [stringTail.eq_def]
  simp [hq]

theorem stringTail_plain (hq : c ≠ q) (hn : c ≠ '\n') (hb : c ≠ '\\') :
    stringTail q (c :: rest) = cons c (stringTail q rest) := by
  rw [stringTail.eq_def]
  simp [hq, hn, hb]

theorem blockTail_end : blockTail ('*' :: '/' :: rest) = { text := ['*', '/'], rest } := by
  rw [blockTail]
  exact if_pos ⟨rfl, rfl⟩

theorem blockTail_plain (h : ¬(c = '*' ∧ rest.head? = some '/')) :
    blockTail (c :: rest) = cons c (blockTail rest) := by
  rw [blockTail, if_neg h]

/-- A literal that is closed stays as it is when there is more text. -/
theorem stringTail_more (h : (stringTail q cs).complete) (rest : List Char) :
    stringTail q (cs ++ rest) =
      { text := (stringTail q cs).text, rest := (stringTail q cs).rest ++ rest } := by
  fun_induction stringTail q cs with
  | case1 => cases h
  | case2 cs => exact stringTail_quote
  | case3 => cases h
  | case4 => cases h
  | case5 d cs hq _ ih =>
    rw [List.cons_append, List.cons_append, stringTail_escape hq, ih h]
    rfl
  | case6 c cs hq hn hb ih =>
    rw [List.cons_append, stringTail_plain hq hn hb, ih h]
    rfl

/-- What a closed literal takes is a closed literal. -/
theorem stringTail_text (h : (stringTail q cs).complete) :
    stringTail q (stringTail q cs).text = { text := (stringTail q cs).text, rest := [] } := by
  fun_induction stringTail q cs with
  | case1 => cases h
  | case2 cs => exact stringTail_quote
  | case3 => cases h
  | case4 => cases h
  | case5 d cs hq _ ih =>
    rw [text_cons, text_cons, stringTail_escape hq, ih h]
    rfl
  | case6 c cs hq hn hb ih =>
    rw [text_cons, stringTail_plain hq hn hb, ih h]
    rfl

/-- A block comment that is closed stays as it is when there is more text. -/
theorem blockTail_more (h : (blockTail cs).complete) (rest : List Char) :
    blockTail (cs ++ rest) =
      { text := (blockTail cs).text, rest := (blockTail cs).rest ++ rest } := by
  fun_induction blockTail cs with
  | case1 => cases h
  | case2 c cs hend =>
    obtain ⟨rfl, hs⟩ := hend
    obtain ⟨cs, rfl⟩ := List.head?_eq_some_iff.1 hs
    exact blockTail_end
  | case3 c cs hend ih =>
    have hne : cs ≠ [] := by
      rintro rfl
      cases h
    rw [List.cons_append, blockTail_plain (by rwa [List.head?_append_of_ne_nil _ hne]), ih h]
    rfl

theorem head?_blockTail (h : (blockTail cs).complete) :
    (blockTail cs).text.head? = cs.head? := by
  have hne : (blockTail cs).text ≠ [] := by
    fun_induction blockTail cs with
    | case1 => cases h
    | case2 => exact List.cons_ne_nil _ _
    | case3 => exact List.cons_ne_nil _ _
  rw [← List.head?_append_of_ne_nil _ hne, blockTail_append]

/-- What a closed block comment takes is a closed block comment. -/
theorem blockTail_text (h : (blockTail cs).complete) :
    blockTail (blockTail cs).text = { text := (blockTail cs).text, rest := [] } := by
  fun_induction blockTail cs with
  | case1 => cases h
  | case2 c cs hend => exact blockTail_end
  | case3 c cs hend ih =>
    rw [text_cons, blockTail_plain (by rwa [head?_blockTail h]), ih h]
    rfl

end Reading

/-! ### Lexemes -/

namespace Lexeme

/-- All of the characters `cs` make up the lexeme `l`. -/
structure Spells (l : Lexeme) (cs : List Char) : Prop where
  /-- The first characters begin the lexeme. -/
  starts : ∃ c rest, cs = c :: rest ∧ starting c rest.head? = some l
  /-- Nothing is left when the lexeme has been read. -/
  reads : l.read cs = { text := cs, rest := [] }
  /-- The lexeme is written as it is read. -/
  keeps : l.text cs = cs

/-- The text `rest` after the characters `cs` does not go on with the lexeme `l`. -/
def Stops (l : Lexeme) (cs rest : List Char) : Prop :=
  match l with
  | comment => cs.take 2 = ['/', '/'] → Reading.Stops (· ≠ '\n') rest
  | number => Reading.Stops Reading.isNumberPart rest
  | word => Reading.Stops Reading.isWordPart rest
  | string | punct _ => True

/-- The character that a lexeme begins with. -/
theorem starting_eq_some {next : Option Char} (h : starting c next = some l) :
    (l = comment ∧ c = '/' ∧ (next = none ∨ next = some '/' ∨ next = some '*')) ∨
      (l = string ∧ Literal.isQuote c) ∨ (l = number ∧ Unicode.isDigit c) ∨
      (l = word ∧ Reading.isWordStart c) ∨ ∃ p : Punct, l = punct p ∧ p.char = c := by
  unfold starting at h
  split at h
  · next hs => exact .inl ⟨(Option.some_inj.1 h).symm, hs⟩
  · split at h
    · next hq => exact .inr (.inl ⟨(Option.some_inj.1 h).symm, hq⟩)
    · split at h
      · next hd => exact .inr (.inr (.inl ⟨(Option.some_inj.1 h).symm, hd⟩))
      · split at h
        · next hw => exact .inr (.inr (.inr (.inl ⟨(Option.some_inj.1 h).symm, hw⟩)))
        · obtain ⟨p, hp, rfl⟩ := Option.map_eq_some_iff.1 h
          exact .inr (.inr (.inr (.inr ⟨p, rfl, Punct.char_of_ofChar? hp⟩)))

/-- Only a comment begins with a slash. -/
theorem eq_comment_of_slash {next : Option Char} (h : starting '/' next = some l) :
    l = comment := by
  obtain ⟨h, -⟩ | ⟨-, h⟩ | ⟨-, h⟩ | ⟨-, h⟩ | ⟨p, -, h⟩ := starting_eq_some h
  · exact h
  · exact absurd h (by decide)
  · exact absurd h (by decide)
  · exact absurd h (by decide)
  · cases p <;> exact absurd h (by decide)

theorem starting_of_ne_slash (hc : c ≠ '/') (next next' : Option Char) :
    starting c next = starting c next' := by
  simp [starting, hc]

/-- Which lexeme begins depends on the second character at most. -/
theorem starting_append (h : starting c cs.head? = some l) (hcs : l = comment → cs ≠ []) :
    starting c (cs ++ rest).head? = some l := by
  by_cases hc : c = '/'
  · subst hc
    rwa [List.head?_append_of_ne_nil _ (hcs (eq_comment_of_slash h))]
  · rwa [starting_of_ne_slash hc _ cs.head?]

theorem isNumberPart_of_isDigit (h : Unicode.isDigit c) : Reading.isNumberPart c := by
  simp [Reading.isNumberPart, h]

/-- A comment has at least the two characters that begin it. -/
theorem Spells.comment_cases (h : comment.Spells cs) :
    (∃ tail, cs = '/' :: '/' :: tail ∧ ∀ c ∈ tail, c ≠ '\n') ∨
      ∃ tail, cs = '/' :: '*' :: tail ∧ Reading.blockTail tail = { text := tail, rest := [] } := by
  obtain ⟨c, tail, rfl, hstart⟩ := h.starts
  have hread := h.reads
  obtain ⟨-, rfl, hnext⟩ | ⟨h, -⟩ | ⟨h, -⟩ | ⟨h, -⟩ | ⟨p, h, -⟩ := starting_eq_some hstart
  · cases tail with
    | nil => cases hread
    | cons d tail =>
      obtain hd | hd | hd := hnext
      · cases hd
      · obtain rfl : d = '/' := Option.some_inj.1 hd
        refine .inl ⟨tail, rfl, fun c hc => ?_⟩
        have htail : Reading.span (· ≠ '\n') tail = { text := tail, rest := [] } :=
          Reading.cons_inj (Reading.cons_inj hread)
        have hmem := Reading.mem_span (p := (· ≠ '\n')) tail c (by rwa [htail])
        simpa using hmem
      · obtain rfl : d = '*' := Option.some_inj.1 hd
        exact .inr ⟨tail, rfl, Reading.cons_inj (Reading.cons_inj hread)⟩
  all_goals cases h

theorem commentText_line (cs : List Char) :
    commentText ('/' :: '/' :: cs) = '/' :: '/' :: Text.trimEnd cs := by
  have h : ('/' :: '/' :: cs).take 2 = ['/', '/'] := rfl
  rw [commentText, if_pos h, Text.trimEnd_cons (by decide), Text.trimEnd_cons (by decide)]

theorem spells_lineComment (hn : ∀ c ∈ cs, c ≠ '\n') (ht : Text.trimEnd cs = cs) :
    comment.Spells ('/' :: '/' :: cs) where
  starts := ⟨'/', '/' :: cs, rfl, rfl⟩
  reads := by
    have hspan := Reading.span_of_stops (p := (· ≠ '\n')) (by simpa using hn) Reading.stops_nil
    rw [List.append_nil] at hspan
    exact congrArg (Reading.cons '/' <| Reading.cons '/' ·) hspan
  keeps := (commentText_line cs).trans (by rw [ht])

theorem spells_blockComment (h : Reading.blockTail cs = { text := cs, rest := [] }) :
    comment.Spells ('/' :: '*' :: cs) where
  starts := ⟨'/', '*' :: cs, rfl, rfl⟩
  reads := congrArg (Reading.cons '/' <| Reading.cons '*' ·) h
  keeps := rfl

/-- A lexeme is read alike wherever what comes after it does not go on with it. -/
theorem Spells.read_more (h : l.Spells cs) (hr : l.Stops cs rest) :
    l.read (cs ++ rest) = { text := cs, rest } := by
  have hread := h.reads
  cases l with
  | comment =>
    obtain ⟨tail, rfl, htail⟩ | ⟨tail, rfl, htail⟩ := h.comment_cases
    · have hspan := Reading.span_of_stops (p := (· ≠ '\n')) (by simpa using htail) (hr rfl)
      exact congrArg (Reading.cons '/' <| Reading.cons '/' ·) hspan
    · have hmore := Reading.blockTail_more (by rw [htail]) rest
      rw [htail] at hmore
      exact congrArg (Reading.cons '/' <| Reading.cons '*' ·) hmore
  | string =>
    obtain ⟨c, tail, rfl, -⟩ := h.starts
    have htail : Reading.stringTail c tail = { text := tail, rest := [] } := Reading.cons_inj hread
    have hmore := Reading.stringTail_more (by rw [htail]) rest
    rw [htail] at hmore
    exact congrArg (Reading.cons c ·) hmore
  | number =>
    have htext : (Reading.span Reading.isNumberPart cs).text = cs := congrArg Reading.text hread
    exact Reading.span_of_stops (fun c hc => Reading.mem_span cs c (by rwa [htext])) hr
  | word =>
    have htext : (Reading.span Reading.isWordPart cs).text = cs := congrArg Reading.text hread
    exact Reading.span_of_stops (fun c hc => Reading.mem_span cs c (by rwa [htext])) hr
  | punct p =>
    obtain ⟨c, tail, rfl, -⟩ := h.starts
    obtain rfl : [] = tail := (List.cons.inj (congrArg Reading.text hread)).2
    rfl

/-- The first characters of a lexeme begin it whatever comes after them. -/
theorem Spells.starts_more (h : l.Spells cs) (rest : List Char) :
    ∃ c tail, cs = c :: tail ∧ starting c (tail ++ rest).head? = some l := by
  obtain ⟨c, tail, rfl, hstart⟩ := h.starts
  refine ⟨c, tail, rfl, starting_append hstart ?_⟩
  rintro rfl rfl
  cases h.reads

/-- A word or a number, given that its first character goes on with it. -/
theorem spells_of_span {p : Char → Bool} (hl : ∀ cs, l.read cs = Reading.span p cs)
    (ht : ∀ cs, l.text cs = cs) (h : starting c rest.head? = some l) (hc : c ≠ '/') (hp : p c) :
    l.Spells (Reading.span p (c :: rest)).text where
  starts := by
    refine ⟨c, (Reading.span p rest).text, List.takeWhile_cons_of_pos hp, ?_⟩
    rwa [starting_of_ne_slash hc _ rest.head?]
  reads := by
    have hspan := Reading.span_of_stops (p := p) (Reading.mem_span (c :: rest)) Reading.stops_nil
    rwa [List.append_nil, ← hl] at hspan
  keeps := ht _

/-- What is read of a text spells the lexeme that was read. -/
theorem spells_of_read (h : starting c rest.head? = some l) (hc : (l.read (c :: rest)).complete) :
    l.Spells (l.text (l.read (c :: rest)).text) := by
  cases l with
  | comment =>
    -- A line comment loses the blanks at its end, so that it is not written as it was read.
    obtain ⟨-, rfl, hnext⟩ | ⟨h', -⟩ | ⟨h', -⟩ | ⟨h', -⟩ | ⟨p, h', -⟩ := starting_eq_some h <;>
      try cases h'
    cases rest with
    | nil => cases hc
    | cons d rest =>
      obtain hd | hd | hd := hnext
      · cases hd
      · obtain rfl : d = '/' := Option.some_inj.1 hd
        have hspan := Reading.mem_span (p := (· ≠ '\n')) rest
        have htext : comment.text (comment.read ('/' :: '/' :: rest)).text =
            '/' :: '/' :: Text.trimEnd (Reading.span (· ≠ '\n') rest).text := commentText_line _
        rw [htext]
        exact spells_lineComment
          (fun c hc => by simpa using hspan c (Text.mem_of_mem_trimEnd hc)) (Text.trimEnd_trimEnd _)
      · obtain rfl : d = '*' := Option.some_inj.1 hd
        exact spells_blockComment (Reading.blockTail_text hc)
  | string =>
    have hs : c ≠ '/' := by
      rintro rfl
      cases eq_comment_of_slash h
    refine ⟨⟨c, _, rfl, by rwa [starting_of_ne_slash hs _ rest.head?]⟩, ?_, rfl⟩
    exact congrArg (Reading.cons c) (Reading.stringTail_text hc)
  | number =>
    obtain ⟨h', -⟩ | ⟨h', -⟩ | ⟨-, hd⟩ | ⟨h', -⟩ | ⟨p, h', -⟩ := starting_eq_some h <;> try cases h'
    exact spells_of_span (fun _ => rfl) (fun _ => rfl) h
      (by rintro rfl; exact absurd hd (by decide)) (isNumberPart_of_isDigit hd)
  | word =>
    obtain ⟨h', -⟩ | ⟨h', -⟩ | ⟨h', -⟩ | ⟨-, hw⟩ | ⟨p, h', -⟩ := starting_eq_some h <;> try cases h'
    exact spells_of_span (fun _ => rfl) (fun _ => rfl) h
      (by rintro rfl; exact absurd hw (by decide)) (isWordPart_of_isWordStart hw)
  | punct p =>
    have hs : c ≠ '/' := by
      rintro rfl
      cases eq_comment_of_slash h
    exact ⟨⟨c, [], rfl, by rwa [starting_of_ne_slash hs _ rest.head?]⟩, rfl, rfl⟩

end Lexeme

end StyleDecl
