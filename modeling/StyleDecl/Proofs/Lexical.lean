import StyleDecl.Proofs.Seams

/-!
# The lexical grammar

How lexemes are written, without a word about how they are read:

* `//` and characters up to a line feed, or `/*` up to the first `*/` after it;
* a quote, characters other than this quote, a line feed and a backslash, or a backslash
  and any character, and the same quote;
* a digit, and digits and dots;
* a letter, `_` or `$`, and letters, numerals, `_` and `$`;
* a punctuation mark.

The kind of its token is told by the lexeme, and whether a word is a keyword by its spelling. The
text of the token is what is written, but for the blanks at the end of a line comment.

Which lexeme begins at a place is decided by one or two characters there, since no two
kinds of lexemes share their first characters (`Lexeme.Forms.read`). So what is read is the
longest lexeme (`Lexeme.longest_of_read`), and where nothing can be read, there is none.

* `Lexeme.Forms`: how lexemes are written;
* `Lexeme.Denotes`: the kind and the text of a token;
* `Lexeme.Longest`: the longest lexeme at the beginning of a text.
-/

namespace StyleDecl

/-! ### Letters and digits -/

namespace Unicode

/-- No range of digits meets a range of letters. -/
theorem digitRanges_apart_letterRanges :
    (digitRanges.all fun r => letterRanges.all fun s => r.2.blt s.1 || s.2.blt r.1) = true := by
  -- The comparison is one that is computed, not decided: there are many pairs of ranges.
  decide +kernel

/-- No digit is a letter. -/
theorem isLetter_of_isDigit {c : Char} (h : isDigit c) : isLetter c = false := by
  by_cases hc : c.toNat < 128
  · rw [isDigit, hasProperty_of_lt hc] at h
    rw [isLetter, hasProperty_of_lt hc]
    delta Char.isAlpha Char.isUpper Char.isLower
    simp only [Char.isDigit, Bool.and_eq_true,
      decide_eq_true_eq, Bool.or_eq_false_iff, Bool.and_eq_false_iff, decide_eq_false_iff_not,
      UInt32.le_iff_toNat_le, ge_iff_le] at h ⊢
    have hnine : '9'.val.toNat = 57 := rfl
    have hupper : 'A'.val.toNat = 65 := rfl
    have hlower : 'a'.val.toNat = 97 := rfl
    omega
  · rw [isDigit, hasProperty, if_neg hc, inRanges, List.any_eq_true] at h
    rw [isLetter, hasProperty, if_neg hc, inRanges, List.any_eq_false]
    obtain ⟨r, hr, hin⟩ := h
    intro s hs hin'
    have hapart := List.all_eq_true.1 (List.all_eq_true.1 digitRanges_apart_letterRanges r hr) s hs
    simp only [Bool.and_eq_true, decide_eq_true_eq, Bool.or_eq_true, Nat.blt_eq] at hin hin' hapart
    omega

end Unicode

/-! ### How lexemes are written -/

/-- The characters between two quotes `quote`: a backslash goes with the character after it,
    whatever it is, and any other character is neither the quote nor a line feed. -/
inductive Literal.Inside (quote : Char) : List Char → Prop
  | nil : Inside quote []
  | plain {c : Char} {cs : List Char} :
    c ≠ quote → c ≠ '\n' → c ≠ '\\' → Inside quote cs → Inside quote (c :: cs)
  | escape {c : Char} {cs : List Char} : Inside quote cs → Inside quote ('\\' :: c :: cs)

/-- The lexeme `l` may be written `cs`. -/
inductive Lexeme.Forms : (l : Lexeme) → (cs : List Char) → Prop
  | lineComment {cs : List Char} : '\n' ∉ cs → Forms comment ('/' :: '/' :: cs)
  | blockComment {cs : List Char} :
    ¬['*', '/'] <:+: cs ++ ['*'] → Forms comment ('/' :: '*' :: cs ++ ['*', '/'])
  | string {quote : Char} {cs : List Char} :
    quote = '"' ∨ quote = '\'' → Literal.Inside quote cs → Forms string (quote :: cs ++ [quote])
  | number {c : Char} {cs : List Char} :
    Unicode.isDigit c → (∀ d ∈ cs, Unicode.isDigit d ∨ d = '.') → Forms number (c :: cs)
  | word {c : Char} {cs : List Char} :
    Unicode.isLetter c ∨ c = '_' ∨ c = '$' →
      (∀ d ∈ cs, Unicode.isAlphanumeric d ∨ d = '_' ∨ d = '$') → Forms word (c :: cs)
  | punct (p : Punct) : Forms (punct p) [p.char]

/-- A lexeme that is written `cs` makes a token of the kind `kind` with the text `text`. -/
inductive Lexeme.Denotes :
    (l : Lexeme) → (cs : List Char) → (kind : Kind) → (text : List Char) → Prop
  /-- The blanks at the end of a line comment do not belong to its text. -/
  | lineComment {text blanks : List Char} :
    ['/', '/'] <+: text → (∀ c ∈ text.getLast?, Unicode.isBlank c = false) →
      (∀ b ∈ blanks, Unicode.isBlank b) → Denotes comment (text ++ blanks) .comment text
  | blockComment {cs : List Char} : ['/', '*'] <+: cs → Denotes comment cs .comment cs
  | string {cs : List Char} : Denotes string cs .string cs
  | number {cs : List Char} : Denotes number cs .number cs
  | keyword {cs : List Char} {k : Keyword} :
    k.text = String.ofList cs → Denotes word cs (.keyword k) cs
  | name {cs : List Char} :
    (∀ k : Keyword, k.text ≠ String.ofList cs) → Denotes word cs .identifier cs
  | punct (p : Punct) : Denotes (punct p) [p.char] (.punct p) [p.char]

/-- The text `text` begins with the lexeme `l`, written `cs`, and with no longer one. -/
structure Lexeme.Longest (l : Lexeme) (cs text : List Char) : Prop where
  forms : l.Forms cs
  isPrefix : cs <+: text
  longest : ∀ ⦃l' cs'⦄, Lexeme.Forms l' cs' → cs' <+: text → cs'.length ≤ cs.length

variable {c q : Char} {cs text rest : List Char} {l : Lexeme} {kind : Kind}

/-! ### Literals and block comments -/

namespace Reading

theorem complete_of_eq {r : Reading} (h : r = { text := cs, rest }) :
    r.complete ∧ cs <+: r.text := by
  subst h
  exact ⟨rfl, List.prefix_rfl⟩

/-- All that fits at the beginning is taken. -/
theorem isPrefix_span {p : Char → Bool} (h : ∀ c ∈ cs, p c) (rest : List Char) :
    cs <+: (Reading.span p (cs ++ rest)).text := by
  rw [Reading.span, List.takeWhile_append_of_pos h]
  exact List.prefix_append _ _

/-- A literal is read up to its closing quote. -/
theorem stringTail_of_inside (hq : '\\' ≠ q) (h : Literal.Inside q cs) (rest : List Char) :
    stringTail q (cs ++ q :: rest) = { text := cs ++ [q], rest } := by
  induction h with
  | nil => exact stringTail_quote
  | plain hc hn hb _ ih =>
    rw [List.cons_append, stringTail_plain hc hn hb, ih]
    rfl
  | escape _ ih =>
    rw [List.cons_append, List.cons_append, stringTail_escape hq, ih]
    rfl

/-- What is read up to a closing quote lies between two quotes. -/
theorem inside_of_stringTail (h : (stringTail q text).complete) :
    ∃ cs, (stringTail q text).text = cs ++ [q] ∧ Literal.Inside q cs := by
  fun_induction stringTail q text with
  | case1 => cases h
  | case2 rest => exact ⟨[], rfl, .nil⟩
  | case3 => cases h
  | case4 => cases h
  | case5 d rest _ _ ih =>
    obtain ⟨cs, hcs, hin⟩ := ih h
    exact ⟨'\\' :: d :: cs, by simp [hcs], .escape hin⟩
  | case6 c rest hq hn hb ih =>
    obtain ⟨cs, hcs, hin⟩ := ih h
    exact ⟨c :: cs, by simp [hcs], .plain hq hn hb hin⟩

theorem closes_cons_iff_head (cs : List Char) :
    ['*', '/'] <+: c :: cs ++ ['*'] ↔ c = '*' ∧ cs.head? = some '/' := by
  cases cs <;> simp [List.cons_prefix_cons, eq_comm]

/-- A block comment is read up to the first place where it is closed. -/
theorem blockTail_of_not_infix (h : ¬['*', '/'] <:+: cs ++ ['*']) (rest : List Char) :
    blockTail (cs ++ '*' :: '/' :: rest) = { text := cs ++ ['*', '/'], rest } := by
  induction cs with
  | nil => exact blockTail_end
  | cons c cs ih =>
    rw [List.cons_append, List.infix_cons_iff, not_or, ← List.cons_append] at h
    have hhead : ¬(c = '*' ∧ (cs ++ '*' :: '/' :: rest).head? = some '/') := by
      rintro ⟨rfl, hslash⟩
      cases cs with
      | nil => exact absurd hslash (by simp)
      | cons d cs => exact h.1 ((closes_cons_iff_head _).2 ⟨rfl, hslash⟩)
    rw [List.cons_append, blockTail_plain hhead, ih h.2]
    rfl

/-- What is read of a closed block comment is closed at its end only. -/
theorem not_infix_of_blockTail (h : (blockTail text).complete) :
    ∃ cs, (blockTail text).text = cs ++ ['*', '/'] ∧ ¬['*', '/'] <:+: cs ++ ['*'] := by
  fun_induction blockTail text with
  | case1 => cases h
  | case2 c rest _ => exact ⟨[], rfl, by decide⟩
  | case3 c rest hc ih =>
    obtain ⟨cs, hcs, hnot⟩ := ih h
    refine ⟨c :: cs, by simp [hcs], ?_⟩
    rw [List.cons_append, List.infix_cons_iff, not_or, ← List.cons_append]
    refine ⟨fun hbegins => hc ?_, hnot⟩
    obtain ⟨rfl, hslash⟩ := (closes_cons_iff_head cs).1 hbegins
    have hhead : (blockTail rest).text.head? = some '/' := by
      rw [hcs, List.head?_append_of_ne_nil _ (by rintro rfl; cases hslash), hslash]
    exact ⟨rfl, by rw [← head?_blockTail h, hhead]⟩

end Reading

/-! ### What is read is the longest lexeme -/

namespace Lexeme

theorem isQuote_iff : Literal.isQuote c ↔ c = '"' ∨ c = '\'' := by
  simp [Literal.isQuote]

/-- The lexeme that begins with a punctuation mark. -/
theorem starting_char (p : Punct) (next : Option Char) : starting p.char next = some (punct p) := by
  rw [starting_of_ne_slash (by cases p <;> decide) next none]
  cases p <;> decide

theorem starting_quote (hq : q = '"' ∨ q = '\'') (next : Option Char) :
    starting q next = some string := by
  rw [starting_of_ne_slash (by rcases hq with rfl | rfl <;> decide) next none]
  rcases hq with rfl | rfl <;> decide

theorem starting_of_isDigit (h : Unicode.isDigit c) (next : Option Char) :
    starting c next = some number := by
  have hs : c ≠ '/' := by
    rintro rfl
    exact absurd h (by decide)
  have hq : ¬Literal.isQuote c := by
    rw [isQuote_iff]
    rintro (rfl | rfl) <;> exact absurd h (by decide)
  simp [starting, hs, hq, h]

/-- No word begins with a digit, or it would be read as a number. -/
theorem not_isDigit_of_isWordStart (h : Reading.isWordStart c) : ¬Unicode.isDigit c := by
  intro hd
  have hletter := Unicode.isLetter_of_isDigit hd
  simp only [Reading.isWordStart, hletter, Bool.false_or, Bool.or_eq_true, decide_eq_true_eq] at h
  rcases h with rfl | rfl <;> exact absurd hd (by decide)

theorem starting_of_isWordStart (h : Reading.isWordStart c) (next : Option Char) :
    starting c next = some word := by
  have hs : c ≠ '/' := by
    rintro rfl
    exact absurd h (by decide)
  have hq : ¬Literal.isQuote c := by
    rw [isQuote_iff]
    rintro (rfl | rfl) <;> exact absurd h (by decide)
  simp [starting, hs, hq, not_isDigit_of_isWordStart h, h]

/-- A literal is read from quote to quote. -/
theorem read_string (hq : q = '"' ∨ q = '\'') (h : Literal.Inside q cs) (rest : List Char) :
    string.read (q :: cs ++ [q] ++ rest) = { text := q :: cs ++ [q], rest } := by
  have hb : '\\' ≠ q := by rcases hq with rfl | rfl <;> decide
  have htail := Reading.stringTail_of_inside hb h rest
  simp only [List.cons_append, List.append_assoc, List.nil_append] at htail ⊢
  exact congrArg (Reading.cons q) htail

/-- A block comment is read from mark to mark. -/
theorem read_blockComment (h : ¬['*', '/'] <:+: cs ++ ['*']) (rest : List Char) :
    comment.read ('/' :: '*' :: cs ++ ['*', '/'] ++ rest) =
      { text := '/' :: '*' :: cs ++ ['*', '/'], rest } := by
  have htail := Reading.blockTail_of_not_infix h rest
  simp only [List.cons_append, List.append_assoc, List.nil_append] at htail ⊢
  exact congrArg (Reading.cons '/' <| Reading.cons '*' ·) htail

/-- However a lexeme is written, its first characters decide that it is read, and nothing of it is
    left when it has been read. -/
theorem Forms.read (h : l.Forms cs) (rest : List Char) :
    (∃ c tail, cs = c :: tail ∧ starting c (tail ++ rest).head? = some l) ∧
      (l.read (cs ++ rest)).complete ∧ cs <+: (l.read (cs ++ rest)).text := by
  cases h with
  | @lineComment cs hcs =>
    have hall : ∀ c ∈ cs, decide (c ≠ '\n') := fun c hc =>
      decide_eq_true (ne_of_mem_of_not_mem hc hcs)
    refine ⟨⟨_, _, rfl, rfl⟩, rfl, ?_⟩
    change _ <+: '/' :: '/' :: (Reading.span (· ≠ '\n') (cs ++ rest)).text
    rw [List.cons_prefix_cons, List.cons_prefix_cons]
    exact ⟨rfl, rfl, Reading.isPrefix_span hall rest⟩
  | blockComment hcs =>
    exact ⟨⟨_, _, rfl, rfl⟩, Reading.complete_of_eq (read_blockComment hcs rest)⟩
  | @string quote cs hq hcs =>
    exact ⟨⟨_, _, rfl, starting_quote hq _⟩, Reading.complete_of_eq (read_string hq hcs rest)⟩
  | @number c cs hc hcs =>
    have hpart : ∀ d ∈ c :: cs, Reading.isNumberPart d := by
      simpa [Reading.isNumberPart, hc] using hcs
    exact ⟨⟨_, _, rfl, starting_of_isDigit hc _⟩, rfl, Reading.isPrefix_span hpart rest⟩
  | @word c cs hc hcs =>
    have hstart : Reading.isWordStart c := by simpa [Reading.isWordStart, or_assoc] using hc
    have hpart : ∀ d ∈ c :: cs, Reading.isWordPart d := by
      rw [List.forall_mem_cons]
      exact ⟨isWordPart_of_isWordStart hstart, by simpa [Reading.isWordPart, or_assoc] using hcs⟩
    exact ⟨⟨_, _, rfl, starting_of_isWordStart hstart _⟩, rfl, Reading.isPrefix_span hpart rest⟩
  | punct p => exact ⟨⟨_, _, rfl, starting_char p _⟩, rfl, List.prefix_refl _⟩

/-- What is read of a lexeme is written as one. -/
theorem forms_of_read (h : starting c rest.head? = some l) (hc : (l.read (c :: rest)).complete) :
    l.Forms (l.read (c :: rest)).text := by
  obtain ⟨rfl, rfl, hnext⟩ | ⟨rfl, hq⟩ | ⟨rfl, hd⟩ | ⟨rfl, hw⟩ | ⟨p, rfl, rfl⟩ :=
    starting_eq_some h
  · rcases rest with - | ⟨d, rest⟩
    · cases hc
    rcases hnext with hd | hd | hd <;> cases hd
    · refine .lineComment fun hn => ?_
      exact absurd (Reading.mem_span (p := (· ≠ '\n')) rest _ hn) (by decide)
    · obtain ⟨cs, hcs, hnot⟩ := Reading.not_infix_of_blockTail hc
      change comment.Forms ('/' :: '*' :: (Reading.blockTail rest).text)
      rw [hcs]
      exact .blockComment hnot
  · obtain ⟨cs, hcs, hin⟩ := Reading.inside_of_stringTail hc
    change string.Forms (c :: (Reading.stringTail c rest).text)
    rw [hcs]
    exact .string (isQuote_iff.1 hq) hin
  · have hread : number.read (c :: rest) = Reading.span Reading.isNumberPart (c :: rest) := rfl
    have hpart := Reading.mem_span (p := Reading.isNumberPart) (c :: rest)
    rw [hread]
    simp only [Reading.span, List.takeWhile_cons_of_pos (isNumberPart_of_isDigit hd)] at hpart ⊢
    refine .number hd fun d hmem => ?_
    simpa [Reading.isNumberPart] using hpart d (List.mem_cons_of_mem _ hmem)
  · have hread : word.read (c :: rest) = Reading.span Reading.isWordPart (c :: rest) := rfl
    have hpart := Reading.mem_span (p := Reading.isWordPart) (c :: rest)
    rw [hread]
    simp only [Reading.span, List.takeWhile_cons_of_pos (isWordPart_of_isWordStart hw)] at hpart ⊢
    refine .word (by simpa [Reading.isWordStart, or_assoc] using hw) fun d hmem => ?_
    simpa [Reading.isWordPart, or_assoc] using hpart d (List.mem_cons_of_mem _ hmem)
  · exact .punct p

/-- What spells a lexeme is written as one. -/
theorem Spells.forms (h : l.Spells cs) : l.Forms cs := by
  obtain ⟨c, rest, rfl, hstart⟩ := h.starts
  have hforms := forms_of_read hstart (by rw [h.reads])
  rwa [h.reads] at hforms

/-- Only comments and literals are written with line feeds. -/
theorem Forms.newline_not_mem (h : l.Forms cs) (hcomment : l ≠ .comment) (hstring : l ≠ .string) :
    '\n' ∉ cs := by
  intro hn
  cases h with
  | lineComment | blockComment => exact hcomment rfl
  | string => exact hstring rfl
  | number hc hcs =>
    obtain rfl | hn := List.mem_cons.1 hn
    · exact absurd hc (by decide)
    · exact absurd (hcs _ hn) (by decide)
  | word hc hcs =>
    obtain rfl | hn := List.mem_cons.1 hn
    · exact absurd hc (by decide)
    · exact absurd (hcs _ hn) (by decide)
  | punct p =>
    have hne : '\n' ≠ p.char := by cases p <;> decide
    exact hne (List.mem_singleton.1 hn)

/-- Any lexeme that a text begins with is of the kind that is read, and no longer than what is
    read. -/
theorem Forms.of_isPrefix (h : l.Forms cs) (hp : cs <+: c :: rest) :
    starting c rest.head? = some l ∧ (l.read (c :: rest)).complete ∧
      cs <+: (l.read (c :: rest)).text := by
  obtain ⟨tail, htail⟩ := hp
  obtain ⟨⟨d, ds, rfl, hstart⟩, hc, htext⟩ := h.read tail
  obtain ⟨rfl, rfl⟩ := List.cons.inj htail
  exact ⟨hstart, hc, htext⟩

/-- What is read is the longest lexeme. -/
theorem longest_of_read (h : starting c rest.head? = some l)
    (hc : (l.read (c :: rest)).complete) : l.Longest (l.read (c :: rest)).text (c :: rest) where
  forms := forms_of_read h hc
  isPrefix := ⟨_, l.read_append (c :: rest)⟩
  longest l' cs' hforms hp := by
    obtain ⟨hstart, -, htext⟩ := hforms.of_isPrefix hp
    obtain rfl : l' = l := Option.some_inj.1 (hstart.symm.trans h)
    exact htext.length_le

/-- The longest lexeme is read. -/
theorem Longest.read (h : l.Longest cs (cs ++ rest)) :
    ∃ c tail, cs = c :: tail ∧ starting c (tail ++ rest).head? = some l ∧
      l.read (cs ++ rest) = { text := cs, rest } := by
  obtain ⟨⟨c, tail, rfl, hstart⟩, hc, htext⟩ := h.forms.read rest
  have hlongest := longest_of_read hstart hc
  have heq := htext.eq_of_length
    (Nat.le_antisymm htext.length_le (h.longest hlongest.forms hlongest.isPrefix))
  refine ⟨c, tail, rfl, hstart, ?_⟩
  have hread := Lexeme.read_more hstart hc fun _ => Lexeme.stops_nil l _
  rw [List.append_nil, List.append_nil] at hread
  have hrest := l.read_append (c :: tail ++ rest)
  rw [List.cons_append] at heq hrest
  rw [← heq] at hread hrest
  rw [List.cons_append, hread, List.append_cancel_left hrest]

/-- A text that does not begin with white space begins with a longest lexeme, or with none. -/
theorem longest_or_not_forms (c : Char) (rest : List Char) :
    (∃ l cs rest', c :: rest = cs ++ rest' ∧ cs ≠ [] ∧ Longest l cs (cs ++ rest')) ∨
      ∀ ⦃l cs⦄, Forms l cs → ¬cs <+: c :: rest := by
  by_cases h : ∃ l, starting c rest.head? = some l ∧ (l.read (c :: rest)).complete
  · obtain ⟨l, hstart, hc⟩ := h
    have hrest := l.read_append (c :: rest)
    exact .inl
      ⟨l, _, _, hrest.symm, read_ne_nil hstart rest, hrest.symm ▸ longest_of_read hstart hc⟩
  · refine .inr fun l cs hforms hp => h ⟨l, ?_⟩
    obtain ⟨hstart, hc, -⟩ := hforms.of_isPrefix hp
    exact ⟨hstart, hc⟩

/-! ### The tokens of lexemes -/

/-- The text of a line comment goes up to the last character that is no blank. -/
theorem denotes_lineComment_iff (hcs : ['/', '/'] <+: cs) :
    comment.Denotes cs kind text ↔ kind = .comment ∧ text = Text.trimEnd cs := by
  constructor
  · intro h
    cases h with
    | lineComment _ hlast hblanks =>
      exact ⟨rfl, (Text.trimEnd_append_blanks hlast hblanks).symm⟩
    | blockComment hblock =>
      -- The second character tells line comments from block comments.
      have heq := List.prefix_iff_eq_take.1 hcs
      have heq' := List.prefix_iff_eq_take.1 hblock
      cases heq.trans heq'.symm
  · rintro ⟨rfl, rfl⟩
    obtain ⟨tail, rfl⟩ := hcs
    have hslash : Unicode.isBlank '/' = false := rfl
    obtain ⟨blanks, heq, hblanks, hlast⟩ := Text.eq_trimEnd_append ('/' :: '/' :: tail)
    have hbegins : ['/', '/'] <+: Text.trimEnd ('/' :: '/' :: tail) := by
      rw [Text.trimEnd_cons hslash, Text.trimEnd_cons hslash]
      exact ⟨_, rfl⟩
    have hdenotes := Denotes.lineComment hbegins hlast hblanks
    rwa [← heq] at hdenotes

/-- The token of a word is the keyword that it spells, or else a name. -/
theorem denotes_word_iff : word.Denotes cs kind text ↔ kind = word.kind cs ∧ text = cs := by
  constructor
  · intro h
    cases h with
    | keyword hk => exact ⟨by rw [Lexeme.kind, Keyword.ofText?_eq_some_iff.2 hk], rfl⟩
    | name hnone => exact ⟨by rw [Lexeme.kind, Keyword.ofText?_eq_none_iff.2 hnone], rfl⟩
  · rintro ⟨rfl, rfl⟩
    rw [Lexeme.kind]
    split
    · next hk => exact .keyword (Keyword.ofText?_eq_some_iff.1 hk)
    · next hnone => exact .name (Keyword.ofText?_eq_none_iff.1 hnone)

/-- What is read of a lexeme decides its token. -/
theorem Forms.denotes_iff (h : l.Forms cs) :
    l.Denotes cs kind text ↔ kind = l.kind cs ∧ text = l.text cs := by
  cases h with
  | lineComment => exact denotes_lineComment_iff ⟨_, rfl⟩
  | @blockComment cs =>
    constructor
    · intro h
      generalize hcs : '/' :: '*' :: cs ++ ['*', '/'] = ds at h
      cases h with
      | lineComment htext =>
        obtain ⟨tail, rfl⟩ := htext
        cases hcs
      | blockComment => exact ⟨rfl, by rw [← hcs]; rfl⟩
    · rintro ⟨rfl, rfl⟩
      exact .blockComment ⟨_, rfl⟩
  | string =>
    refine ⟨fun h => ?_, ?_⟩
    · cases h
      exact ⟨rfl, rfl⟩
    · rintro ⟨rfl, rfl⟩
      exact .string
  | number =>
    refine ⟨fun h => ?_, ?_⟩
    · cases h
      exact ⟨rfl, rfl⟩
    · rintro ⟨rfl, rfl⟩
      exact .number
  | word => exact denotes_word_iff
  | punct p =>
    refine ⟨fun h => ?_, ?_⟩
    · cases h
      exact ⟨rfl, rfl⟩
    · rintro ⟨rfl, rfl⟩
      exact .punct p

end Lexeme

end StyleDecl
