import StyleDecl.Decl.Layout
import StyleDecl.Literal.Emitted
import StyleDecl.Proofs.Writes

/-!
# String literals

A text is a string literal if it is a sequence of pieces that fit between its quotes
(`spells_iff_fits`). The preferred form of a literal is one, and it has the same
pieces once their quotes are bare, so which literal it was made from no longer
matters: `preferred_preferred`.

* `LayoutConfig.spelling_spells`: literals and keys stay tokens of their kind;
* `LayoutConfig.spelling_spelling`: the last spelling is the one that counts;
* `quote_spells`, `key_spells`: a value in quotes is a literal, and the key made from a
  name is one token, whatever it holds.
-/

namespace StyleDecl.Literal

variable {q : Char} {ps : List Piece} {cs : List Char} {raw : String} {p : Piece}

/-! ### Pieces -/

/-- The text of a piece. -/
def Piece.text : Piece → List Char
  | .plain c => [c]
  | .escape c => ['\\', c]

/-- A piece that can stand between two quotes `q`: only behind a backslash may there
    be this quote, a line feed or another backslash. -/
def Piece.Fits (q : Char) : Piece → Prop
  | .plain c => c ≠ q ∧ c ≠ '\n' ∧ c ≠ '\\'
  | .escape _ => True

/-- The text of a literal between the quotes `q`. -/
def enclosed (q : Char) (ps : List Piece) : List Char := q :: (ps.flatMap Piece.text ++ [q])

theorem isQuote_ne_backslash (hq : isQuote q) : '\\' ≠ q := by
  rintro rfl
  exact absurd hq (by decide)

/-- The pieces of the body of a literal are read off its text. -/
theorem pieces_text (h : ∀ p ∈ ps, p.Fits q) : pieces (ps.flatMap Piece.text) = ps := by
  induction ps with
  | nil => rfl
  | cons p ps ih =>
    rw [List.forall_mem_cons] at h
    rw [List.flatMap_cons]
    cases p with
    | plain c =>
      have hb : c ≠ '\\' := h.1.2.2
      rw [Piece.text, List.singleton_append]
      cases hps : ps.flatMap Piece.text with
      | nil =>
        rw [← ih h.2, hps]
        rfl
      | cons d cs => rw [pieces, if_neg hb, ← hps, ih h.2]
    | escape c =>
      rw [Piece.text, List.cons_append, List.singleton_append, pieces, if_pos rfl, ih h.2]

theorem body_enclosed (h : ∀ p ∈ ps, p.Fits q) : body (enclosed q ps) = ps.map Piece.bare := by
  rw [body, enclosed, List.drop_one, List.tail_cons, List.dropLast_concat, pieces_text h]

/-! ### Literals as lexemes -/

theorem stringTail_text_append (hq : isQuote q) (h : ∀ p ∈ ps, p.Fits q) :
    Reading.stringTail q (ps.flatMap Piece.text ++ [q]) =
      { text := ps.flatMap Piece.text ++ [q], rest := [] } := by
  induction ps with
  | nil => exact Reading.stringTail_quote
  | cons p ps ih =>
    rw [List.forall_mem_cons] at h
    rw [List.flatMap_cons, List.append_assoc]
    cases p with
    | plain c =>
      obtain ⟨hcq, hn, hb⟩ := h.1
      rw [Piece.text, List.singleton_append, Reading.stringTail_plain hcq hn hb, ih h.2]
      rfl
    | escape c =>
      rw [Piece.text, List.cons_append, List.singleton_append,
        Reading.stringTail_escape (isQuote_ne_backslash hq), ih h.2]
      rfl

/-- Reading a closed literal takes it apart into pieces. -/
theorem exists_pieces (h : (Reading.stringTail q cs).complete) :
    ∃ ps : List Piece, (∀ p ∈ ps, p.Fits q) ∧
      (Reading.stringTail q cs).text = ps.flatMap Piece.text ++ [q] := by
  fun_induction Reading.stringTail q cs with
  | case1 => cases h
  | case2 => exact ⟨[], List.forall_mem_nil _, rfl⟩
  | case3 => cases h
  | case4 => cases h
  | case5 d cs hq _ ih =>
    obtain ⟨ps, hps, htext⟩ := ih h
    exact ⟨.escape d :: ps, List.forall_mem_cons.2 ⟨trivial, hps⟩, by simp [htext, Piece.text]⟩
  | case6 c cs hq hn hb ih =>
    obtain ⟨ps, hps, htext⟩ := ih h
    exact ⟨.plain c :: ps, List.forall_mem_cons.2 ⟨⟨hq, hn, hb⟩, hps⟩, by simp [htext, Piece.text]⟩

/-- A string literal is a sequence of pieces that fit between two quotes. -/
theorem spells_iff_fits : Lexeme.string.Spells cs ↔
    ∃ q ps, isQuote q ∧ (∀ p ∈ ps, Piece.Fits q p) ∧ cs = enclosed q ps := by
  constructor
  · intro h
    obtain ⟨q, tail, rfl, hstart⟩ := h.starts
    have hread : Reading.stringTail q tail = { text := tail, rest := [] } :=
      Reading.cons_inj h.reads
    have hq : isQuote q := by
      obtain ⟨h', -⟩ | ⟨-, hq⟩ | ⟨h', -⟩ | ⟨h', -⟩ | ⟨p, h', -⟩ := Lexeme.starting_eq_some hstart
      · cases h'
      · exact hq
      all_goals cases h'
    obtain ⟨ps, hps, htext⟩ := exists_pieces (by rw [hread])
    rw [hread] at htext
    exact ⟨q, ps, hq, hps, congrArg (q :: ·) htext⟩
  · rintro ⟨q, ps, hq, hps, rfl⟩
    have hs : q ≠ '/' := by
      rintro rfl
      exact absurd hq (by decide)
    refine ⟨⟨q, _, rfl, ?_⟩, congrArg (Reading.cons q) (stringTail_text_append hq hps), rfl⟩
    rw [Lexeme.starting, if_neg fun h => hs h.1, if_pos hq]

/-! ### The preferred form -/

/-- A piece of the preferred form of a literal before its quotes are known. -/
def Piece.IsBare : Piece → Prop
  | .plain c => c ≠ '\n' ∧ c ≠ '\\'
  | .escape c => isQuote c = false

theorem Piece.Fits.isBare_bare (hp : p.Fits q) : p.bare.IsBare := by
  cases p with
  | plain c => exact hp.2
  | escape c =>
    rw [Piece.bare]
    split
    · next hc =>
      refine ⟨?_, ?_⟩ <;> rintro rfl <;> exact absurd hc (by decide)
    · next hc => exact Bool.eq_false_iff.2 hc

/-- A bare piece as it stands between the quotes `q`. -/
def Piece.within (q : Char) (p : Piece) : Piece := if p = .plain q then .escape q else p

theorem Piece.IsBare.fits_within (hp : p.IsBare) : (p.within q).Fits q := by
  rw [Piece.within]
  split
  · trivial
  · next hne =>
    cases p with
    | plain c => exact ⟨fun hc => hne (hc ▸ rfl), hp.1, hp.2⟩
    | escape c => trivial

theorem Piece.IsBare.bare_within (hq : isQuote q) (hp : p.IsBare) : (p.within q).bare = p := by
  rw [Piece.within]
  split
  · next heq => rw [heq, Piece.bare, if_pos hq]
  · cases p with
    | plain c => rfl
    | escape c => rw [Piece.bare, if_neg (by simp [show isQuote c = false from hp])]

theorem Piece.written_eq_text (p : Piece) : p.written q = (p.within q).text := by
  cases p with
  | plain c =>
    by_cases h : c = q
    · simp [Piece.written, Piece.within, Piece.text, h]
    · simp [Piece.written, Piece.within, Piece.text, h]
  | escape c => simp [Piece.written, Piece.within, Piece.text]

theorem written_eq_enclosed (q : Char) (ps : List Piece) :
    written q ps = enclosed q (ps.map (Piece.within q)) := by
  have htext : Piece.written q = fun p => (p.within q).text := funext Piece.written_eq_text
  rw [written, enclosed, List.flatMap_map, List.cons_append, htext]

theorem isQuote_chosenQuote (single : Bool) (ps : List Piece) :
    isQuote (chosenQuote single ps) := by
  cases single with
  | false =>
    simp only [chosenQuote, Bool.false_eq_true, if_false]
    split <;> rfl
  | true =>
    simp only [chosenQuote, if_true]
    split <;> rfl

variable {single single' : Bool}

/-- The body of a literal, its quotes bare. -/
theorem isBare_body (h : Lexeme.string.Spells cs) : ∀ p ∈ body cs, p.IsBare := by
  obtain ⟨q, ps, -, hps, rfl⟩ := spells_iff_fits.1 h
  rw [body_enclosed hps, List.forall_mem_map]
  exact fun p hp => (hps p hp).isBare_bare

theorem fits_within (h : ∀ p ∈ ps, p.IsBare) : ∀ p ∈ ps.map (Piece.within q), p.Fits q :=
  List.forall_mem_map.2 fun p hp => (h p hp).fits_within

/-- Choosing other quotes does not change the body. -/
theorem body_written (hq : isQuote q) (h : ∀ p ∈ ps, p.IsBare) : body (written q ps) = ps := by
  rw [written_eq_enclosed, body_enclosed (fits_within h), List.map_map, List.map_congr_left,
    List.map_id]
  exact fun p hp => (h p hp).bare_within hq

theorem toList_preferred (single : Bool) (raw : String) :
    (preferred single raw).toList =
      written (chosenQuote single (body raw.toList)) (body raw.toList) :=
  String.toList_ofList

theorem body_preferred (h : Lexeme.string.Spells raw.toList) :
    body (preferred single raw).toList = body raw.toList := by
  rw [toList_preferred, body_written (isQuote_chosenQuote _ _) (isBare_body h)]

/-- The preferred form of a literal is a literal. -/
theorem preferred_spells (h : Lexeme.string.Spells raw.toList) :
    Lexeme.string.Spells (preferred single raw).toList := by
  rw [toList_preferred, written_eq_enclosed]
  exact spells_iff_fits.2 ⟨_, _, isQuote_chosenQuote _ _, fits_within (isBare_body h), rfl⟩

/-- The preferred form depends on the body only, so the last preference decides. -/
theorem preferred_preferred (h : Lexeme.string.Spells raw.toList) :
    preferred single (preferred single' raw) = preferred single raw := by
  rw [preferred, body_preferred h, preferred]

/-! ### Values in quotes -/

/-- The piece that a character of a value is written as. -/
def piece (c : Char) : Piece :=
  if c = '\\' ∨ c = '\'' then .escape c
  else if c = '\n' then .escape 'n'
  else if c = '\r' then .escape 'r'
  else .plain c

theorem fits_piece (c : Char) : (piece c).Fits '\'' := by
  rw [piece]
  split
  · trivial
  · next h =>
    rw [not_or] at h
    split
    · trivial
    · next hn =>
      split
      · trivial
      · exact ⟨h.2, hn, h.1⟩

theorem escaped_eq_text (c : Char) : escaped c = (piece c).text := by
  rw [escaped, piece]
  split
  · rfl
  · split
    · rfl
    · split <;> rfl

theorem fits_of_mem_pieces {value : String} : ∀ p ∈ value.toList.map piece, p.Fits '\'' :=
  List.forall_mem_map.2 fun c _ => fits_piece c

/-- A value in quotes has one piece for each of its characters. -/
theorem toList_quote (value : String) :
    (quote value).toList = enclosed '\'' (value.toList.map piece) := by
  have htext : escaped = fun c => (piece c).text := funext escaped_eq_text
  rw [quote, String.toList_ofList, enclosed, List.flatMap_map, List.cons_append, htext]

/-- A value in quotes is a literal, whatever it holds. -/
theorem quote_spells (value : String) : Kind.string.Spells (quote value) :=
  Kind.string_spells_iff.2
    (spells_iff_fits.2 ⟨'\'', _, rfl, fits_of_mem_pieces, toList_quote value⟩)

/-! ### Emitted keys -/

/-- Plain names are made of ASCII characters, so none of the tables is consulted. -/
theorem toNat_lt_of_isNamePart {c : Char} (h : isNamePart c) : c.toNat < 128 := by
  rw [isNamePart, isNameStart] at h
  delta Char.isAlpha Char.isUpper Char.isLower at h
  simp only [Char.isDigit, Bool.or_eq_true, Bool.and_eq_true, decide_eq_true_eq,
    UInt32.le_iff_toNat_le] at h
  rcases h with (((⟨-, h⟩ | ⟨-, h⟩) | rfl) | rfl) | ⟨-, h⟩
  · exact Nat.lt_of_le_of_lt h (by decide)
  · exact Nat.lt_of_le_of_lt h (by decide)
  · decide
  · decide
  · exact Nat.lt_of_le_of_lt h (by decide)

theorem isWordPart_of_isNamePart {c : Char} (h : isNamePart c) : Reading.isWordPart c := by
  have hlt := toNat_lt_of_isNamePart h
  simp only [isNamePart, isNameStart, Bool.or_eq_true, decide_eq_true_eq] at h
  simp only [Reading.isWordPart, Unicode.isAlphanumeric, Unicode.isLetter, Unicode.isNumeric,
    Unicode.hasProperty_of_lt hlt, Bool.or_eq_true, decide_eq_true_eq]
  tauto

theorem starting_of_isNameStart {c : Char} (h : isNameStart c) (next : Option Char) :
    Lexeme.starting c next = some .word := by
  -- All of them are ASCII characters, and few enough to be tried one by one.
  have hall : ∀ n < 128, isNameStart (Char.ofNat n) →
      Lexeme.starting (Char.ofNat n) none = some .word := by decide +kernel
  have hs : c ≠ '/' := by
    rintro rfl
    exact absurd h (by decide)
  have hlt : c.toNat < 128 := toNat_lt_of_isNamePart (by rw [isNamePart, h, Bool.true_or])
  rw [Lexeme.starting_of_ne_slash hs next none, ← Char.ofNat_toNat c]
  exact hall _ hlt (by rwa [Char.ofNat_toNat])

/-- A plain name is a word. -/
theorem word_spells_of_isName {name : String} (h : isName name) :
    Lexeme.word.Spells name.toList := by
  rw [isName] at h
  split at h
  · cases h
  · next c rest hname =>
    rw [Bool.and_eq_true, List.all_eq_true] at h
    have hpart : ∀ d ∈ c :: rest, Reading.isWordPart d := List.forall_mem_cons.2
      ⟨isWordPart_of_isNamePart (by rw [isNamePart, h.1, Bool.true_or]),
        fun d hd => isWordPart_of_isNamePart (h.2 d hd)⟩
    have hread := Reading.span_of_stops hpart Reading.stops_nil
    rw [List.append_nil] at hread
    rw [hname]
    exact ⟨⟨c, rest, rfl, starting_of_isNameStart h.1 _⟩, hread, rfl⟩

theorem spells_of_isName {name : String} (h : isName name) (hk : Keyword.ofText? name = none) :
    Kind.identifier.Spells name := by
  refine Kind.spells_iff.2 ⟨.word, word_spells_of_isName h, ?_⟩
  rw [Lexeme.kind, String.ofList_toList, hk]

theorem kind_word_mem (cs : List Char) : Lexeme.word.kind cs ∈ Kind.keys := by
  rw [Lexeme.kind]
  split
  · next k _ =>
    exact List.mem_append_left _ (List.mem_cons_of_mem _ (List.mem_map_of_mem k.mem_all))
  · decide

/-- Any name is written as a key that is one token. -/
theorem key_spells (name : String) : Kind.AnySpells Kind.keys (key name) := by
  rw [key]
  split
  · next h => exact ⟨_, kind_word_mem _, (word_spells_of_isName h).kind_spells⟩
  · exact ⟨.string, by decide, quote_spells name⟩

end StyleDecl.Literal

namespace StyleDecl.LayoutConfig

variable {cfg cfg' : LayoutConfig} {raw : String} {kinds : List Kind}

/-! ### Spellings of literals and keys -/

theorem spelling_of_string (h : Lexeme.string.Spells raw.toList) :
    cfg.spelling raw = Literal.preferred cfg.singleQuote raw := by
  obtain ⟨q, ps, hq, -, htext⟩ := Literal.spells_iff_fits.1 h
  rw [spelling, htext, Literal.enclosed]
  exact if_pos hq

/-- Only string literals begin with a quote. -/
theorem spelling_of_ne_string {l : Lexeme} (h : l.Spells raw.toList) (hl : l ≠ .string) :
    cfg.spelling raw = raw := by
  obtain ⟨c, rest, htext, hstart⟩ := h.starts
  have hq : Literal.isQuote c = false := by
    rw [Bool.eq_false_iff]
    intro hq
    have hs : c ≠ '/' := by
      rintro rfl
      exact absurd hq (by decide)
    rw [Lexeme.starting, if_neg fun h => hs h.1, if_pos hq] at hstart
    exact hl (Option.some_inj.1 hstart).symm
  rw [spelling, htext]
  exact if_neg (by simp [hq])

/-- Literals and keys stay tokens of their kinds. -/
theorem spelling_spells {k : Kind} (h : k.Spells raw) : k.Spells (cfg.spelling raw) := by
  obtain ⟨l, hl, rfl⟩ := Kind.spells_iff.1 h
  by_cases hs : l = .string
  · subst hs
    rw [spelling_of_string hl]
    exact Kind.spells_iff.2 ⟨.string, Literal.preferred_spells hl, by simp only [Lexeme.kind]⟩
  · rwa [spelling_of_ne_string hl hs]

theorem spelling_anySpells (h : Kind.AnySpells kinds raw) :
    Kind.AnySpells kinds (cfg.spelling raw) := by
  obtain ⟨k, hk, hs⟩ := h
  exact ⟨k, hk, spelling_spells hs⟩

/-- The last spelling is the one that counts. -/
theorem spelling_spelling (h : Kind.AnySpells kinds raw) :
    cfg.spelling (cfg'.spelling raw) = cfg.spelling raw := by
  obtain ⟨k, -, hs⟩ := h
  obtain ⟨l, hl, -⟩ := Kind.spells_iff.1 hs
  by_cases hls : l = .string
  · subst hls
    rw [spelling_of_string hl, spelling_of_string hl,
      spelling_of_string (Literal.preferred_spells hl), Literal.preferred_preferred hl]
  · have hne : cfg'.spelling raw = raw := spelling_of_ne_string hl hls
    rw [hne]

end StyleDecl.LayoutConfig
