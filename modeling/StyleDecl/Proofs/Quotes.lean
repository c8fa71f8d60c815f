import Mathlib.Order.Bounds.Defs
import StyleDecl.Proofs.Literal

/-!
# Quotes of literals

What a literal denotes and which of its quotes are escaped is read off the characters between
its quotes, a backslash together with the character after it. A literal between given quotes
has to escape every quote of this kind that it denotes, and need not escape anything else. So
the number of escapes that a choice of quotes costs is the number of these quotes, and the
preferred form makes the cheaper choice.

* `Literal.denoted`: what a literal denotes;
* `Literal.escapedQuotes`: the quotes that a literal escapes;
* `Literal.isLeast_escapeCounts`: how many escapes are needed between given quotes;
* `Literal.preferred_quotes`: the preferred form of a literal denotes the same, and escapes
  as few quotes as can be.
-/

namespace StyleDecl.Literal

variable {q : Char} {ps : List Piece} {cs : List Char} {raw : String} {p : Piece} {single : Bool}

/-! ### Escaped and bare quotes -/

/-- The characters `cs` with the escaped quotes taken for the quotes themselves. Every other
    escape stays as it is. -/
def unescapeQuotes : List Char → List Char
  | [] => []
  | [c] => [c]
  | c :: d :: rest =>
    if c = '\\' then
      if isQuote d then d :: unescapeQuotes rest else c :: d :: unescapeQuotes rest
    else c :: unescapeQuotes (d :: rest)

/-- The quotes that are escaped in the characters `cs`. -/
def quoteEscapes : List Char → List Char
  | [] => []
  | [_] => []
  | c :: d :: rest =>
    if c = '\\' then
      if isQuote d then d :: quoteEscapes rest else quoteEscapes rest
    else quoteEscapes (d :: rest)

/-- The characters of a literal between its quotes. -/
def between (raw : String) : List Char := (raw.toList.drop 1).dropLast

/-- What a literal denotes. -/
def denoted (raw : String) : List Char := unescapeQuotes (between raw)

/-- The quotes that a literal escapes. -/
def escapedQuotes (raw : String) : List Char := quoteEscapes (between raw)

/-- The quote that a literal begins with. -/
def delimiter? (raw : String) : Option Char := raw.toList.head?

/-- The quote of a preference. -/
def quoteFor (single : Bool) : Char := if single then '\'' else '"'

/-- How many quotes are escaped in the literals between quotes `q` that denote what `raw`
    denotes. -/
def escapeCounts (q : Char) (raw : String) : Set Nat :=
  {n | ∃ alt, Kind.string.Spells alt ∧ delimiter? alt = some q ∧ denoted alt = denoted raw ∧
    (escapedQuotes alt).length = n}

/-! ### Quotes and pieces -/

/-- The quote that a piece escapes. -/
def Piece.escapedQuote? : Piece → Option Char
  | .plain _ => none
  | .escape c => if isQuote c then some c else none

theorem unescapeQuotes_eq (cs : List Char) :
    unescapeQuotes cs = ((pieces cs).map Piece.bare).flatMap Piece.text := by
  fun_induction unescapeQuotes cs with
  | case1 => rfl
  | case2 => rfl
  | case3 d rest hd ih =>
    rw [pieces, if_pos rfl, List.map_cons, List.flatMap_cons, Piece.bare, if_pos hd, ih]
    rfl
  | case4 d rest hd ih =>
    rw [pieces, if_pos rfl, List.map_cons, List.flatMap_cons, Piece.bare, if_neg hd, ih]
    rfl
  | case5 c d rest hc ih =>
    rw [pieces, if_neg hc, List.map_cons, List.flatMap_cons, ih]
    rfl

theorem quoteEscapes_eq (cs : List Char) :
    quoteEscapes cs = (pieces cs).filterMap Piece.escapedQuote? := by
  fun_induction quoteEscapes cs with
  | case1 => rfl
  | case2 => rfl
  | case3 d rest hd ih =>
    rw [pieces, if_pos rfl, List.filterMap_cons_some (by rw [Piece.escapedQuote?, if_pos hd]), ih]
  | case4 d rest hd ih =>
    rw [pieces, if_pos rfl, List.filterMap_cons_none (by rw [Piece.escapedQuote?, if_neg hd]), ih]
  | case5 c d rest hc ih => rw [pieces, if_neg hc, List.filterMap_cons_none rfl, ih]

theorem denoted_eq (raw : String) : denoted raw = (body raw.toList).flatMap Piece.text :=
  unescapeQuotes_eq _

/-- What a literal denotes depends on its body only. -/
theorem denoted_preferred (h : Lexeme.string.Spells raw.toList) :
    denoted (preferred single raw) = denoted raw := by
  rw [denoted_eq, body_preferred h, ← denoted_eq]

theorem between_enclosed (h : raw.toList = enclosed q ps) :
    between raw = ps.flatMap Piece.text := by
  rw [between, h, enclosed, List.drop_one, List.tail_cons, List.dropLast_concat]

theorem delimiter?_enclosed (h : raw.toList = enclosed q ps) : delimiter? raw = some q := by
  rw [delimiter?, h]
  rfl

theorem escapedQuotes_enclosed (h : raw.toList = enclosed q ps) (hps : ∀ p ∈ ps, p.Fits q) :
    escapedQuotes raw = ps.filterMap Piece.escapedQuote? := by
  rw [escapedQuotes, between_enclosed h, quoteEscapes_eq, pieces_text hps]

/-! ### Counting quotes -/

/-- Of bare pieces, only a quote that stands for itself is written with one. -/
theorem count_text (hq : isQuote q) (h : ∀ p ∈ ps, p.IsBare) :
    (ps.flatMap Piece.text).count q = ps.count (.plain q) := by
  induction ps with
  | nil => rfl
  | cons p ps ih =>
    rw [List.forall_mem_cons] at h
    rw [List.flatMap_cons, List.count_append, ih h.2, List.count_cons, Nat.add_comm]
    congr 1
    cases p with
    | plain c => simp [Piece.text, List.count_singleton]
    | escape c =>
      have hc : c ≠ q := by
        rintro rfl
        exact absurd hq (Bool.eq_false_iff.1 h.1)
      simp [Piece.text, hc, isQuote_ne_backslash hq]

/-- Between quotes `q`, each quote `q` that is denoted is escaped. -/
theorem count_bare_le (h : ∀ p ∈ ps, p.Fits q) :
    (ps.map Piece.bare).count (.plain q) ≤ (ps.filterMap Piece.escapedQuote?).length := by
  induction ps with
  | nil => exact Nat.le_refl 0
  | cons p ps ih =>
    rw [List.forall_mem_cons] at h
    have hle := ih h.2
    rw [List.map_cons, List.count_cons, List.filterMap_cons]
    cases p with
    | plain c =>
      have hc : c ≠ q := h.1.1
      simpa [Piece.bare, Piece.escapedQuote?, hc] using hle
    | escape c =>
      by_cases hc : isQuote c
      · simp only [Piece.bare, Piece.escapedQuote?, hc, if_true, List.length_cons]
        split <;> omega
      · simpa [Piece.bare, Piece.escapedQuote?, hc] using hle

/-- Bare pieces between quotes `q` escape these quotes, and no others. -/
theorem escapedQuotes_within (hq : isQuote q) (h : ∀ p ∈ ps, p.IsBare) :
    (ps.map (Piece.within q)).filterMap Piece.escapedQuote? =
      List.replicate (ps.count (.plain q)) q := by
  induction ps with
  | nil => rfl
  | cons p ps ih =>
    rw [List.forall_mem_cons] at h
    rw [List.map_cons, List.filterMap_cons, ih h.2, List.count_cons]
    by_cases hp : p = .plain q
    · simp [hp, Piece.within, Piece.escapedQuote?, hq, List.replicate_succ]
    · have hnone : (p.within q).escapedQuote? = none := by
        rw [Piece.within, if_neg hp]
        cases p with
        | plain c => rfl
        | escape c => exact if_neg (Bool.eq_false_iff.1 h.1)
      simp [hnone, hp]

theorem count_denoted (hq : isQuote q) (h : Lexeme.string.Spells raw.toList) :
    (denoted raw).count q = (body raw.toList).count (.plain q) := by
  rw [denoted_eq, count_text hq (isBare_body h)]

/-! ### The fewest escapes -/

/-- Between quotes `q`, the quotes `q` that are denoted have to be escaped, and no others. -/
theorem isLeast_escapeCounts (hq : isQuote q) (h : Kind.string.Spells raw) :
    IsLeast (escapeCounts q raw) ((denoted raw).count q) := by
  replace h := Kind.string_spells_iff.1 h
  have hbare := isBare_body h
  constructor
  · have htext : (String.ofList (written q (body raw.toList))).toList =
        enclosed q ((body raw.toList).map (Piece.within q)) := by
      rw [String.toList_ofList, written_eq_enclosed]
    have hfits := fits_within (q := q) hbare
    refine ⟨String.ofList (written q (body raw.toList)), ?_, delimiter?_enclosed htext, ?_, ?_⟩
    · exact Kind.string_spells_iff.2 (spells_iff_fits.2 ⟨q, _, hq, hfits, htext⟩)
    · rw [denoted_eq, String.toList_ofList, body_written hq hbare, ← denoted_eq]
    · rw [escapedQuotes_enclosed htext hfits, escapedQuotes_within hq hbare, List.length_replicate,
        count_denoted hq h]
  · rintro n ⟨alt, halt, hdelimiter, hdenoted, rfl⟩
    replace halt := Kind.string_spells_iff.1 halt
    obtain ⟨q', ps, -, hps, htext⟩ := spells_iff_fits.1 halt
    obtain rfl : q' = q := Option.some_inj.1 ((delimiter?_enclosed htext).symm.trans hdelimiter)
    rw [← hdenoted, count_denoted hq halt, htext, body_enclosed hps,
      escapedQuotes_enclosed htext hps]
    exact count_bare_le hps

theorem isQuote_quoteFor (single : Bool) : isQuote (quoteFor single) := by
  cases single <;> rfl

/-- The preferred quotes are given up only for fewer escapes. -/
theorem chosenQuote_eq (single : Bool) (ps : List Piece) :
    chosenQuote single ps = quoteFor
      (if ps.count (.plain (quoteFor !single)) < ps.count (.plain (quoteFor single)) then !single
      else single) := by
  cases single with
  | false =>
    simp only [chosenQuote, quoteFor, Bool.not_false, if_true, Bool.false_eq_true, if_false]
    split <;> rfl
  | true =>
    simp only [chosenQuote, quoteFor, Bool.not_true, if_true, Bool.false_eq_true, if_false]
    split <;> rfl

/-- The preferred form of a literal is a literal and denotes the same. It escapes no quote but
    its own, its quotes are the preferred ones unless these need strictly more escapes than the
    others, and the last preference is the one that counts. -/
theorem preferred_quotes (h : Kind.string.Spells raw) (single : Bool) :
    Kind.string.Spells (preferred single raw) ∧ denoted (preferred single raw) = denoted raw ∧
      (∀ c ∈ escapedQuotes (preferred single raw), delimiter? (preferred single raw) = some c) ∧
      (∃ m n, IsLeast (escapeCounts (quoteFor single) raw) m ∧
        IsLeast (escapeCounts (quoteFor !single) raw) n ∧
        delimiter? (preferred single raw) = some (quoteFor (if n < m then !single else single))) ∧
      ∀ single', preferred single (preferred single' raw) = preferred single raw := by
  have hl := Kind.string_spells_iff.1 h
  have hq := isQuote_chosenQuote single (body raw.toList)
  have hbare := isBare_body hl
  have htext : (preferred single raw).toList = enclosed (chosenQuote single (body raw.toList))
      ((body raw.toList).map (Piece.within (chosenQuote single (body raw.toList)))) := by
    rw [toList_preferred, written_eq_enclosed]
  refine ⟨Kind.string_spells_iff.2 (preferred_spells hl), denoted_preferred hl, fun c hc => ?_, ?_,
    fun single' => preferred_preferred hl⟩
  · rw [escapedQuotes_enclosed htext (fits_within hbare), escapedQuotes_within hq hbare] at hc
    rw [delimiter?_enclosed htext, List.eq_of_mem_replicate hc]
  · refine ⟨_, _, isLeast_escapeCounts (isQuote_quoteFor _) h,
      isLeast_escapeCounts (isQuote_quoteFor _) h, ?_⟩
    rw [delimiter?_enclosed htext, chosenQuote_eq, count_denoted (isQuote_quoteFor _) hl,
      count_denoted (isQuote_quoteFor _) hl]

/-- An escaped backslash before an escaped quote: only the quote can do without its escape. -/
theorem preferred_quotes_backslashes :
    Kind.string.Spells "'\\\\\\''" ∧ Kind.string.Spells "\"\\\\'\"" ∧
      denoted "\"\\\\'\"" = denoted "'\\\\\\''" := by
  have h : Kind.string.Spells "'\\\\\\''" := by
    refine Kind.string_spells_iff.2 (spells_iff_fits.2 ?_)
    refine ⟨'\'', [.escape '\\', .escape '\''], rfl, ?_, rfl⟩
    simp [Piece.Fits]
  have heq : preferred false "'\\\\\\''" = "\"\\\\'\"" := by decide
  obtain ⟨hspells, hdenoted, -⟩ := preferred_quotes h false
  rw [heq] at hspells hdenoted
  exact ⟨h, hspells, hdenoted⟩

end StyleDecl.Literal
