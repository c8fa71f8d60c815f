import StyleDecl.Proofs.CarriageReturns.Lexemes
import StyleDecl.Proofs.RoundTrip

/-!
# Formatting texts with carriage returns

A text whose lines end with a carriage return and a line feed has the same canonical form as the
text with line feeds alone (`format_crlf`): carriage returns are white space, they are trimmed off
line comments, and lines of block comments are trimmed as they are laid out.

Not so within a literal that goes on in the next line. The text is rejected at the first of these.

* `Cuts.finds_crlf`: what lexemes are found between places that stand for each other;
* `Token.scan_crlf`, `Token.scan_crlf_continued`: the two ways that scanning ends.
-/

namespace StyleDecl

/-! ### Scanning -/

section

variable {before rest before' rest' bf rf : List Char} {ts us : List Token} {t : Token}
  {source : String}

/-- The token is a literal that goes on in the next line. -/
def Token.Continued (t : Token) : Prop := t.kind = .string ∧ '\n' ∈ t.text.toList

theorem Lexeme.kind_eq_string_iff {l : Lexeme} {cs : List Char} :
    l.kind cs = .string ↔ l = .string := by
  cases l with
  | string => exact iff_of_true rfl rfl
  | word =>
    rw [kind]
    split <;> simp
  | _ => simp [kind]

theorem Lexeme.continued_tokenBehind_iff {l : Lexeme} {before cs : List Char} :
    (l.tokenBehind before cs).Continued ↔ l = string ∧ '\n' ∈ cs := by
  refine (and_congr_left' kind_eq_string_iff).trans (and_congr_right fun hl => ?_)
  rw [hl, tokenBehind, String.toList_ofList, text]
  rintro ⟨⟩

/-- What is cut off a text is found in the text with carriage returns, up to the layout of comments
    and as long as no literal goes on in the next line. -/
theorem Cuts.finds_crlf (h : Cuts before rest ts bf rf) (hts : ∀ t ∈ ts, ¬t.Continued)
    (ha : Abreast before rest before' rest') : ∃ us bf' rf',
      Cursor.Finds ⟨rest', Position.start.after before'⟩ us ⟨rf', Position.start.after bf'⟩ ∧
      List.Forall₂ (Token.Redrawn 0) ts us ∧ Abreast bf rf bf' rf' := by
  induction h generalizing before' rest' with
  | nil => exact ⟨[], before', rest', .refl _, .nil, ha⟩
  | @cons before blanks cs rest bf rf l t ts hblanks hl ht _ ih =>
    obtain rfl := (hl.forms.makes_iff _).1 ht
    rw [List.forall_mem_cons, Lexeme.continued_tokenBehind_iff, not_and] at hts
    have hgap := ha.finds_blanks hblanks hl.head?_ne
    obtain ⟨cs', rest₁, htext, habreast, hforms, hstops, hredrawn⟩ :=
      hl.crlf hts.1 (before ++ blanks)
    obtain ⟨us, bf', rf', hfinds, hus, hend⟩ := ih hts.2 habreast
    rw [htext] at hgap
    exact ⟨_, bf', rf', (hgap.trans (Cursor.finds_of_step (hforms.step hstops _))).trans hfinds,
      .cons hredrawn hus, hend⟩

/-- The text with a carriage return before each line feed. -/
def crlf (source : String) : String := String.ofList (Text.crlf source.toList)

theorem Cursor.start_crlf (source : String) :
    start (crlf source) = ⟨Text.crlf source.toList, Position.start.after (Text.crlf [])⟩ := by
  rw [start, crlf, String.toList_ofList]
  rfl

/-- A text without literals over two lines has the same tokens with carriage returns, up to the
    layout of comments. -/
theorem Token.scan_crlf (h : Token.scan source = .ok ts) (hts : ∀ t ∈ ts, ¬t.Continued) :
    ∃ us, Token.scan (crlf source) = .ok us ∧ List.Forall₂ (Token.Redrawn 0) ts us := by
  obtain ⟨ts, before, blanks, hcuts, hblanks, hscan⟩ | ⟨_, _, _, _, _, _, _, _, _, hscan⟩ :=
    Token.exists_cuts source
  · rw [h] at hscan
    obtain rfl := Except.ok.inj hscan
    obtain ⟨us, before', rest', hfinds, hus, habreast⟩ :=
      hcuts.finds_crlf (List.forall_mem_append.1 hts).1 (.same [] source.toList)
    -- Nothing but white space is left in the text with carriage returns.
    rw [← List.append_nil blanks] at habreast
    have hgap := habreast.finds_blanks hblanks nofun
    rw [← Cursor.start_crlf] at hfinds
    refine ⟨us ++ [] ++ [Token.closingOf (Text.crlf source.toList)], ?_, ?_⟩
    · rw [Token.scan_of_finds (hfinds.trans hgap), Cursor.eof_start, ← hcuts.text]
      rfl
    · rw [List.append_nil]
      have hline := lineBehind_crlf source.toList
      exact List.rel_append hus (.cons ⟨rfl, fun _ => rfl, rfl, hline, hline⟩ .nil)
  · rw [h] at hscan
    cases hscan

/-- A text is rejected with carriage returns at its first literal over two lines. -/
theorem Token.scan_crlf_continued (h : Token.scan source = .ok (ts ++ t :: us))
    (hts : ∀ t ∈ ts, ¬t.Continued) (ht : t.Continued) :
    Token.scan (crlf source) = .error ⟨.unterminatedString, t.line, t.column⟩ := by
  obtain ⟨vs, before, blanks, hcuts, -, hscan⟩ | ⟨_, _, _, _, _, _, _, _, _, hscan⟩ :=
    Token.exists_cuts source
  · rw [h] at hscan
    have heq := Except.ok.inj hscan
    -- The literal is not the token that closes the text, so it was cut off.
    obtain rfl | ⟨us, e, rfl⟩ := List.eq_nil_or_concat' us
    · rw [List.singleton_inj.1 (List.append_inj' heq rfl).2] at ht
      cases ht.1
    rw [← List.cons_append, ← List.append_assoc] at heq
    obtain ⟨rfl, -⟩ := List.append_inj' heq rfl
    obtain ⟨l, before, blanks, cs, rest, hfront, hblanks, hl, rfl⟩ := hcuts.exists_of_append
    obtain ⟨rfl, hn⟩ := Lexeme.continued_tokenBehind_iff.1 ht
    obtain ⟨ts', before', rest', hfinds, -, habreast⟩ :=
      hfront.finds_crlf hts (.same [] source.toList)
    have hgap := habreast.finds_blanks hblanks hl.head?_ne
    rw [← Cursor.start_crlf] at hfinds
    obtain ⟨next, hstep⟩ := hl.step_crlf hn (Position.start.after (Text.crlf (before ++ blanks)))
    rw [Token.scan, hfinds.trans hgap, Cursor.scan_of_rejected hstep]
    simp only [Position.after_start, lineBehind_crlf, columnBehind_crlf]
    rfl
  · rw [h] at hscan
    cases hscan

end

/-! ### Formatting -/

variable {cfg : LayoutConfig} {source text : String}

/-- A text is formatted alike with carriage returns, unless there is a literal in it that goes on in
    the next line. Then the text with carriage returns is rejected at the first of these. -/
theorem format_crlf (h : format cfg source = .ok text) : ∃ ts, Token.scan source = .ok ts ∧
    ((∀ t ∈ ts, ¬t.Continued) → format cfg (crlf source) = .ok text) ∧
    ∀ before t after, ts = before ++ t :: after → (∀ u ∈ before, ¬u.Continued) → t.Continued →
      format cfg (crlf source) = .error ⟨.unterminatedString, t.line, t.column⟩ := by
  obtain ⟨file, hfile, rfl⟩ := format_eq_ok_iff_text.1 h
  obtain ⟨ts, e, hscan, -, -, hd, -⟩ := DeclFile.derives_of_ofText? hfile
  refine ⟨ts ++ [e], hscan, fun hts => ?_, fun before t after heq hbefore ht => ?_⟩
  · obtain ⟨us, hus, hredrawn⟩ := Token.scan_crlf hscan hts
    obtain ⟨ss, hss, hcanonical⟩ := hd.redrawn (Item.redrawn_group hredrawn)
    have hread : DeclFile.ofText? (crlf source) = .ok ⟨ss⟩ := by
      rw [DeclFile.ofText?, hus]
      exact hss.ofTokens?
    have htext := DeclFile.text_congr (DeclFile.wellFormed_of_ofText? hfile)
      (DeclFile.wellFormed_of_ofText? hread) (hcanonical cfg)
    exact format_eq_ok_iff_text.2 ⟨_, hread, htext⟩
  · rw [heq] at hscan
    rw [format, DeclFile.ofText?, Token.scan_crlf_continued hscan hbefore ht]
    rfl

/-- A text with a comment, and one with a literal over two lines. -/
theorem format_crlf_literal :
    format {} (crlf "// a\ntype B = c") = .ok "// a\ntype B = c;\n" ∧
      format {} (crlf "type A = \"a\\\nb\"") = .error ⟨.unterminatedString, 1, 10⟩ := by
  have hcomment : format {} "// a\ntype B = c" = .ok "// a\ntype B = c;\n" :=
    eq_ok_of_toOption (by decide +kernel)
  have hliteral : format {} "type A = \"a\\\nb\"" = .ok "type A = \"a\\\nb\";\n" :=
    eq_ok_of_toOption (by decide +kernel)
  constructor
  · obtain ⟨ts, hts, hplain, -⟩ := format_crlf hcomment
    have htokens : Token.scan "// a\ntype B = c" = .ok
        [⟨.comment, "// a", 1, 1, 1⟩, ⟨.keyword .type, "type", 2, 1, 2⟩,
          ⟨.identifier, "B", 2, 6, 2⟩, ⟨.punct .equals, "=", 2, 8, 2⟩,
          ⟨.identifier, "c", 2, 10, 2⟩, ⟨.eof, "", 2, 11, 2⟩] :=
      eq_ok_of_toOption (by decide +kernel)
    rw [htokens] at hts
    refine hplain ?_
    rw [← Except.ok.inj hts]
    simp [Token.Continued]
  · obtain ⟨ts, hts, -, hfirst⟩ := format_crlf hliteral
    have htokens : Token.scan "type A = \"a\\\nb\"" = .ok
        [⟨.keyword .type, "type", 1, 1, 1⟩, ⟨.identifier, "A", 1, 6, 1⟩,
          ⟨.punct .equals, "=", 1, 8, 1⟩, ⟨.string, "\"a\\\nb\"", 1, 10, 1⟩,
          ⟨.eof, "", 2, 3, 2⟩] :=
      eq_ok_of_toOption (by decide +kernel)
    rw [htokens] at hts
    refine hfirst [_, _, _] ⟨.string, _, 1, 10, 1⟩ _ (Except.ok.inj hts).symm ?_ ⟨rfl, by decide⟩
    simp [Token.Continued]

end StyleDecl
