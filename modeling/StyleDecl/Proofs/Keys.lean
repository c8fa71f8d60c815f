import StyleDecl.Proofs.Denoted
import StyleDecl.Proofs.Grammar.Complete.Statements

/-!
# Emitted keys and values

A value in quotes and a key say where they end, whatever text comes after them: a literal is
closed by its quote, and a key that is not quoted is a word. Both also say what they were made
from. A value has one piece for each of its characters, and the characters are got back from
the pieces; a key stands for the code units of its name, with any quotes around it.

* `Literal.unquote`: undoing the escapes of a value in quotes;
* `Word.name`: the name that a key stands for;
* `Reader.TakesKey`: what it is to be the key of a member;
* `Literal.emitted_faithful`: values and keys are read back, and different names have
  different keys.
-/

namespace StyleDecl

/-! ### Code units of strings -/

namespace Literal

variable {c d : Char} {cs ds : List Char} {us vs : List Nat}

/-- The code units of a string. -/
def textUnits (text : String) : List Nat := text.toList.flatMap fun c => codeUnits c.toNat

/-- The first character can be told from the code units: none of them is a surrogate alone. -/
theorem codeUnits_append_inj (h : codeUnits c.toNat ++ us = codeUnits d.toNat ++ vs) :
    c = d ∧ us = vs := by
  have hc : c.toNat < 0xD800 ∨ 0xDFFF < c.toNat ∧ c.toNat < 0x110000 := c.valid
  have hd : d.toNat < 0xD800 ∨ 0xDFFF < d.toNat ∧ d.toNat < 0x110000 := d.valid
  suffices hn : c.toNat = d.toNat ∧ us = vs from ⟨Char.toNat_inj.1 hn.1, hn.2⟩
  rw [codeUnits, codeUnits] at h
  split at h
  · split at h
    · exact List.cons.inj h
    · have hunit := (List.cons.inj h).1
      omega
  · split at h
    · have hunit := (List.cons.inj h).1
      omega
    · obtain ⟨hhigh, hrest⟩ := List.cons.inj h
      obtain ⟨hlow, htail⟩ := List.cons.inj hrest
      exact ⟨by omega, htail⟩

theorem codeUnits_ne_nil (n : Nat) : codeUnits n ≠ [] := by
  rw [codeUnits]
  split <;> exact List.cons_ne_nil _ _

theorem flatMap_codeUnits_inj
    (h : (cs.flatMap fun c => codeUnits c.toNat) = ds.flatMap fun c => codeUnits c.toNat) :
    cs = ds := by
  induction cs generalizing ds with
  | nil =>
    cases ds with
    | nil => rfl
    | cons d ds =>
      rw [List.flatMap_nil, List.flatMap_cons] at h
      exact absurd (List.append_eq_nil_iff.1 h.symm).1 (codeUnits_ne_nil _)
  | cons c cs ih =>
    cases ds with
    | nil =>
      rw [List.flatMap_nil, List.flatMap_cons] at h
      exact absurd (List.append_eq_nil_iff.1 h).1 (codeUnits_ne_nil _)
    | cons d ds =>
      rw [List.flatMap_cons, List.flatMap_cons] at h
      obtain ⟨rfl, htail⟩ := codeUnits_append_inj h
      rw [ih htail]

/-- A string can be told from its code units. -/
theorem textUnits_inj {s t : String} (h : textUnits s = textUnits t) : s = t :=
  String.toList_inj.1 (flatMap_codeUnits_inj h)

/-! ### Values in quotes -/

/-- The character that a piece of a value in quotes is for. -/
def Piece.meant : Piece → Char
  | .plain c => c
  | .escape c => if c = 'n' then '\n' else if c = 'r' then '\r' else c

/-- The value in quotes `raw`, its escapes undone. -/
def unquote (raw : String) : String :=
  String.ofList ((pieces (raw.toList.drop 1).dropLast).map Piece.meant)

theorem meant_piece (c : Char) : (piece c).meant = c := by
  rw [piece]
  split
  · next h => rcases h with rfl | rfl <;> rfl
  · split
    · next hc => exact hc.symm
    · split
      · next hc => exact hc.symm
      · rfl

theorem units_map_piece (cs : List Char) :
    units 0 (cs.map piece) = cs.flatMap fun c => codeUnits c.toNat := by
  induction cs with
  | nil => rfl
  | cons c cs ih =>
    rw [List.map_cons, List.flatMap_cons, ← ih, piece]
    split
    · next h => rcases h with rfl | rfl <;> rfl
    · split
      · next hc => rw [hc]; rfl
      · split
        · next hc => rw [hc]; rfl
        · rfl

theorem pieces_quote (v : String) :
    pieces ((quote v).toList.drop 1).dropLast = v.toList.map piece := by
  rw [toList_quote, enclosed, List.drop_one, List.tail_cons, List.dropLast_concat,
    pieces_text fits_of_mem_pieces]

/-- Undoing the escapes gives the value back. -/
theorem unquote_quote (v : String) : unquote (quote v) = v := by
  have hmeant : Piece.meant ∘ piece = id := funext meant_piece
  rw [unquote, pieces_quote, List.map_map, hmeant, List.map_id, String.ofList_toList]

/-- A value in quotes stands for the value. -/
theorem value_quote (v : String) : value (quote v) = textUnits v := by
  rw [value, pieces_quote, units_map_piece, textUnits]

theorem newline_not_mem_text (c : Char) : '\n' ∉ (piece c).text := by
  rw [piece]
  split
  · next hc => rcases hc with rfl | rfl <;> decide
  · split
    · decide
    · next hn =>
      split
      · decide
      · rw [Piece.text, List.mem_singleton]
        exact fun hc => hn hc.symm

/-- A value in quotes stays on its line. -/
theorem newline_not_mem_quote (v : String) : '\n' ∉ (quote v).toList := by
  rw [toList_quote, enclosed, List.mem_cons, List.mem_append, List.mem_flatMap]
  rintro (h | ⟨p, hp, h⟩ | h)
  · cases h
  · obtain ⟨c, -, rfl⟩ := List.mem_map.1 hp
    exact newline_not_mem_text c h
  · simp at h

/-- A value in quotes is read up to its closing quote, whatever comes after it. -/
theorem step_quote (v : String) (rest : List Char) (p : Position) :
    Cursor.step ⟨(quote v).toList ++ rest, p⟩ =
      .token ⟨.string, quote v, p.line, p.column, p.line⟩ ⟨rest, p.after (quote v).toList⟩ := by
  have hspells := Kind.string_spells_iff.1 (quote_spells v)
  rw [Cursor.step_lexeme hspells trivial, Cursor.token, hspells.keeps, String.ofList_toList]
  rfl

end Literal

/-! ### Names -/

/-- The code units of the name that a word stands for where it is a key. -/
def Word.name : Word → List Nat
  | .itself text => Literal.textUnits text
  | .units value => value

namespace Literal

theorem isQuote_of_isNameStart {c : Char} (h : isNameStart c) : isQuote c = false := by
  rw [Bool.eq_false_iff]
  intro hq
  obtain rfl | rfl := eq_of_isQuote hq <;> exact absurd h (by decide)

theorem ofText_of_isName {name : String} (h : isName name) : Word.ofText name = .itself name := by
  rw [isName] at h
  split at h
  · cases h
  · next c rest hname =>
    rw [Bool.and_eq_true] at h
    rw [Word.ofText, hname]
    exact if_neg (by simp [isQuote_of_isNameStart h.1])

/-- A key stands for the name that it was made from. -/
theorem name_key (k : String) : (Word.ofText (key k)).name = textUnits k := by
  rw [key]
  split
  · next h => rw [ofText_of_isName h, Word.name]
  · rw [Word.ofText_of_string (Kind.string_spells_iff.1 (quote_spells k)), Word.name, value_quote]

theorem name_spelling_key (cfg : LayoutConfig) (k : String) :
    (Word.ofText (cfg.spelling (key k))).name = textUnits k := by
  rw [Word.ofText_spelling (key_spells k), name_key]

end Literal

/-! ### Keys of members -/

namespace Reader

open Grammar

/-- The token `t` is taken for the key of a member: of a property before a colon, and of a
    method before a parenthesis. -/
structure TakesKey (t : Token) : Prop where
  /-- Behind the colon, the type of the property is all that is left to read. -/
  property : ∀ (type : Reader TypeExpr) ⦃s m : Stream⦄ ⦃r q : List Item⦄ ⦃k c : Item⦄
    ⦃readonly optional : Bool⦄, Maybe (.keyword .readonly) r readonly → k.token = t →
    Maybe (.punct .question) q optional → c.token.kind = .punct .colon →
    s.Passes (r ++ k :: q ++ [c]) m →
    member type s = (do return Member.property t.text (← type) readonly optional) m
  /-- Behind the key, the signature of the method is all that is left to read. -/
  method : ∀ (type : Reader TypeExpr) ⦃s m : Stream⦄ ⦃q : List Item⦄ ⦃k : Item⦄
    ⦃optional : Bool⦄, k.token = t → Maybe (.punct .question) q optional →
    s.Passes (k :: q) m → (m.ahead 0).kind = .punct .openParen →
    member type s = (do
      let ps ← parameters type
      let _ ← expect [.punct .colon]
      return Member.method t.text ps (← type) optional) m

theorem takesKey_of_mem {t : Token} (h : t.kind ∈ Kind.keys) : TakesKey t where
  property _ _ _ _ _ _ _ _ _ hr hk hq hc hp := by
    subst hk
    exact member_of_property hr h hq hc hp
  method _ _ _ _ _ _ hk hq hp hm := by
    subst hk
    exact member_of_method h hq hp hm

end Reader

namespace Literal

/-- A key is read up to its end where no word goes on. -/
theorem step_key (k : String) {rest : List Char} (p : Position)
    (hr : Reading.Stops Reading.isWordPart rest) :
    ∃ t, Cursor.step ⟨(key k).toList ++ rest, p⟩ = .token t ⟨rest, p.after (key k).toList⟩ ∧
      t.text = key k ∧ t.kind ∈ Kind.keys := by
  rw [key]
  split
  · next h =>
    have hspells := word_spells_of_isName h
    refine ⟨_, Cursor.step_lexeme hspells hr, ?_, kind_word_mem _⟩
    rw [Cursor.token, hspells.keeps, String.ofList_toList]
  · exact ⟨_, step_quote k rest p, rfl, List.mem_append_right _ (List.mem_cons_self ..)⟩

/-- A value in quotes is one token on one line, whatever comes after it, and it is got back by
    undoing the escapes. A key is one token where no word goes on; it is taken for the key of a
    member, and it stands for its name. So different names have different keys, whatever quotes
    these are laid out with. -/
theorem emitted_faithful :
    (∀ (v : String) (rest : List Char) (p : Position),
      Cursor.step ⟨(quote v).toList ++ rest, p⟩ =
          .token ⟨.string, quote v, p.line, p.column, p.line⟩ ⟨rest, p.after (quote v).toList⟩ ∧
        '\n' ∉ (quote v).toList ∧ unquote (quote v) = v ∧ value (quote v) = textUnits v) ∧
    (∀ (k : String) (rest : List Char) (p : Position), Reading.Stops Reading.isWordPart rest →
      ∃ t, Cursor.step ⟨(key k).toList ++ rest, p⟩ = .token t ⟨rest, p.after (key k).toList⟩ ∧
        t.text = key k ∧ Reader.TakesKey t ∧ (Word.ofText t.text).name = textUnits k) ∧
    ∀ (cfg cfg' : LayoutConfig) (k k' : String), k ≠ k' →
      (Word.ofText (cfg.spelling (key k))).name ≠ (Word.ofText (cfg'.spelling (key k'))).name := by
  refine ⟨fun v rest p => ?_, fun k rest p hr => ?_, fun cfg cfg' k k' hne heq => ?_⟩
  · exact ⟨step_quote v rest p, newline_not_mem_quote v, unquote_quote v, value_quote v⟩
  · obtain ⟨t, hstep, htext, hkind⟩ := step_key k p hr
    exact ⟨t, hstep, htext, Reader.takesKey_of_mem hkind, by rw [htext, name_key]⟩
  · rw [name_spelling_key, name_spelling_key] at heq
    exact hne (textUnits_inj heq)

/-- A name that is a keyword is a key as it is, and a name with a quote in it is not. -/
theorem emitted_faithful_readonly :
    Reading.Stops Reading.isWordPart [':'] ∧ key "readonly" = "readonly" ∧
      (∃ t, Cursor.step ⟨"readonly:".toList, .start⟩ = .token t ⟨[':'], ⟨8, 1, 9⟩⟩ ∧
        t.text = "readonly" ∧ Reader.TakesKey t) ∧
      (Word.ofText "\"it's\"").name ≠ (Word.ofText "'it\\\\\\'s'").name := by
  obtain ⟨-, hkey, hnames⟩ := emitted_faithful
  have hstops : Reading.Stops Reading.isWordPart [':'] := Reading.stops_cons_iff.2 (by decide)
  refine ⟨hstops, by decide, ?_, ?_⟩
  · obtain ⟨t, hstep, htext, htakes, -⟩ := hkey "readonly" [':'] .start hstops
    exact ⟨t, hstep, htext, htakes⟩
  · exact hnames ⟨2, false⟩ ⟨2, true⟩ "it's" "it\\'s" (by decide)

end Literal

end StyleDecl
