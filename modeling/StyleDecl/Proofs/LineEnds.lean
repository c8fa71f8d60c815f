import StyleDecl.Proofs.Grammar.Neighbors
import StyleDecl.Proofs.Lexical
import StyleDecl.Proofs.Seams
import StyleDecl.Proofs.WellFormed

/-!
# Line ends

The end of a declaration may be left out where a new line begins. For a reader of tokens, a new
line is a token that begins on a later line than the one before it ends; for a reader of the
text, it is a line feed. These are the same (`Token.endLine_lt_iff`), but for literals: a
literal with an escaped line feed is said to end on its first line, so that what comes after it
seems to begin a new line.

* `Token.places_of_scan`: where two tokens of a text stand;
* `Token.LineBreak`: the line feeds that count as the beginning of a new line;
* `DeclFile.ofText?_parted`: where ends are left out, be it in a file or in one of its bodies,
  there are such line feeds.
-/

namespace StyleDecl

/-! ### Line feeds in tokens -/

namespace Token

variable {source : String} {t l n : Token} {ts us vs : List Token}

/-- The place of a token in a text is behind the characters `cs`. -/
def StandsAfter (t : Token) (cs : List Char) : Prop :=
  t.line = (Position.after .start cs).line ∧ t.column = (Position.after .start cs).column

/-- The text between the beginning of the literal `l`, or the end of any other token `l`, and the
    token `n` goes over the end of a line. -/
def LineBreak (source : String) (l n : Token) : Prop :=
  ∃ before between after, source.toList = before ++ l.text.toList ++ between ++ after ∧
    l.StandsAfter before ∧ n.StandsAfter (before ++ l.text.toList ++ between) ∧
    '\n' ∈ if l.kind = .string then l.text.toList ++ between else between

end Token

namespace Cursor

variable {cur : Cursor} {t : Token} {ts us : List Token}

/-- The first token of a scan is read behind blanks. -/
theorem token_of_scan (h : cur.scan.tokens = t :: us) :
    ∃ bs taken, ∃ l : Lexeme, ∃ next : Cursor, cur.rest = bs ++ taken ++ next.rest ∧
      t = token ⟨[], cur.position.after bs⟩ l taken ∧
      next.position = cur.position.after (bs ++ taken) ∧ next.scan.tokens = us := by
  cases hs : cur.step with
  | finished => rw [scan_of_finished hs] at h; cases h
  | rejected => rw [scan_of_rejected hs] at h; cases h
  | token u next =>
    rw [scan_of_token hs] at h
    obtain ⟨rfl, htokens⟩ := List.cons.inj h
    obtain ⟨bs, taken, l, hrest, -, hu, hnext, -⟩ := lexeme_of_step hs
    exact ⟨bs, taken, l, next, by rw [hrest, List.append_assoc], hu,
      by rw [hnext, Position.after_append], htokens⟩

/-- Behind the tokens `ts`, a scan goes on with the tokens after them. -/
theorem split_scan (h : cur.scan.tokens = ts ++ us) :
    ∃ taken, ∃ next : Cursor, cur.rest = taken ++ next.rest ∧
      next.position = cur.position.after taken ∧ next.scan.tokens = us := by
  induction ts generalizing cur with
  | nil => exact ⟨[], cur, rfl, rfl, h⟩
  | cons t ts ih =>
    obtain ⟨bs, cs, -, mid, hrest, -, hmid, htokens⟩ := token_of_scan h
    obtain ⟨ds, next, hrest', hnext, hus⟩ := ih htokens
    refine ⟨bs ++ cs ++ ds, next, by rw [hrest, hrest', ← List.append_assoc], ?_, hus⟩
    rw [hnext, hmid, ← Position.after_append]

end Cursor

namespace Token

variable {source : String} {l n : Token} {ts us vs : List Token}

/-- All tokens of a text but the last come from its scan. -/
theorem exists_tokens_of_scan (h : Token.scan source = .ok (ts ++ n :: vs)) (hn : n.kind ≠ .eof) :
    ∃ vs', (Cursor.start source).scan.tokens = ts ++ n :: vs' := by
  have heq := (Token.scan_eq_ok_iff.1 h).2
  cases vs using List.reverseRecOn with
  | nil => exact absurd (List.head_eq_of_cons_eq (List.append_inj_right' heq rfl) ▸ rfl) hn
  | append_singleton vs v =>
    rw [← List.cons_append, ← List.append_assoc] at heq
    exact ⟨vs, (List.append_inj' heq rfl).1.symm⟩

/-- Where two tokens of a text stand. -/
theorem places_of_scan (h : Token.scan source = .ok (ts ++ l :: us ++ n :: vs))
    (hl : l.kind ≠ .comment) (hn : n.kind ≠ .eof) :
    ∃ before between after, source.toList = before ++ l.text.toList ++ between ++ after ∧
      l.StandsAfter before ∧ n.StandsAfter (before ++ l.text.toList ++ between) ∧
      l.endLine = l.line := by
  obtain ⟨vs, htokens⟩ := exists_tokens_of_scan h hn
  rw [List.append_assoc, List.cons_append] at htokens
  -- The text up to `l`, the blanks before it and `l` itself, and then the same for `n`.
  obtain ⟨cs, mid, hmid, hpmid, hscan⟩ := Cursor.split_scan htokens
  obtain ⟨bs, taken, k, next, hnext, rfl, hpnext, hscan⟩ := Cursor.token_of_scan hscan
  obtain ⟨ds, last, hlast, hplast, hscan⟩ := Cursor.split_scan hscan
  obtain ⟨bs', taken', k', final, hfinal, rfl, -, -⟩ := Cursor.token_of_scan hscan
  have hk : k ≠ .comment := fun hk => hl (by rw [hk]; rfl)
  have htext : (Cursor.token ⟨[], mid.position.after bs⟩ k taken).text.toList = taken := by
    rw [Cursor.token, String.toList_ofList]
    cases k <;> first | rfl | exact absurd rfl hk
  rw [htext]
  refine ⟨cs ++ bs, ds ++ bs', taken' ++ final.rest, ?_, ?_, ?_, if_neg hk⟩
  · rw [show source.toList = _ from hmid, hnext, hlast, hfinal]
    simp
  · rw [hpmid, ← Position.after_append]
    exact ⟨rfl, rfl⟩
  · rw [hplast, hpnext, hpmid, ← Position.after_append, ← Position.after_append,
      ← Position.after_append]
    simp only [List.append_assoc]
    exact ⟨rfl, rfl⟩

/-- Only comments and literals go over line ends. -/
theorem newline_not_mem_of_mem_scan {cur : Cursor} (h : l ∈ cur.scan.tokens)
    (hc : l.kind ≠ .comment) (hs : l.kind ≠ .string) : '\n' ∉ l.text.toList := by
  obtain ⟨k, hk, hkind⟩ := Cursor.spells_of_mem_scan h
  refine hk.forms.newline_not_mem ?_ ?_
  · rintro rfl
    exact hc hkind.symm
  · rintro rfl
    exact hs hkind.symm

/-- Of two tokens of a text, the second begins on a later line than the first ends exactly if the
    text between them, and the first itself if it is a literal, goes over the end of a line. -/
theorem endLine_lt_iff (h : Token.scan source = .ok (ts ++ l :: us ++ n :: vs))
    (hl : l.kind ≠ .comment) (hn : n.kind ≠ .eof) :
    l.endLine < n.line ↔ LineBreak source l n := by
  constructor
  · intro hlt
    obtain ⟨before, between, after, htext, hplace, hplace', hend⟩ := places_of_scan h hl hn
    refine ⟨before, between, after, htext, hplace, hplace', ?_⟩
    have hline : n.line = l.line + (l.text.toList ++ between).count '\n' := by
      rw [hplace'.1, hplace.1, List.append_assoc, Position.after_append, Position.line_after]
    have hmem : '\n' ∈ l.text.toList ++ between := List.count_pos_iff.1 (by omega)
    split
    · exact hmem
    · next hs =>
      obtain ⟨vs, htokens⟩ := exists_tokens_of_scan h hn
      have hscanned : l ∈ (Cursor.start source).scan.tokens := by simp [htokens]
      exact (List.mem_append.1 hmem).resolve_left (newline_not_mem_of_mem_scan hscanned hl hs)
  · rintro ⟨before, between, after, -, hplace, hplace', hmem⟩
    obtain ⟨-, -, -, -, -, -, hend⟩ := places_of_scan h hl hn
    have hline : n.line = l.line + (l.text.toList ++ between).count '\n' := by
      rw [hplace'.1, hplace.1, List.append_assoc, Position.after_append, Position.line_after]
    have hpos : '\n' ∈ l.text.toList ++ between := by
      split at hmem
      · exact hmem
      · exact List.mem_append_right _ hmem
    have := List.count_pos_iff.2 hpos
    omega

/-- Neighbors among the tokens that are no comments are only apart by comments. -/
theorem exists_of_uncommented (h : uncommented ts = us ++ l :: n :: vs) :
    ∃ before between after, ts = before ++ l :: between ++ n :: after ∧ l.kind ≠ .comment := by
  obtain ⟨before, rest, rfl, -, hrest⟩ := List.filter_eq_append_iff.1 h
  obtain ⟨comments, rest, rfl, -, hl, hrest⟩ := List.filter_eq_cons_iff.1 hrest
  obtain ⟨between, after, rfl, -, -, -⟩ := List.filter_eq_cons_iff.1 hrest
  exact ⟨before ++ comments, between, after, by simp, by simpa using hl⟩

/-- Comments between two tokens do not matter: these are on different lines exactly if the text
    goes over the end of a line there, be it in a comment. -/
theorem endLine_lt_iff_of_uncommented (hscan : Token.scan source = .ok ts)
    (h : uncommented ts = us ++ l :: n :: vs) (hn : n.kind ≠ .eof) :
    l.endLine < n.line ↔ LineBreak source l n := by
  obtain ⟨before, between, after, rfl, hl⟩ := exists_of_uncommented h
  exact endLine_lt_iff hscan hl hn

end Token

/-! ### Accepted texts -/

namespace Grammar

variable {source : String} {ts : List Token} {w x e v y v' : List Item}

/-- What is parted by lines is parted by line ends in the text. -/
theorem Parted.lineBreak (h : Parted Below x e v y v') (hscan : Token.scan source = .ok ts)
    (hin : tokens (x ++ e ++ v) <:+: Token.uncommented ts)
    (hy : ∀ n ∈ (tokens y).head?, n.kind ≠ .eof) : Parted (Token.LineBreak source) x e v y v' :=
  h.mono fun before l n after heq hn hbelow => by
    obtain ⟨front, back, hts⟩ := hin
    have hplace : Token.uncommented ts = (front ++ before) ++ l :: n :: (after ++ back) := by
      rw [← hts, heq]
      simp
    exact (Token.endLine_lt_iff_of_uncommented hscan hplace (hy n hn)).1 hbelow

/-- Consecutive statements of a text are parted by line ends, if the first has an end of its own. -/
theorem DerivesFile.parted_lineBreak {a b : Statement} {before after ss : List Statement}
    (h : DerivesFile true (Item.group ts) ss) (hscan : Token.scan source = .ok ts)
    (hss : ss.filter (!·.isComment) = before ++ a :: b :: after) (ha : a.hasEnd) :
    ∃ x e v y v', StatementAt true (Item.group ts) a (b :: after) (x ++ e) v ∧
      Terminator true [] x e v ∧ StatementAt true v b after y v' ∧
      Parted (Token.LineBreak source) x e v y v' := by
  obtain ⟨x, e, v, y, v', hx, he, hy, hparted⟩ := h.parted hss ha
  obtain ⟨front, hplace⟩ := hx.place
  obtain ⟨n, ns, k, hhead, hk⟩ := hy.derives.head
  have htokens : tokens (Item.group ts) = Token.uncommented ts := Item.map_token_group ts
  have hin : tokens (x ++ e ++ v) <:+: Token.uncommented ts := by
    rw [← htokens, hplace]
    exact (List.suffix_append _ _).isInfix
  refine ⟨x, e, v, y, v', hx, he, hy, hparted.lineBreak hscan hin ?_⟩
  rw [hhead]
  rintro m ⟨⟩
  rw [hk]
  nofun

/-- Consecutive members of a body that is derived from tokens of a text are parted by line ends. -/
theorem Derives.parted_lineBreak {a b : Member} {before after ms : List Member}
    (h : Derives true .members w ms) (hscan : Token.scan source = .ok ts)
    (hw : tokens w <:+: Token.uncommented ts)
    (hms : ms.filter (!·.isComment) = before ++ a :: b :: after) :
    ∃ x e v y e' v', MemberAt true w a (b :: after) x e v ∧ MemberAt true v b after y e' v' ∧
      Parted (Token.LineBreak source) x e v y (e' ++ v') := by
  obtain ⟨x, e, v, y, e', v', hx, hy, hparted⟩ := h.parted hms
  obtain ⟨front, hplace⟩ := hx.place
  obtain ⟨n, ns, hhead, -, hn⟩ := hy.derives.head_member
  have hin : tokens (x ++ e ++ v) <:+: tokens w := hplace ▸ (List.suffix_append _ _).isInfix
  refine ⟨x, e, v, y, e', v', hx, hy, hparted.lineBreak hscan (hin.trans hw) ?_⟩
  rw [hhead]
  rintro m ⟨⟩
  exact hn

end Grammar

open Grammar

/-- A text that is accepted is derived from its tokens, and what counts as the beginning of a new
    line in this derivation is the end of a line in the text. So wherever the end of a declaration
    is left out, be it between statements or between the members of a body, the text goes over the
    end of a line there: between the end of the last token of the declaration, or the beginning of
    this token if it is a literal, and the next declaration. The bodies, at any depth, stand behind
    the opening braces of the text, one for one. -/
theorem DeclFile.ofText?_parted {source : String} {file : DeclFile}
    (h : DeclFile.ofText? source = .ok file) :
    ∃ ts, Token.scan source = .ok ts ∧ DerivesFile true (Item.group ts) file.statements ∧
      (∀ before l n after, Token.uncommented ts = before ++ l :: n :: after → n.kind ≠ .eof →
        (l.endLine < n.line ↔ Token.LineBreak source l n)) ∧
      (∀ before a b after, file.statements.filter (!·.isComment) = before ++ a :: b :: after →
        a.hasEnd → ∃ x e v y v', StatementAt true (Item.group ts) a (b :: after) (x ++ e) v ∧
          Terminator true [] x e v ∧ StatementAt true v b after y v' ∧
          Parted (Token.LineBreak source) x e v y v') ∧
      List.Forall₂
        (fun behind body => ∃ w, Derives true .members w body ∧ tokens w <+: behind ∧
          ∀ before a b after, body.filter (!·.isComment) = before ++ a :: b :: after →
            ∃ x e v y e' v', MemberAt true w a (b :: after) x e v ∧
              MemberAt true v b after y e' v' ∧
              Parted (Token.LineBreak source) x e v y (e' ++ v'))
        (behindBraces (Token.uncommented ts)) file.bodies := by
  obtain ⟨ts, e, hscan, -, -, hd, -⟩ := DeclFile.derives_of_ofText? h
  refine ⟨ts ++ [e], hscan, hd, ?_, ?_, ?_⟩
  · exact fun _ _ _ _ heq hn => Token.endLine_lt_iff_of_uncommented hscan heq hn
  · exact fun _ _ _ _ hss ha => hd.parted_lineBreak hscan hss ha
  · -- Each body is derived from tokens behind its brace, and its members are parted there.
    have hembodied := hd.embodied
    have htokens : tokens (Item.group (ts ++ [e])) = Token.uncommented (ts ++ [e]) :=
      Item.map_token_group _
    rw [htokens] at hembodied
    have hboth := (List.forall₂_and_left _ _).2 ⟨fun _ => isSuffix_of_mem_behindBraces, hembodied⟩
    refine hboth.imp fun behind body ⟨hsuffix, w, hw, hbegins⟩ => ⟨w, hw, hbegins, ?_⟩
    have hin : tokens w <:+: Token.uncommented (ts ++ [e]) :=
      hbegins.isInfix.trans hsuffix.isInfix
    exact fun _ _ _ _ hms => hw.parted_lineBreak hscan hin hms

/-- The only line feed of a text may be the one in a literal before an end that is left out. -/
theorem DeclFile.ofText?_parted_literal :
    let source := "type A = \"a\\\nb\" type B = c"
    let a : Statement := .typeAlias "A" (.literal "\"a\\\nb\"") []
    let b : Statement := .typeAlias "B" (.reference "c") []
    DeclFile.ofText? source = .ok ⟨[a, b]⟩ ∧ ∃ ts x e v y v', Token.scan source = .ok ts ∧
      StatementAt true (Item.group ts) a [b] (x ++ e) v ∧ Terminator true [] x e v ∧
      StatementAt true v b [] y v' ∧ Parted (Token.LineBreak source) x e v y v' := by
  intro source a b
  have htokens : Token.scan source = .ok
      [⟨.keyword .type, "type", 1, 1, 1⟩, ⟨.identifier, "A", 1, 6, 1⟩,
        ⟨.punct .equals, "=", 1, 8, 1⟩, ⟨.string, "\"a\\\nb\"", 1, 10, 1⟩,
        ⟨.keyword .type, "type", 2, 4, 2⟩, ⟨.identifier, "B", 2, 9, 2⟩,
        ⟨.punct .equals, "=", 2, 11, 2⟩, ⟨.identifier, "c", 2, 13, 2⟩,
        ⟨.eof, "", 2, 14, 2⟩] := eq_ok_of_toOption (by decide +kernel)
  have hfile : DeclFile.ofText? source = .ok ⟨[a, b]⟩ := by
    rw [DeclFile.ofText?, htokens]
    rfl
  obtain ⟨ts, hts, -, -, hstatements, -⟩ := DeclFile.ofText?_parted hfile
  obtain ⟨x, e, v, y, v', hparted⟩ := hstatements [] a b [] rfl rfl
  exact ⟨hfile, ts, x, e, v, y, v', hts, hparted⟩

/-- The text would be rejected if the literal were said to span both of its lines. -/
example : DeclFile.ofTokens?
    [⟨.keyword .type, "type", 1, 1, 1⟩, ⟨.identifier, "A", 1, 6, 1⟩,
      ⟨.punct .equals, "=", 1, 8, 1⟩, ⟨.string, "\"a\\\nb\"", 1, 10, 2⟩,
      ⟨.keyword .type, "type", 2, 4, 2⟩, ⟨.identifier, "B", 2, 9, 2⟩,
      ⟨.punct .equals, "=", 2, 11, 2⟩, ⟨.identifier, "c", 2, 13, 2⟩, ⟨.eof, "", 2, 14, 2⟩] =
    .error ⟨.expected [.punct .semicolon] (.keyword .type) "", 2, 4⟩ := by rfl

end StyleDecl
