import StyleDecl.Proofs.Fragments
import StyleDecl.Proofs.Generated.Files
import StyleDecl.Proofs.Located

/-!
# Names that are pasted

The names of nodes and the types of properties are pasted into the text of a file as they
are. Whatever the names are, if they hold no comments and no braces, and whatever the types
are, if they leave no comments open and close no braces but their own, the tokens of a line are
those of its pieces.

* `Yields cs follow P`: the tokens of a piece of a text that is not rejected;
* `Pasted text ts`: the tokens of a text that is pasted;
* `PlainText`, `ClosedText`: texts that are pasted as names and as types.
-/

namespace StyleDecl

open Grammar Literal

variable {o : Options} {cs ds : List Char} {F G : List Char → Prop} {P Q : List Token → Prop}
  {name text line : String} {ts us : List Token}

/-! ### Pieces of a text that is not rejected -/

/-- The piece `cs` of a text is scanned as tokens that satisfy `P` up to comments, wherever
    the text after it satisfies `follow` and nothing is rejected. -/
def Yields (cs : List Char) (follow : List Char → Prop) (P : List Token → Prop) : Prop :=
  ∀ (p : Position) (rest : List Char), follow rest →
    (Cursor.scan ⟨cs ++ rest, p⟩).rejection = none →
      ∃ ts, Cursor.Finds ⟨cs ++ rest, p⟩ ts ⟨rest, p.after cs⟩ ∧
        P (Token.uncommented ts)

/-- What comes after a piece does not matter. -/
abbrev Anything (_ : List Char) : Prop := True

namespace Yields

theorem mono (h : Yields cs F P) (hP : ∀ ts, P ts → Q ts) (hF : ∀ rest, G rest → F rest) :
    Yields cs G Q := by
  intro p rest hr hok
  obtain ⟨ts, hfind, hts⟩ := h p rest (hF rest hr) hok
  exact ⟨ts, hfind, hP _ hts⟩

theorem append (h : Yields cs F P) (h' : Yields ds G Q) (hF : ∀ rest, G rest → F (ds ++ rest)) :
    Yields (cs ++ ds) G (Then P Q) := by
  intro p rest hr hok
  rw [List.append_assoc] at hok ⊢
  obtain ⟨ts, hfind, hts⟩ := h p (ds ++ rest) (hF rest hr) hok
  obtain ⟨us, hfind', hus⟩ := h' (p.after cs) rest hr (by
    rwa [Cursor.rejection_of_finds hfind] at hok)
  refine ⟨ts ++ us, ?_, _, _, Token.uncommented_append, hts, hus⟩
  rw [Position.after_append]
  exact hfind.trans hfind'

theorem of_blanks (h : ∀ c ∈ cs, c.isWhitespace) (hP : P []) : Yields cs F P :=
  fun _ _ _ _ => ⟨[], Cursor.finds_blanks h, hP⟩

theorem of_scans {P : List Item → Prop} (h : Scans cs F P) :
    Yields cs F fun ts => ∃ w, tokens w = ts ∧ P w := by
  intro p rest hr _
  obtain ⟨ts, w, hfind, hgroup, hw⟩ := h p rest hr
  refine ⟨ts, hfind, w, ?_, hw⟩
  have hgroup' := hgroup []
  rw [List.append_nil, Item.group, List.append_nil] at hgroup'
  rw [tokens, ← hgroup', Item.map_token_group]

/-- A comment on the line before a piece. -/
theorem comment (hc : Kind.comment.Spells text) (h : Yields cs F P) :
    Yields (text.toList ++ '\n' :: cs) F P := by
  intro p rest hr hok
  obtain ⟨t, hfind, hk, -⟩ := Cursor.finds_comment (p := p) hc
    (Reading.stops_cons_iff.2 rfl : Reading.Stops (· ≠ '\n') ('\n' :: (cs ++ rest)))
  have hfeed := hfind.trans (Cursor.finds_blank rfl)
  rw [List.append_assoc, List.cons_append] at hok ⊢
  rw [Cursor.rejection_of_finds hfeed] at hok
  obtain ⟨ts, hfind', hts⟩ := h _ rest hr hok
  refine ⟨t :: ts, ?_, ?_⟩
  · rw [Position.after_append]
    exact hfeed.trans hfind'
  · rwa [Token.uncommented_cons_of_comment hk]

/-- Blanks after a piece. -/
theorem blanks_after (h : Yields cs F P) (hds : ∀ c ∈ ds, c.isWhitespace)
    (hF : ∀ rest, G rest → F (ds ++ rest)) : Yields (cs ++ ds) G P := by
  have hboth := h.append (of_blanks (F := G) (P := (· = [])) hds rfl) hF
  refine hboth.mono ?_ fun _ => id
  rintro _ ⟨ts, _, rfl, hts, rfl⟩
  rwa [List.append_nil]

theorem newline_after (h : Yields cs Anything P) : Yields (cs ++ ['\n']) Anything P :=
  h.blanks_after (List.forall_mem_singleton.2 rfl) fun _ => id

/-- Blanks before a piece. -/
theorem blanks_before (hcs : ∀ c ∈ cs, c.isWhitespace) (h : Yields ds G Q) :
    Yields (cs ++ ds) G Q := by
  have hboth := (of_blanks (F := Anything) (P := (· = [])) hcs rfl).append h fun _ _ => trivial
  refine hboth.mono ?_ fun _ => id
  rintro _ ⟨_, ts, rfl, rfl, hts⟩
  exact hts

theorem space (h : Yields cs F P) : Yields (' ' :: cs) F P :=
  blanks_before (List.forall_mem_singleton.2 rfl) h

theorem newline (h : Yields cs F P) : Yields ('\n' :: cs) F P :=
  blanks_before (List.forall_mem_singleton.2 rfl) h

/-- Two pieces whose tokens together satisfy `R`. -/
theorem combine {R : List Token → Prop} (h : Yields cs F P) (h' : Yields ds G Q)
    (hR : ∀ {ts us}, P ts → Q us → R (ts ++ us)) (hF : ∀ rest, G rest → F (ds ++ rest)) :
    Yields (cs ++ ds) G R := by
  refine (h.append h' hF).mono ?_ fun _ => id
  rintro _ ⟨ts, us, rfl, hts, hus⟩
  exact hR hts hus

end Yields

/-! ### Pasted texts -/

/-- The tokens are those of the text by itself, wherever they stand. -/
structure Pasted (text : String) (ts : List Token) : Prop where
  accepted : (Cursor.start text).scan.rejection = none
  contents : ts.map Token.content = (Cursor.start text).scan.tokens.map Token.content

theorem Pasted.exists_of_mem {t : Token} (h : Pasted text ts) (ht : t ∈ ts) :
    ∃ u ∈ (Cursor.start text).scan.tokens, u.kind = t.kind ∧ u.text = t.text := by
  have hmem := List.mem_map_of_mem (f := Token.content) ht
  rw [h.contents] at hmem
  obtain ⟨u, hu, hcontent⟩ := List.mem_map.1 hmem
  exact ⟨u, hu, Token.kind_of_content hcontent, Token.text_of_content hcontent⟩

/-- Which braces are closed does not depend on where the tokens stand. -/
theorem rises_of_contents {d : Int} (h : us.map Token.content = ts.map Token.content)
    (hts : Rises d ts) : Rises d us := by
  induction ts generalizing d us with
  | nil => rwa [List.map_eq_nil_iff.1 h]
  | cons t ts ih =>
    obtain ⟨u, us, rfl, hu, hus⟩ := List.map_eq_cons_iff.1 h
    have hrise : u.rise = t.rise := by rw [Token.rise, Token.rise, Token.kind_of_content hu]
    exact ⟨hts.1, hrise ▸ ih hus hts.2⟩

/-- Comments close no braces. -/
theorem rises_uncommented {d : Int} (h : Rises d ts) :
    Rises d (Token.uncommented ts) := by
  induction ts generalizing d with
  | nil => exact h
  | cons t ts ih =>
    by_cases hk : t.kind = .comment
    · have hrise : t.rise = 0 := by simp [Token.rise, hk]
      rw [Token.uncommented_cons_of_comment hk]
      simpa [hrise] using ih h.2
    · rw [Token.uncommented_cons hk]
      exact ⟨h.1, ih h.2⟩

/-- A line feed comes after a piece. -/
abbrev NextLine (rest : List Char) : Prop := ∃ more, rest = '\n' :: more

/-- More text comes after a piece on its line, and it closes no literal. -/
abbrev InLine (rest : List Char) : Prop := ∃ ds more, rest = ds ++ '\n' :: more ∧ Trailing ds

/-- A text without comments and braces that leaves no comment open and has no blanks at its
    ends. It need not be a name. -/
structure PlainText (text : String) : Prop where
  closed : ClosesComments text
  plain : ∀ t ∈ (Cursor.start text).scan.tokens, t.kind ≠ .comment ∧ t.rise = 0
  head : ∀ c ∈ text.toList.head?, c.isWhitespace = false
  last : ∀ c ∈ text.toList.getLast?, c.isWhitespace = false

theorem PlainText.yields (h : PlainText text) : Yields text.toList InLine (Pasted text) := by
  rintro p _ ⟨ds, more, rfl, hds⟩ hok
  obtain ⟨haccepted, ts, hcontents, hfinds | ⟨⟨t, ht, hk⟩, -⟩⟩ :=
    Cursor.fits_of_rejection_eq_none (closesComments_iff.1 h.closed) hds hok
  · refine ⟨ts, hfinds, haccepted, ?_⟩
    rw [← Token.contents_of_forall fun t ht => (h.plain t ht).1]
    exact hcontents
  -- Only a comment could take what comes after it, and there is none.
  · exact absurd hk (h.plain t ht).1

/-- A name is made up of characters that can go on a word. -/
theorem isWordPart_of_spells (h : Kind.identifier.Spells name) :
    ∀ d ∈ name.toList, Reading.isWordPart d := by
  obtain ⟨l, hl, hk⟩ := Kind.spells_iff.1 h
  cases l with
  | word =>
    have hreads : Reading.span Reading.isWordPart name.toList = _ := hl.reads
    exact fun d hd => Reading.mem_span name.toList d (by rw [hreads]; exact hd)
  | _ => cases hk

/-- All names are plain. -/
theorem PlainText.of_spells (h : Kind.identifier.Spells name) : PlainText name := by
  have hblank : ∀ c ∈ name.toList, c.isWhitespace = false := by
    intro c hc
    refine Bool.eq_false_iff.2 fun hb => ?_
    simp only [Char.isWhitespace, Bool.or_eq_true, decide_eq_true_eq] at hb
    rcases hb with ((rfl | rfl) | rfl) | rfl <;>
      exact absurd (isWordPart_of_spells h _ hc) (by decide)
  have hends : Ends [' '] := ends_cons (by decide)
  obtain ⟨ts, _, hfinds, -⟩ := writes_of_spells h (by decide) .start [' '] hends
  have haccepted : (Cursor.scan ⟨name.toList ++ [' '], .start⟩).rejection = none := by
    rw [Cursor.rejection_of_finds hfinds, Cursor.scan_blanks (List.forall_mem_singleton.2 rfl)]
  obtain ⟨-, t, htokens, hk, -⟩ := h.tokens
  exact {
    closed := .of_accepted (by rwa [Cursor.start, String.toList_append])
    plain := by
      rw [htokens]
      exact List.forall_mem_singleton.2 (by simp [Token.rise, hk])
    head := fun c hc => hblank c (List.mem_of_mem_head? hc)
    last := fun c hc => hblank c (List.mem_of_mem_getLast? hc) }

/-- A text that leaves no comment open and closes no brace but its own. -/
structure ClosedText (text : String) : Prop where
  closed : ClosesComments text
  rises : Rises 0 (Cursor.start text).scan.tokens

/-- A closed text up to the end of its line. A comment at its end may take what comes after it. -/
theorem ClosedText.yields (h : ClosedText text) (hds : Trailing ds)
    (hend : Yields ds NextLine (Rises 0)) : Yields (text.toList ++ ds) NextLine (Rises 0) := by
  rintro p _ ⟨more, rfl⟩ hok
  rw [List.append_assoc] at hok ⊢
  obtain ⟨-, ts, hcontents, hfinds⟩ :=
    Cursor.fits_of_rejection_eq_none (closesComments_iff.1 h.closed) hds hok
  have hts : Rises 0 (Token.uncommented ts) :=
    rises_of_contents hcontents (rises_uncommented h.rises)
  -- A comment at the end of the text may take the rest of its line. Then nothing comes after it.
  obtain hfinds | ⟨-, hfinds⟩ := hfinds
  · have hrest := (Cursor.rejection_of_finds hfinds).symm.trans hok
    obtain ⟨us, hfinds', hus⟩ := hend _ _ ⟨more, rfl⟩ hrest
    refine ⟨ts ++ us, ?_, ?_⟩
    · rw [Position.after_append]
      exact hfinds.trans hfinds'
    · rw [Token.uncommented_append]
      exact hts.append hus
  · exact ⟨ts, hfinds, hts⟩

/-! ### Lines -/

/-- There are no quotes, no backslashes and no line feeds in a name. -/
theorem not_isQuote_of_spells (h : Kind.identifier.Spells name) :
    ∀ d ∈ name.toList, isQuote d = false ∧ d ≠ '\\' ∧ d ≠ '\n' := by
  intro d hd
  have hpart := isWordPart_of_spells h d hd
  refine ⟨Bool.eq_false_iff.2 fun hq => ?_, ?_, ?_⟩
  · simp only [isQuote, Bool.or_eq_true, decide_eq_true_eq] at hq
    rcases hq with rfl | rfl <;> exact absurd hpart (by decide)
  all_goals rintro rfl; exact absurd hpart (by decide)

namespace Options

theorem toList_andStyle (o : Options) : (" & " ++ o.styleType ++ ";").toList =
    ' ' :: '&' :: ' ' :: (o.styleType.toList ++ [';']) := by simp

/-- The style type at the end of an intersection. -/
theorem yields_andStyle (ho : o.WellFormed) :
    Yields (" & " ++ o.styleType ++ ";").toList Anything Calm := by
  have hstyle := (writes_of_spells ho.styleType nofun).append (writes_punct .semicolon)
    fun _ _ => ends_cons rfl
  have hline := (Writes.punct .ampersand hstyle.space).space
  rw [toList_andStyle]
  refine (Yields.of_scans hline).mono ?_ fun _ => id
  rintro _ ⟨_, rfl, ⟨_, _, rfl, ⟨i, rfl, hi⟩, _, _, rfl, ⟨n, rfl, hn, -⟩, e, rfl, he⟩, -⟩
  exact Calm.cons (by simp [hi]) (.cons (by simp [hn]) (.token (by simp [he])))

/-- It closes no literal. -/
theorem trailing_andStyle (ho : o.WellFormed) : Trailing (" & " ++ o.styleType ++ ";").toList := by
  rw [toList_andStyle]
  refine ⟨rfl, ?_⟩
  simp only [List.forall_mem_cons, List.forall_mem_append]
  have hstyle := not_isQuote_of_spells ho.styleType
  exact ⟨by decide, by decide, by decide, hstyle, by decide, List.forall_mem_nil _⟩

end Options

/-- A member that is read wherever it stands closes all of its braces. -/
theorem RendersLine.yields {m : Member} (h : RendersLine line m) :
    Yields line.toList Anything (Rises 0) := by
  obtain ⟨text, rfl, hm⟩ := h
  have hline := Writes.append hm (writes_punct .semicolon) fun _ _ => ends_cons rfl
  have htext : (text ++ ";").toList = text.toList ++ [Punct.semicolon.char] := by
    simp [Punct.char]
  rw [htext]
  refine (Yields.of_scans hline).mono ?_ fun _ => id
  rintro _ ⟨_, rfl, ⟨w, _, rfl, hw, e, rfl, he⟩, -⟩
  rw [tokens, List.map_append]
  exact hw.outlined.rises.append (Calm.token (by simp [he])).balanced.rises

/-- A property up to its types. -/
theorem Surface.yields_propertyKey (name : String) :
    Yields ("readonly " ++ key name ++ ": ").toList Anything (Rises 0) := by
  have hkey := (writes_of_anySpells (key_spells name) (by decide)).append
    (writes_punct .colon) fun _ _ => ends_cons rfl
  have hline : Yields _ Anything _ := Yields.of_scans (Writes.keyword .readonly hkey)
  have htext : ("readonly " ++ key name ++ ": ").toList =
      Keyword.readonly.text.toList ++ ' ' :: ((key name).toList ++ [Punct.colon.char]) ++
        [' '] := by
    simp [Keyword.text, Punct.char]
  rw [htext]
  refine (hline.mono ?_ fun _ => id).blanks_after (List.forall_mem_singleton.2 rfl) fun _ => id
  rintro _ ⟨_, rfl, ⟨_, _, rfl, ⟨r, rfl, hr, -⟩, _, _, rfl, ⟨k, rfl, hk, -⟩, c, rfl, hc⟩, -⟩
  refine (Balanced.cons ?_ (.cons (rise_of_mem_keys hk) (.token ?_))).rises
  · simp [Token.rise, hr]
  · simp [Token.rise, hc]

/-- The types of a property may be anything that closes no brace but its own. -/
theorem Surface.yields_propertyLine (ho : o.WellFormed) {types : List String}
    (h : ClosedText (" & ".intercalate types)) :
    Yields (Surface.propertyLine o name types).toList NextLine (Rises 0) := by
  by_cases hne : types = []
  · -- Only the style type is left.
    have hline : RendersLine (Surface.propertyLine o name types) _ :=
      rendersLine_propertyLine ho (hne ▸ List.forall_mem_nil _)
    exact hline.yields.mono (fun _ => id) fun _ _ => trivial
  · have hend : Yields _ NextLine (Rises 0) :=
      (Options.yields_andStyle ho).mono (fun _ hts => hts.balanced.rises) fun _ _ => trivial
    have htypes := h.yields (Options.trailing_andStyle ho) hend
    have hline := (yields_propertyKey name).combine htypes Rises.append fun _ _ => trivial
    have htext : propertyLine o name types = "readonly " ++ key name ++ ": " ++
        (" & ".intercalate types ++ (" & " ++ o.styleType ++ ";")) := by
      rw [propertyLine, String.intercalate_append_of_ne_nil hne (List.cons_ne_nil _ _),
        String.intercalate_singleton]
      simp only [String.append_assoc]
    rw [htext, String.toList_append, String.toList_append (s := " & ".intercalate types)]
    exact hline

end StyleDecl
