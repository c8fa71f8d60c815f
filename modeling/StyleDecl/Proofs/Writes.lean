import StyleDecl.Proofs.Scan
import StyleDecl.Proofs.Stream

/-!
# Texts and the items they are scanned as

A piece of text is scanned as items wherever the text after it does not go on with
its last lexeme, and pieces are put together by what they are scanned as.

* `Groups`: a list of tokens and the items it makes up;
* `Scans cs follow P`: the piece `cs` is scanned as items that satisfy `P`, wherever
  what comes after it satisfies `follow`;
* `Writes cs follow P`: besides, there are no comments in it;
* `Picks f cs xs`: the piece `cs` is scanned as tokens of which `f` picks `xs`;
* `Ends`: the condition on what comes after a piece that suits all lexemes but
  comments.
-/

namespace StyleDecl

variable {cs ds rest : List Char} {c : Char} {F G : List Char → Prop} {P Q : List Item → Prop}
  {k : Kind} {s : String} {t : Token} {i : Item} {ts us : List Token} {w v : List Item}

/-! ### Tokens and items -/

/-- The tokens `ts` make up the items `w`, whatever comes after them. -/
def Groups (ts : List Token) (w : List Item) : Prop :=
  ∀ us, Item.group (ts ++ us) = w ++ Item.group us

theorem Groups.nil : Groups [] [] := fun _ => rfl

theorem Groups.append (h : Groups ts w) (h' : Groups us v) : Groups (ts ++ us) (w ++ v) := by
  intro vs
  rw [List.append_assoc, h, h', List.append_assoc]

theorem Groups.token (ht : t.kind ≠ .comment) : Groups [t] [⟨[], t⟩] := by
  intro us
  simp [Item.group, ht]

/-- A comment belongs to the item after it. -/
theorem Groups.comment (ht : t.kind = .comment) (h : Groups ts (i :: w)) :
    Groups (t :: ts) ({ i with comments := t :: i.comments } :: w) := by
  intro us
  rw [List.cons_append, Item.group, if_pos ht, h us]
  rfl

/-- The tokens that make up items are those of the items. -/
theorem Groups.eq_spread (h : Groups ts w) : ts = Item.spread w := by
  let e : Token := ⟨.eof, "", 1, 1, 1⟩
  have hspread : Item.spread (Item.group (ts ++ [e])) = ts ++ [e] := Item.spread_group nofun
  rw [h, Item.spread_append] at hspread
  exact (List.append_cancel_right hspread).symm

/-! ### Pieces of text -/

/-- The piece `cs` of a text is scanned as items that satisfy `P`, wherever the text
    after it satisfies `follow`. -/
def Scans (cs : List Char) (follow : List Char → Prop) (P : List Item → Prop) : Prop :=
  ∀ (p : Position) (rest : List Char), follow rest →
    ∃ ts w, Cursor.Finds ⟨cs ++ rest, p⟩ ts ⟨rest, p.after cs⟩ ∧ Groups ts w ∧ P w

/-- Items, or tokens, that satisfy `P` and then ones that satisfy `Q`. -/
def Then {α : Type} (P Q : List α → Prop) (w : List α) : Prop := ∃ u v, w = u ++ v ∧ P u ∧ Q v

theorem Scans.mono (h : Scans cs F P) (hP : ∀ w, P w → Q w) (hF : ∀ rest, G rest → F rest) :
    Scans cs G Q := by
  intro p rest hr
  obtain ⟨ts, w, hfind, hgroup, hw⟩ := h p rest (hF rest hr)
  exact ⟨ts, w, hfind, hgroup, hP w hw⟩

theorem Scans.imp (h : Scans cs F P) (hP : ∀ w, P w → Q w) : Scans cs F Q :=
  h.mono hP fun _ => id

theorem Scans.nil (h : P []) : Scans [] F P := fun _ _ _ => ⟨[], [], .refl _, .nil, h⟩

/-- Two pieces one after the other. -/
theorem Scans.append (h : Scans cs F P) (h' : Scans ds G Q)
    (hF : ∀ rest, G rest → F (ds ++ rest)) : Scans (cs ++ ds) G (Then P Q) := by
  intro p rest hr
  obtain ⟨ts, w, hfind, hgroup, hw⟩ := h p (ds ++ rest) (hF rest hr)
  obtain ⟨us, v, hfind', hgroup', hv⟩ := h' (p.after cs) rest hr
  refine ⟨ts ++ us, w ++ v, ?_, hgroup.append hgroup', w, v, rfl, hw, hv⟩
  rw [List.append_assoc, Position.after_append]
  exact hfind.trans hfind'

/-- Blanks in front of a piece. -/
theorem Scans.blanks (hcs : ∀ c ∈ cs, c.isWhitespace) (h : Scans ds F P) :
    Scans (cs ++ ds) F P := by
  intro p rest hr
  obtain ⟨ts, w, hfind, hgroup, hw⟩ := h (p.after cs) rest hr
  refine ⟨ts, w, ?_, hgroup, hw⟩
  rw [List.append_assoc, Position.after_append]
  exact (Cursor.finds_blanks hcs).trans hfind

theorem Scans.newline (h : Scans ds F P) : Scans ('\n' :: ds) F P :=
  .blanks (List.forall_mem_singleton.2 rfl) h

/-- Items that satisfy `P` but for a comment `s` before the first of them. -/
def Noted (s : String) (P : List Item → Prop) (w : List Item) : Prop :=
  ∃ t i v, w = { i with comments := t :: i.comments } :: v ∧ t.text = s ∧ P (i :: v)

/-- A comment on the line before a piece. -/
theorem Scans.comment (hs : Kind.comment.Spells s) (h : Scans ds F P) (hP : ∀ w, P w → w ≠ []) :
    Scans (s.toList ++ '\n' :: ds) F (Noted s P) := by
  intro p rest hr
  obtain ⟨t, hfind, hk, ht, -⟩ := Cursor.finds_comment (p := p) hs
    (Reading.stops_cons_iff.2 rfl : Reading.Stops (· ≠ '\n') ('\n' :: ds ++ rest))
  obtain ⟨ts, w, hfind', hgroup, hw⟩ := h.newline (p.after s.toList) rest hr
  obtain ⟨i, v, rfl⟩ := List.exists_cons_of_ne_nil (hP w hw)
  refine ⟨t :: ts, _, ?_, hgroup.comment hk, t, i, v, rfl, ht, hw⟩
  rw [List.append_assoc, Position.after_append]
  exact hfind.trans hfind'

/-! ### Pieces without comments -/

/-- There are no comments before any of the items. -/
def Plain (w : List Item) : Prop := ∀ i ∈ w, i.comments = []

@[simp] theorem plain_cons_iff : Plain (i :: w) ↔ i.comments = [] ∧ Plain w := List.forall_mem_cons

/-- The piece `cs` of a text holds no comments, and it is scanned as items that satisfy
    `P`, wherever the text after it satisfies `follow`. -/
def Writes (cs : List Char) (follow : List Char → Prop) (P : List Item → Prop) : Prop :=
  Scans cs follow fun w => P w ∧ Plain w

theorem Writes.mono (h : Writes cs F P) (hP : ∀ w, P w → Q w) (hF : ∀ rest, G rest → F rest) :
    Writes cs G Q :=
  Scans.mono h (fun w hw => ⟨hP w hw.1, hw.2⟩) hF

theorem Writes.imp (h : Writes cs F P) (hP : ∀ w, P w → Q w) : Writes cs F Q :=
  h.mono hP fun _ => id

theorem Writes.nil (h : P []) : Writes [] F P := Scans.nil ⟨h, nofun⟩

theorem Writes.append (h : Writes cs F P) (h' : Writes ds G Q)
    (hF : ∀ rest, G rest → F (ds ++ rest)) : Writes (cs ++ ds) G (Then P Q) := by
  refine (Scans.append h h' hF).imp ?_
  rintro _ ⟨u, v, rfl, ⟨hu, hpu⟩, hv, hpv⟩
  exact ⟨⟨u, v, rfl, hu, hv⟩, List.forall_mem_append.2 ⟨hpu, hpv⟩⟩

theorem Writes.space (h : Writes cs F P) : Writes (' ' :: cs) F P :=
  Scans.blanks (List.forall_mem_singleton.2 rfl) h

/-! ### What is picked from the tokens of a piece -/

section

variable {α : Type} {f : Token → Option α} {xs ys : List α}

/-- Wherever the piece `cs` of a text stands, it is scanned as tokens of which `f` picks `xs`. -/
def Picks (f : Token → Option α) (cs : List Char) (xs : List α) : Prop :=
  ∀ (p : Position) (rest : List Char),
    ∃ ts, Cursor.Finds ⟨cs ++ rest, p⟩ ts ⟨rest, p.after cs⟩ ∧ ts.filterMap f = xs

theorem Picks.nil : Picks f [] [] := fun _ _ => ⟨[], .refl _, rfl⟩

theorem Picks.append (h : Picks f cs xs) (h' : Picks f ds ys) :
    Picks f (cs ++ ds) (xs ++ ys) := by
  intro p rest
  obtain ⟨ts, hfind, rfl⟩ := h p (ds ++ rest)
  obtain ⟨ts', hfind', rfl⟩ := h' (p.after cs) rest
  refine ⟨ts ++ ts', ?_, List.filterMap_append⟩
  rw [List.append_assoc, Position.after_append]
  exact hfind.trans hfind'

/-- Nothing is picked from white space. -/
theorem picks_blanks (hcs : ∀ c ∈ cs, c.isWhitespace) : Picks f cs [] :=
  fun _ _ => ⟨[], Cursor.finds_blanks hcs, rfl⟩

end

/-- One token of the kind `k`, with no comments before it. -/
def One (k : Kind) (w : List Item) : Prop := ∃ t, w = [⟨[], t⟩] ∧ t.kind = k

/-- One token of the kind `k` that reads `s`, with no comments before it. -/
def OneText (k : Kind) (s : String) (w : List Item) : Prop :=
  ∃ t, w = [⟨[], t⟩] ∧ t.kind = k ∧ t.text = s

/-- A lexeme that is no comment. -/
theorem writes_lexeme {l : Lexeme} (h : l.Spells cs) (hl : l ≠ .comment) :
    Writes cs (l.Stops cs) (OneText (l.kind cs) (String.ofList cs)) := by
  intro p rest hr
  have hk : (Cursor.token ⟨cs, p⟩ l cs).kind ≠ .comment := by
    cases l with
    | comment => exact absurd rfl hl
    | word =>
      simp only [Cursor.token, Lexeme.kind]
      split <;> simp
    | _ => simp [Cursor.token, Lexeme.kind]
  exact ⟨_, _, Cursor.finds_lexeme h hr, .token hk,
    ⟨_, rfl, rfl, congrArg String.ofList h.keeps⟩, by simp [Plain]⟩

/-! ### Lexemes -/

/-- What comes after a piece goes on neither with a word nor with a number. -/
def Ends (rest : List Char) : Prop :=
  Reading.Stops Reading.isWordPart rest ∧ Reading.Stops Reading.isNumberPart rest

@[simp] theorem ends_nil : Ends [] := ⟨Reading.stops_nil, Reading.stops_nil⟩

theorem ends_cons (h : (Reading.isWordPart c || Reading.isNumberPart c) = false) :
    Ends (c :: rest) := by
  rw [Bool.or_eq_false_iff] at h
  exact ⟨Reading.stops_cons_iff.2 h.1, Reading.stops_cons_iff.2 h.2⟩

theorem Ends.stops {l : Lexeme} (h : Ends rest) (hl : l ≠ .comment) : l.Stops cs rest := by
  cases l with
  | comment => exact absurd rfl hl
  | word => exact h.1
  | number => exact h.2
  | _ => trivial

/-- A text that is one token. -/
theorem writes_of_spells (h : k.Spells s) (hk : k ≠ .comment) :
    Writes s.toList Ends (OneText k s) := by
  obtain ⟨l, hl, rfl⟩ := Kind.spells_iff.1 h
  have hne : l ≠ .comment := by
    rintro rfl
    exact hk rfl
  have hw := writes_lexeme hl hne
  rw [String.ofList_toList] at hw
  exact hw.mono (fun _ => id) fun _ he => he.stops hne

/-- A name may be followed by anything but what goes on with a word. -/
theorem writes_identifier (h : Kind.identifier.Spells s) :
    Writes s.toList (Reading.Stops Reading.isWordPart) (OneText .identifier s) := by
  obtain ⟨l, hl, hk⟩ := Kind.spells_iff.1 h
  cases l with
  | word =>
    have hw := writes_lexeme hl nofun
    rwa [String.ofList_toList, hk] at hw
  | _ => cases hk

theorem Punct.spells (p : Punct) : (Lexeme.punct p).Spells [p.char] where
  starts := ⟨p.char, [], rfl, by cases p <;> rfl⟩
  reads := rfl
  keeps := rfl

/-- A punctuation mark may be followed by anything. -/
theorem writes_punct (p : Punct) : Writes [p.char] (fun _ => True) (One (.punct p)) :=
  (writes_lexeme p.spells nofun).mono (fun _ ⟨i, hw, hk, _⟩ => ⟨i, hw, hk⟩) fun _ _ => trivial

theorem Writes.punct (p : Punct) (h : Writes cs F P) :
    Writes (p.char :: cs) F (Then (One (.punct p)) P) :=
  (writes_punct p).append h fun _ _ => trivial

theorem Keyword.word_spells (k : Keyword) : Lexeme.word.Spells k.text.toList where
  starts := by cases k <;> exact ⟨_, _, rfl, rfl⟩
  reads := by cases k <;> rfl
  keeps := rfl

theorem Keyword.spells (k : Keyword) : (Kind.keyword k).Spells k.text := by
  refine Kind.spells_iff.2 ⟨.word, k.word_spells, ?_⟩
  rw [Lexeme.kind, String.ofList_toList, Keyword.ofText?_text]

/-- A keyword and the space after it. -/
theorem Writes.keyword (k : Keyword) (h : Writes cs F P) :
    Writes (k.text.toList ++ ' ' :: cs) F (Then (OneText (.keyword k) k.text) P) :=
  (writes_of_spells k.spells nofun).append h.space fun _ _ => ends_cons rfl

/-- The text `s` is one token of one of the kinds `kinds`. -/
def Kind.AnySpells (kinds : List Kind) (s : String) : Prop := ∃ k ∈ kinds, k.Spells s

/-- One token of one of the kinds `kinds` that reads `s`, with no comments before it. -/
def OneOf (kinds : List Kind) (s : String) (w : List Item) : Prop :=
  ∃ t, w = [⟨[], t⟩] ∧ t.kind ∈ kinds ∧ t.text = s

theorem writes_of_anySpells {kinds : List Kind} (h : Kind.AnySpells kinds s)
    (hk : Kind.comment ∉ kinds) : Writes s.toList Ends (OneOf kinds s) := by
  obtain ⟨k, hmem, hs⟩ := h
  refine (writes_of_spells hs fun he => hk (he ▸ hmem)).imp ?_
  rintro w ⟨i, hw, rfl, ht⟩
  exact ⟨i, hw, hmem, ht⟩

end StyleDecl
