import StyleDecl.Proofs.Grammar.Words.Statements
import StyleDecl.Proofs.RoundTrip

/-!
# The words of formatted texts

Formatting changes the layout of a text, its punctuation and the quotes of its literals,
but not what is said: the words of the formatted text are those of the text itself, in
order, but for the modifiers before a default export (`format_words`).

* `TypeExpr.words_respelled`, `Statement.words_canonical`: no spelling changes a word;
* `Worded`: the words of a piece of text, wherever it stands;
* `Statement.worded_lines`, `Statement.worded_listLines`: the words of what is printed.
-/

namespace StyleDecl

open Grammar

variable {cfg : LayoutConfig}

/-! ### Spellings -/

/-- Comments between members hold no words. -/
theorem Member.flatMap_words_filter (ms : List Member) :
    (ms.filter (!·.isComment)).flatMap Member.words = ms.flatMap Member.words := by
  induction ms with
  | nil => rfl
  | cons m ms ih =>
    cases m with
    | comment => exact ih
    | _ => rw [List.filter_cons_of_pos rfl, List.flatMap_cons, List.flatMap_cons, ih]

section

variable {f : String → String}

theorem TypeExpr.allWords_respelled {ts : List TypeExpr}
    (h : ∀ t ∈ ts, (t.respelled f).words = t.words) :
    TypeExpr.allWords (TypeExpr.respelledAll f ts) = TypeExpr.allWords ts := by
  rw [TypeExpr.allWords_eq_flatMap, TypeExpr.allWords_eq_flatMap, TypeExpr.respelledAll_eq_map,
    List.flatMap_map]
  exact List.flatMap_congr h

theorem Parameter.allWords_respelled {ps : List Parameter}
    (h : ∀ p ∈ ps, (p.respelled f).words = p.words) :
    Parameter.allWords (Parameter.respelledAll f ps) = Parameter.allWords ps := by
  rw [Parameter.allWords_eq_flatMap, Parameter.allWords_eq_flatMap,
    Parameter.respelledAll_eq_map, List.flatMap_map]
  exact List.flatMap_congr h

theorem Member.allWords_respelled {ms : List Member}
    (h : ∀ m ∈ ms, (m.respelled f).words = m.words) :
    Member.allWords (Member.respelledAll f ms) = Member.allWords ms := by
  rw [Member.allWords_eq_flatMap, Member.allWords_eq_flatMap, Member.respelledAll_eq_map,
    List.flatMap_map, ← Member.flatMap_words_filter ms]
  exact List.flatMap_congr fun m hm => h m (List.mem_of_mem_filter hm)

end

mutual

/-- A type says the same, however its literals are spelled. -/
theorem TypeExpr.words_respelled :
    {t : TypeExpr} → t.WellFormed → (t.respelled cfg.spelling).words = t.words
  | .hole, h => h.elim
  | .reference _, _ => rfl
  | .literal _, h => congrArg ([·]) (Word.ofText_spelling h cfg)
  | .union ts, h | .intersection ts, h => by
    have hts := TypeExpr.allWellFormed_iff.1 h.2
    exact TypeExpr.allWords_respelled fun t ht => TypeExpr.words_respelled (hts t ht)
  | .array t, h => TypeExpr.words_respelled (t := t) h
  | .object ms, h => by
    have hms := Member.allWellFormed_iff.1 h
    exact Member.allWords_respelled fun m hm => Member.words_respelled (hms m hm)

theorem Parameter.words_respelled :
    {p : Parameter} → p.WellFormed → (p.respelled cfg.spelling).words = p.words
  | .mk _ t _, h => by
    rw [Parameter.respelled, Parameter.words, Parameter.words, TypeExpr.words_respelled h.2]

theorem Member.words_respelled :
    {m : Member} → m.WellFormed → (m.respelled cfg.spelling).words = m.words
  | .hole, h => h.elim
  | .property _ t _ _, h => by
    rw [Member.respelled, Member.words, Member.words, Word.ofText_spelling h.1,
      TypeExpr.words_respelled h.2]
  | .method _ ps t _, h => by
    have hps : ∀ p ∈ ps, (p.respelled cfg.spelling).words = p.words := by
      intro p hp
      have hlt := List.sizeOf_lt_of_mem hp
      exact Parameter.words_respelled (Parameter.allWellFormed_iff.1 h.2.1 p hp)
    rw [Member.respelled, Member.words, Member.words, Word.ofText_spelling h.1,
      TypeExpr.words_respelled h.2.2, Parameter.allWords_respelled hps]
  | .call ps t, h => by
    have hps : ∀ p ∈ ps, (p.respelled cfg.spelling).words = p.words := by
      intro p hp
      have hlt := List.sizeOf_lt_of_mem hp
      exact Parameter.words_respelled (Parameter.allWellFormed_iff.1 h.1 p hp)
    rw [Member.respelled, Member.words, Member.words, TypeExpr.words_respelled h.2,
      Parameter.allWords_respelled hps]
  | .index (.mk _ k _) t, h => by
    rw [Member.respelled, Member.words, Member.words, TypeExpr.words_respelled h.2.2,
      Parameter.words_respelled h.2.1]
  | .comment _, _ => rfl

end

/-- A body says the same in its canonical form. -/
theorem Member.allWords_canonical {ms : List Member} (h : Member.AllWellFormed ms) :
    Member.allWords (ms.map (Member.canonical cfg)) = Member.allWords ms := by
  rw [Member.allWords_eq_flatMap, Member.allWords_eq_flatMap, List.flatMap_map]
  refine List.flatMap_congr fun m hm => ?_
  cases m with
  | comment => rfl
  | _ => exact Member.words_respelled (Member.allWellFormed_iff.1 h _ hm)

/-- A statement says the same in its canonical form. -/
theorem Statement.words_canonical {s : Statement} (h : s.WellFormed) :
    (s.canonical cfg).words = s.words := by
  cases s with
  | comment | exportDefault => rfl
  | typeAlias name t modifiers =>
    exact congrArg (modifiers.map Word.ofText ++ _ :: _ :: ·) (TypeExpr.words_respelled h.2.1)
  | interfaceDecl name ms modifiers | classDecl name ms modifiers =>
    exact congrArg (modifiers.map Word.ofText ++ _ :: _ :: ·) (Member.allWords_canonical h.2.1)
  | variableDecl kind name t modifiers =>
    cases t with
    | none => rfl
    | some t =>
      exact congrArg (modifiers.map Word.ofText ++ _ :: _ :: ·)
        (TypeExpr.words_respelled (h.2.2.1 t rfl))

/-! ### Words of texts -/

/-- Wherever the characters `cs` stand, they are scanned as tokens with the words `ws`. -/
def Worded (cs : List Char) (ws : List Word) : Prop :=
  ∀ (p : Position) (rest : List Char),
    ∃ ts, Cursor.Finds ⟨cs ++ rest, p⟩ ts ⟨rest, p.after cs⟩ ∧ Token.words ts = ws

section

variable {cs ds : List Char} {ws us : List Word} {text : String} {s : Statement}
  {ss : List Statement}

theorem Worded.nil : Worded [] [] := Picks.nil

theorem Worded.append (h : Worded cs ws) (h' : Worded ds us) : Worded (cs ++ ds) (ws ++ us) :=
  Picks.append h h'

/-- A line feed holds no words. -/
theorem worded_newline : Worded ['\n'] [] := picks_blanks (List.forall_mem_singleton.2 rfl)

/-- Nor does a comment on lines of its own. -/
theorem worded_comment (h : Kind.comment.Spells text) : Worded (text.toList ++ ['\n']) [] := by
  intro p rest
  obtain ⟨t, hfind, hk, -⟩ := Cursor.finds_comment (p := p) h
    (Reading.stops_cons_iff.2 rfl : Reading.Stops (· ≠ '\n') ('\n' :: rest))
  have hwords : Token.words [t] = [] := List.filterMap_cons_none (Token.word?_of_comment hk)
  refine ⟨[t] ++ [], ?_, hwords⟩
  rw [List.append_assoc, Position.after_append]
  exact hfind.trans (Cursor.finds_blank rfl)

/-- The words of a text are those of the items that it is scanned as. -/
theorem worded_of_scans {P : List Item → Prop} (h : Scans cs (fun _ => True) P)
    (hP : ∀ w, (∀ i ∈ w, Spelled i) → P w → Item.words w = ws) : Worded cs ws := by
  intro p rest
  obtain ⟨ts, w, hfind, hgroup, hw⟩ := h p rest trivial
  have hitems : Item.group ts = w := by simpa [Item.group] using hgroup []
  have hspelled : ∀ i ∈ Item.group ts, Spelled i := spelled_group fun t ht _ => by
    have hmem : t ∈ (Cursor.scan ⟨cs ++ rest, p⟩).tokens := by
      rw [hfind]
      exact List.mem_append_left _ ht
    exact Token.spells_of_mem_scan hmem
  refine ⟨ts, hfind, ?_⟩
  rw [← hP w (hitems ▸ hspelled) hw, ← hitems, Item.words, Item.map_token_group]
  exact (Token.words_uncommented ts).symm

theorem worded_statement (h : s.WellFormed) (hc : s.isComment = false)
    (hd : ∀ name, s.canonical cfg ≠ .exportDefault name) :
    Worded (Layout.linesText (s.lines cfg)).toList s.words := by
  obtain ⟨text, htext, hs⟩ : ∃ text, Layout.linesText (s.lines cfg) = text ++ "\n" ∧
      RendersStatement text (s.canonical cfg) := Statement.renders_text h hc
  have hwords : Worded text.toList s.words := worded_of_scans hs.scans fun w hw hstated => by
    rw [(hstated.1 []).words hw hd, Statement.words_canonical h]
  rw [htext]
  simpa using hwords.append worded_newline

/-- A printed default export has no modifiers. -/
theorem worded_exportDefault {name : String} (hn : Kind.identifier.Spells name) :
    Worded ("export default " ++ name ++ ";").toList (Statement.exportDefault name).words := by
  refine worded_of_scans (writes_exportDefault hn) ?_
  rintro _ hw ⟨⟨i, d, n, t, rfl, hi, hd, hnk, rfl, ht⟩, -⟩
  simp only [List.forall_mem_cons] at hw
  simp [words_keyword hi hw.1, words_keyword hd hw.2.1, words_identifier (i := ⟨[], n⟩) hnk,
    Token.word?_of_punct ht, Statement.words]

/-- The words of a statement are those of its lines. -/
theorem Statement.worded_lines (h : s.WellFormed) :
    Worded (Layout.linesText (s.lines cfg)).toList s.words := by
  cases s with
  | comment text attached =>
    have hspells : Kind.comment.Spells (Layout.relaid "" text) := Layout.relaid_spells nofun h
    rw [Statement.lines, Layout.linesText_commentLines, Statement.words]
    simpa using worded_comment hspells
  | exportDefault name =>
    have hwords := (worded_exportDefault h).append worded_newline
    rw [Statement.lines, Layout.linesText_singleton, String.toList_append]
    rwa [List.append_nil] at hwords
  | _ => exact worded_statement h rfl fun name hname => by cases hname

/-- The words of statements are those of their lines. -/
theorem Statement.worded_listLines (h : ∀ s ∈ ss, s.WellFormed) :
    Worded (Layout.linesText (Statement.listLines cfg ss)).toList
      (ss.flatMap Statement.words) := by
  induction ss with
  | nil => exact .nil
  | cons s ss ih =>
    rw [List.forall_mem_cons] at h
    have hs : Worded (Layout.linesText (s.lines cfg)).toList s.words := Statement.worded_lines h.1
    cases ss with
    | nil => simpa [Statement.listLines] using hs
    | cons t ss =>
      have hblank : Worded (if s.isAttached then [] else ['\n']) [] := by
        split
        · exact .nil
        · exact worded_newline
      rw [Statement.toList_listLines, List.flatMap_cons]
      simpa using (hs.append hblank).append (ih h.2)

end

/-! ### Formatted texts -/

/-- The words of a file are those of its text. -/
theorem DeclFile.words_text {file : DeclFile} (h : file.WellFormed) (cfg : LayoutConfig) :
    ∃ ts, Token.scan (file.text cfg) = .ok ts ∧
      Token.words ts = file.statements.flatMap Statement.words := by
  have hworded : Worded (file.text cfg).toList _ := Statement.worded_listLines h
  obtain ⟨ts, hfind, hwords⟩ := hworded .start []
  rw [List.append_nil] at hfind
  refine ⟨_, Token.scan_of_finds hfind, ?_⟩
  rw [Token.words_append, hwords]
  exact List.append_nil _

/-- The words of a file are those of the tokens that it is read from, but for the modifiers
    before a default export. -/
theorem DeclFile.words_of_ofText? {source : String} {file : DeclFile}
    (h : DeclFile.ofText? source = .ok file) :
    ∃ ts, Token.scan source = .ok ts ∧
      Token.words (Token.kept (Token.uncommented ts)) =
        file.statements.flatMap Statement.words := by
  obtain ⟨ts, e, hscan, -, -, hd, hspelled⟩ := DeclFile.derives_of_ofText? h
  refine ⟨ts ++ [e], hscan, ?_⟩
  rw [← hd.words hspelled, Item.map_token_group]

section

variable {source text : String}

/-- A formatted text has the words of the text that it was made from, in order, but for the
    modifiers before a default export. Without such modifiers it has all of them. -/
theorem format_words (h : format cfg source = .ok text) :
    ∃ ts us, Token.scan source = .ok ts ∧ Token.scan text = .ok us ∧
      Token.words us = Token.words (Token.kept (Token.uncommented ts)) ∧
      (Token.BareDefaults (Token.uncommented ts) → Token.words us = Token.words ts) := by
  obtain ⟨file, hfile, hprint⟩ := format_eq_ok_iff.1 h
  have hwf := DeclFile.wellFormed_of_ofText? hfile
  obtain rfl := Except.ok.inj ((DeclFile.print_eq_ok hwf cfg).symm.trans hprint)
  obtain ⟨ts, hts, hkept⟩ := DeclFile.words_of_ofText? hfile
  obtain ⟨us, hus, hwords⟩ := DeclFile.words_text hwf cfg
  have heq := hwords.trans hkept.symm
  refine ⟨ts, us, hts, hus, heq, fun hbare => ?_⟩
  rw [heq, Token.kept_eq_self hbare, Token.words_uncommented]

/-- The word `declare` before a default export is lost. -/
theorem format_words_default :
    format {} "declare export default X;" = .ok "export default X;\n" ∧
      ∃ ts us, Token.scan "declare export default X;" = .ok ts ∧
        Token.scan "export default X;\n" = .ok us ∧
        Token.words us = Token.words (Token.kept (Token.uncommented ts)) ∧
        Token.words ts = .itself "declare" :: Token.words us := by
  have hformat : format {} "declare export default X;" = .ok "export default X;\n" :=
    eq_ok_of_toOption (by decide +kernel)
  have hsource : (Token.scan "declare export default X;").toOption.map Token.words =
      some (["declare", "export", "default", "X"].map .itself) := by decide +kernel
  have hresult : (Token.scan "export default X;\n").toOption.map Token.words =
      some (["export", "default", "X"].map .itself) := by decide +kernel
  obtain ⟨ts, us, hts, hus, hwords, -⟩ := format_words hformat
  rw [hts] at hsource
  rw [hus] at hresult
  refine ⟨hformat, ts, us, hts, hus, hwords, ?_⟩
  rw [Option.some_inj.1 hsource, Option.some_inj.1 hresult]
  rfl

end

end StyleDecl
