import StyleDecl.Decl.Layout
import StyleDecl.Proofs.Lexical

/-!
# Comments laid out

A comment is laid out line by line: the blanks around each line are dropped, the
lines after the first go behind an indent, and their stars are lined up. None of
this opens or closes a block comment, for what closes it is never spread over two
lines, and a line comment has one line only.

* `Layout.relaid indent text`: the comment as it stands behind an indent;
* `Layout.intercalate_commentLines`: it is what is printed of the comment;
* `Layout.relaid_spells`: it is again a comment;
* `Layout.commentLines_relaid`: it is laid out like the comment it was made from.
-/

namespace StyleDecl

variable {cs u v : List Char} {c : Char}

/-! ### Block comments line by line -/

namespace Reading

/-- The characters `cs` close a block comment, all of them. -/
def Closes (cs : List Char) : Prop := blockTail cs = { text := cs, rest := [] }

/-- A block comment goes on after the characters `cs`. -/
def GoesOn (cs : List Char) : Prop := (blockTail cs).complete = false

theorem closes_cons_iff (h : ¬(c = '*' ∧ cs.head? = some '/')) : Closes (c :: cs) ↔ Closes cs := by
  rw [Closes, blockTail_plain h]
  exact ⟨fun h => cons_inj h, congrArg (cons c)⟩

theorem goesOn_cons_iff (h : ¬(c = '*' ∧ cs.head? = some '/')) : GoesOn (c :: cs) ↔ GoesOn cs := by
  rw [GoesOn, blockTail_plain h, complete_cons, GoesOn]

/-- A block comment is closed within one line. -/
theorem closes_newline_iff : Closes (u ++ '\n' :: v) ↔ GoesOn u ∧ Closes v := by
  induction u with
  | nil =>
    rw [List.nil_append, closes_cons_iff (by simp)]
    exact (and_iff_right rfl).symm
  | cons c u ih =>
    by_cases h : c = '*' ∧ u.head? = some '/'
    · obtain ⟨rfl, hu⟩ := h
      obtain ⟨u, rfl⟩ := List.head?_eq_some_iff.1 hu
      rw [List.cons_append, List.cons_append, Closes, GoesOn, blockTail_end, blockTail_end]
      simp
    · have h' : ¬(c = '*' ∧ (u ++ '\n' :: v).head? = some '/') := by
        cases u with
        | nil => simp
        | cons => exact h
      rw [List.cons_append, closes_cons_iff h', ih, goesOn_cons_iff h]

/-- What closes a block comment ends with a slash. -/
theorem Closes.eq_append (h : Closes cs) : ∃ u, cs = u ++ ['/'] := by
  induction cs with
  | nil => cases h
  | cons c cs ih =>
    by_cases hend : c = '*' ∧ cs.head? = some '/'
    · obtain ⟨rfl, hs⟩ := hend
      obtain ⟨v, rfl⟩ := List.head?_eq_some_iff.1 hs
      rw [Closes, blockTail_end] at h
      exact ⟨['*'], (congrArg Reading.text h).symm⟩
    · obtain ⟨u, rfl⟩ := ih ((closes_cons_iff hend).1 h)
      exact ⟨c :: u, rfl⟩

theorem GoesOn.of_append (h : GoesOn (u ++ v)) : GoesOn u := by
  rw [GoesOn, Bool.eq_false_iff] at h ⊢
  exact fun hu => h (by rw [blockTail_more hu])

/-! ### Changing the lines of a comment -/

/-- Whether a block comment is closed in a line does not change with `f`. -/
structure Keeps (f : List Char → List Char) : Prop where
  /-- It goes on where it went on. -/
  goesOn : ∀ {line}, GoesOn line → GoesOn (f line)
  /-- It is closed where it was closed. -/
  closes : ∀ {line}, Closes line → Closes (f line)

theorem Keeps.comp {f g : List Char → List Char} (hf : Keeps f) (hg : Keeps g) : Keeps (f ∘ g) :=
  ⟨hf.goesOn ∘ hg.goesOn, hf.closes ∘ hg.closes⟩

theorem keeps_trimEnd : Keeps Text.trimEnd where
  goesOn {line} h := by
    obtain ⟨v, hv⟩ := Text.isPrefix_trimEnd line
    exact GoesOn.of_append (v := v) (by rwa [hv])
  closes {line} h := by
    obtain ⟨u, rfl⟩ := h.eq_append
    rwa [Text.trimEnd_append_singleton (by decide)]

theorem keeps_cons (hc : c ≠ '*') : Keeps (c :: ·) :=
  ⟨(goesOn_cons_iff fun h => hc h.1).2, (closes_cons_iff fun h => hc h.1).2⟩

theorem keeps_dropBlanks : Keeps (List.dropWhile Unicode.isBlank) := by
  have hdrop : ∀ line : List Char, (GoesOn line → GoesOn (line.dropWhile Unicode.isBlank)) ∧
      (Closes line → Closes (line.dropWhile Unicode.isBlank)) := by
    intro line
    induction line with
    | nil => exact ⟨id, id⟩
    | cons c line ih =>
      by_cases hb : Unicode.isBlank c
      · have hc : c ≠ '*' := by
          rintro rfl
          exact absurd hb (by decide)
        rw [List.dropWhile_cons_of_pos hb, goesOn_cons_iff fun h => hc h.1,
          closes_cons_iff fun h => hc h.1]
        exact ih
      · rw [List.dropWhile_cons_of_neg hb]
        exact ⟨id, id⟩
  exact ⟨fun h => (hdrop _).1 h, fun h => (hdrop _).2 h⟩

theorem keeps_trim : Keeps Text.trim := keeps_trimEnd.comp keeps_dropBlanks

theorem keeps_append (hu : ∀ c ∈ u, c ≠ '*') : Keeps (u ++ ·) := by
  induction u with
  | nil => exact ⟨id, id⟩
  | cons c u ih =>
    rw [List.forall_mem_cons] at hu
    exact (keeps_cons hu.1).comp (ih hu.2)

theorem keeps_continued : Keeps Layout.continued := by
  have hcont : ∀ line, Layout.continued line = ' ' :: line ∨ Layout.continued line = line :=
    fun line => by rw [Layout.continued]; split <;> simp
  constructor <;> intro line h <;> rcases hcont line with heq | heq <;> rw [heq]
  · exact (keeps_cons (by decide)).goesOn h
  · exact h
  · exact (keeps_cons (by decide)).closes h
  · exact h

/-- A block comment whose lines are changed one by one is still closed at its end. -/
theorem Closes.map {f g : List Char → List Char} {first : List Char} {others : List (List Char)}
    (hg : Keeps g) (hf : Keeps f) (h : Closes (first ++ others.flatMap ('\n' :: ·))) :
    Closes (g first ++ others.flatMap ('\n' :: f ·)) := by
  induction others generalizing first g with
  | nil =>
    rw [List.flatMap_nil, List.append_nil] at h ⊢
    exact hg.closes h
  | cons line others ih =>
    rw [List.flatMap_cons, List.cons_append, closes_newline_iff] at h ⊢
    exact ⟨hg.goesOn h.1, ih hf h.2⟩

end Reading

/-! ### Comments -/

namespace Layout

variable {text : String} {indent indent' : String}

/-- A line of a comment without the blanks at its ends. -/
def inner (line : List Char) : List Char :=
  (line.dropWhile Unicode.isBlank).rdropWhile Unicode.isBlank

/-- A line of a comment below its first, behind the indent `indent`. A star at its beginning stands
    below the star that opens the comment, which is the second character there. -/
def below (indent : String) (line : List Char) : List Char :=
  '\n' :: indent.toList ++ (if ['*'] <+: inner line then [' '] else []) ++ inner line

/-- A comment as it stands behind the indent `indent`: each of its lines without the blanks at its
    ends, and the indent in front of all of them but the first. -/
def relaid (indent text : String) : String :=
  String.ofList <|
    match text.toList.splitOn '\n' with
    | [] => []
    | first :: others => inner first ++ others.flatMap (below indent)

theorem below_eq (indent : String) (line : List Char) :
    below indent line = '\n' :: (indent.toList ++ continued (Text.trim line)) := by
  change '\n' :: indent.toList ++ (if ['*'] <+: Text.trim line then [' '] else []) ++
    Text.trim line = _
  rw [continued, List.append_assoc, List.cons_append]
  cases Text.trim line with
  | nil => rfl
  | cons c cs =>
    by_cases hc : c = '*'
    · simp [hc]
    · simp [hc, Ne.symm hc]

/-- The characters of a comment that is laid out, given its lines. -/
theorem toList_relaid {first : List Char} {others : List (List Char)}
    (h : Text.lines text.toList = first :: others) :
    (relaid indent text).toList = Text.trim first ++
      others.flatMap fun line => '\n' :: (indent.toList ++ continued (Text.trim line)) := by
  rw [Text.lines_eq_splitOn] at h
  rw [relaid, h, String.toList_ofList, funext (below_eq indent)]
  rfl

theorem exists_lines (text : String) :
    ∃ first others, Text.lines text.toList = first :: others :=
  List.exists_cons_of_ne_nil (Text.lines_ne_nil _)

/-- The lines of a comment, as they are printed. -/
theorem commentLines_eq_cons {first : List Char} {others : List (List Char)}
    (h : Text.lines text.toList = first :: others) :
    commentLines indent text = (indent ++ String.ofList (Text.trim first)) ::
      others.map fun line => indent ++ String.ofList (continued (Text.trim line)) := by
  rw [commentLines, h]
  simp only [List.map_cons, List.map_map]
  rfl

/-- What is printed of a comment behind an indent, one line below the other. -/
theorem intercalate_commentLines (indent text : String) :
    "\n".intercalate (commentLines indent text) = indent ++ relaid indent text := by
  obtain ⟨first, others, h⟩ := exists_lines text
  apply String.toList_injective
  rw [String.toList_append, toList_relaid h, commentLines_eq_cons h, Text.toList_intercalate_cons]
  simp [List.flatMap_map]

/-- A comment that is laid out is told by its lines. -/
theorem relaid_eq_intercalate (indent text : String) :
    relaid indent text = ("\n" ++ indent).intercalate (commentLines "" text) := by
  obtain ⟨first, others, h⟩ := exists_lines text
  apply String.toList_injective
  rw [toList_relaid h, commentLines_eq_cons h, Text.toList_intercalate_cons]
  simp [List.flatMap_map]

theorem newline_not_mem_continued {line : List Char} (h : '\n' ∉ line) : '\n' ∉ continued line := by
  rw [continued]
  split
  · simpa using h
  · exact h

theorem trim_continued {line : List Char} : Text.trim (continued line) = Text.trim line := by
  rw [continued]
  split
  · exact Text.trim_append (List.forall_mem_singleton.2 rfl) line
  · rfl

section

variable (hi : ∀ c ∈ indent.toList, c = ' ')
include hi

/-- A comment is laid out like the comment it was made from. -/
theorem commentLines_relaid :
    commentLines indent' (relaid indent text) = commentLines indent' text := by
  obtain ⟨first, others, h⟩ := exists_lines text
  have hline : ∀ line ∈ first :: others, '\n' ∉ Text.trim line := fun line hl hn =>
    Text.newline_not_mem_of_mem_lines (h ▸ hl) ((Text.isInfix_trim line).subset hn)
  have hlines : Text.lines (relaid indent text).toList = Text.trim first ::
      others.map fun line => indent.toList ++ continued (Text.trim line) := by
    rw [toList_relaid h, ← Text.lines_flatMap, List.flatMap_map]
    rw [List.forall_mem_cons, List.forall_mem_map] at *
    refine ⟨hline.1, fun line hl => ?_⟩
    rw [List.mem_append, not_or]
    exact ⟨fun hn => absurd (hi _ hn) (by decide), newline_not_mem_continued (hline.2 line hl)⟩
  have htrim : ∀ line, Text.trim (indent.toList ++ continued (Text.trim line)) = Text.trim line :=
    fun line => by
      rw [Text.trim_append fun c hc => hi c hc ▸ by decide, trim_continued, Text.trim_trim]
  rw [commentLines, commentLines, hlines, h]
  simp only [List.map_cons, List.map_map, Text.trim_trim, Function.comp_def, htrim]

/-- A comment that is laid out is a comment without blanks at the end of its text. -/
theorem relaid_spells (h : Lexeme.comment.Forms text.toList) :
    Kind.comment.Spells (relaid indent text) := by
  rw [Kind.comment_spells_iff]
  generalize htext : text.toList = cs at h
  cases h with
  | @lineComment tail htail =>
    -- There is one line, and only the blanks at its end are dropped.
    have hlines : Text.lines text.toList = [text.toList] := by
      have hn : ∀ line ∈ [text.toList], '\n' ∉ line := by simpa [htext] using htail
      have hjoin := Text.lines_flatMap hn
      rwa [List.flatMap_nil, List.append_nil] at hjoin
    have heq : (relaid indent text).toList = '/' :: '/' :: Text.trimEnd tail := by
      rw [toList_relaid hlines, List.flatMap_nil, List.append_nil, htext,
        Text.trim_cons (by decide), Text.trimEnd_cons (by decide)]
    have hn : ∀ c ∈ Text.trimEnd tail, c ≠ '\n' := fun c hc =>
      ne_of_mem_of_not_mem (Text.mem_of_mem_trimEnd hc) htail
    rw [heq]
    exact Lexeme.spells_lineComment hn (Text.trimEnd_trimEnd tail)
  | @blockComment inside hinside =>
    have hcloses : Reading.Closes (inside ++ ['*', '/']) :=
      Reading.blockTail_of_not_infix hinside []
    obtain ⟨first, others, hlines⟩ :=
      List.exists_cons_of_ne_nil (Text.lines_ne_nil (inside ++ ['*', '/']))
    rw [Text.eq_of_lines hlines] at hcloses
    have hlines' : Text.lines text.toList = ('/' :: '*' :: first) :: others := by
      rw [htext]
      exact Text.lines_cons (by decide) (Text.lines_cons (by decide) hlines)
    have hkeeps : Reading.Keeps fun line => indent.toList ++ continued (Text.trim line) :=
      (Reading.keeps_append fun c hc => hi c hc ▸ by decide).comp
        (Reading.keeps_continued.comp Reading.keeps_trim)
    rw [toList_relaid hlines', Text.trim_cons (by decide), Text.trimEnd_cons (by decide)]
    exact Lexeme.spells_blockComment (hcloses.map Reading.keeps_trimEnd hkeeps)

end

end Layout

end StyleDecl
