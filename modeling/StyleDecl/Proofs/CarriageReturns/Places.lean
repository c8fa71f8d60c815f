import StyleDecl.Proofs.Cuts
import StyleDecl.Proofs.Grammar.Redrawn

/-!
# Texts with carriage returns

A text with a carriage return before each line feed has the same lines as the text with line feeds
alone, but for blanks at their ends, and so comments are laid out alike. Places in the two texts
stand for each other if the same text comes before them and after them, up to white space.

* `Text.crlf`: a carriage return before each line feed;
* `Layout.commentLines_crlf`: comments are laid out alike;
* `Abreast`: places in the two texts that stand for each other.
-/

namespace StyleDecl

/-! ### Line ends -/

namespace Text

variable {c d : Char} {cs line : List Char}

/-- The characters with a carriage return before each line feed. -/
def crlf : List Char → List Char
  | [] => []
  | c :: cs => if c = '\n' then '\r' :: '\n' :: crlf cs else c :: crlf cs

@[simp] theorem crlf_nil : crlf [] = [] := rfl

@[simp] theorem crlf_newline (cs : List Char) : crlf ('\n' :: cs) = '\r' :: '\n' :: crlf cs := rfl

theorem crlf_cons (hc : c ≠ '\n') (cs : List Char) : crlf (c :: cs) = c :: crlf cs := if_neg hc

@[simp] theorem crlf_append (cs ds : List Char) : crlf (cs ++ ds) = crlf cs ++ crlf ds := by
  induction cs with
  | nil => rfl
  | cons c cs ih =>
    by_cases hc : c = '\n'
    · simp [hc, ih]
    · rw [List.cons_append, crlf_cons hc, crlf_cons hc, ih, List.cons_append]

theorem crlf_of_not_mem (h : '\n' ∉ cs) : crlf cs = cs := by
  induction cs with
  | nil => rfl
  | cons c cs ih =>
    rw [List.mem_cons, not_or] at h
    rw [crlf_cons (Ne.symm h.1), ih h.2]

theorem mem_crlf (h : c ∈ crlf cs) : c ∈ cs ∨ c = '\r' := by
  induction cs with
  | nil => cases h
  | cons d cs ih =>
    rw [crlf] at h
    split at h
    · next hd =>
      rw [List.mem_cons, List.mem_cons] at h
      obtain h | rfl | h := h
      · exact .inr h
      · exact .inl (hd ▸ List.mem_cons_self)
      · exact (ih h).imp_left (List.mem_cons_of_mem d)
    · obtain rfl | h := List.mem_cons.1 h
      · exact .inl List.mem_cons_self
      · exact (ih h).imp_left (List.mem_cons_of_mem d)

/-- The first character is the same unless it is a line feed. -/
theorem head?_crlf (hd : d ≠ '\r') (hn : d ≠ '\n') :
    (crlf cs).head? = some d ↔ cs.head? = some d := by
  cases cs with
  | nil => rfl
  | cons c cs =>
    by_cases hc : c = '\n'
    · simp [hc, Ne.symm hd, Ne.symm hn]
    · rw [crlf_cons hc, List.head?_cons, List.head?_cons]

theorem count_crlf (cs : List Char) : (crlf cs).count '\n' = cs.count '\n' := by
  induction cs with
  | nil => rfl
  | cons c cs ih =>
    by_cases hc : c = '\n'
    · rw [hc, crlf_newline, List.count_cons_of_ne (by decide), List.count_cons_self,
        List.count_cons_self, ih]
    · rw [crlf_cons hc, List.count_cons_of_ne hc, List.count_cons_of_ne hc, ih]

/-! ### Lines of comments -/

/-- The lines of the text have carriage returns at their ends, all but the last of them. -/
theorem lines_crlf (cs : List Char) :
    List.Forall₂ (fun line line' => line' = line ∨ line' = line ++ ['\r']) (lines cs)
      (lines (crlf cs)) := by
  induction cs with
  | nil => exact .cons (.inl rfl) .nil
  | cons c cs ih =>
    by_cases hc : c = '\n'
    · have hfeed : lines ('\r' :: '\n' :: crlf cs) = ['\r'] :: lines (crlf cs) := rfl
      rw [hc, crlf_newline, hfeed, lines, if_pos rfl]
      exact .cons (.inr rfl) ih
    · rw [crlf_cons hc]
      cases hlines : lines cs with
      | nil => exact absurd hlines (lines_ne_nil cs)
      | cons line others =>
        rw [hlines] at ih
        obtain ⟨line', others', hline, hothers, hlines'⟩ := List.forall₂_cons_left_iff.1 ih
        rw [lines_cons hc hlines, lines_cons hc hlines']
        exact .cons (hline.imp (congrArg (c :: ·)) (congrArg (c :: ·))) hothers

theorem trimEnd_append_return (line : List Char) : trimEnd (line ++ ['\r']) = trimEnd line :=
  List.rdropWhile_concat_pos Unicode.isBlank line '\r' (by decide)

theorem trim_append_return (line : List Char) : trim (line ++ ['\r']) = trim line := by
  rw [trim, trim, List.dropWhile_append]
  split
  · next h =>
    rw [List.isEmpty_iff.1 h]
    rfl
  · exact trimEnd_append_return _

/-- Trimmed lines do not have carriage returns at their ends. -/
theorem map_trim_lines_crlf (cs : List Char) :
    (lines (crlf cs)).map trim = (lines cs).map trim := by
  rw [← List.forall₂_eq_eq_eq, List.forall₂_map_left_iff, List.forall₂_map_right_iff]
  refine (lines_crlf cs).flip.imp fun line' line hline => ?_
  obtain rfl | rfl := hline
  · rfl
  · exact trim_append_return line

end Text

/-- A comment is laid out like the same comment with carriage returns. -/
theorem Layout.commentLines_crlf (indent : String) (cs : List Char) :
    commentLines indent (String.ofList (Text.crlf cs)) =
      commentLines indent (String.ofList cs) := by
  rw [commentLines, commentLines, String.toList_ofList, String.toList_ofList,
    Text.map_trim_lines_crlf]

/-! ### Places -/

section

variable {before rest before' rest' blanks : List Char}

theorem lineBehind_crlf (before : List Char) :
    lineBehind (Text.crlf before) = lineBehind before := by
  rw [lineBehind, lineBehind, Text.count_crlf]

theorem columnBehind_crlf (before : List Char) :
    columnBehind (Text.crlf before) = columnBehind before := by
  rw [columnBehind, columnBehind]
  induction before using List.reverseRecOn with
  | nil => rfl
  | append_singleton before c ih =>
    by_cases hc : c = '\n'
    · simp [hc]
    · rw [Text.crlf_append, Text.crlf_cons hc]
      simpa [hc] using ih

/-- The place behind the characters `before'`, where `rest'` is left, stands for the place behind
    `before`, where `rest` is left: it is the same place, or the carriage return before a line feed
    has already been passed. -/
inductive Abreast : (before rest before' rest' : List Char) → Prop
  | same (before rest : List Char) : Abreast before rest (Text.crlf before) (Text.crlf rest)
  | passed (before tail : List Char) :
    Abreast before ('\n' :: tail) (Text.crlf before ++ ['\r']) ('\n' :: Text.crlf tail)

/-- Behind white space the two places are the same. -/
theorem Abreast.skip (h : Abreast before (blanks ++ rest) before' rest')
    (hblanks : ∀ b ∈ blanks, b.isWhitespace) (hrest : rest.head? ≠ some '\n') :
    ∃ blanks', rest' = blanks' ++ Text.crlf rest ∧
      before' ++ blanks' = Text.crlf (before ++ blanks) ∧ ∀ b ∈ blanks', b.isWhitespace := by
  have hcrlf {bs : List Char} (hbs : ∀ b ∈ bs, b.isWhitespace) :
      ∀ b ∈ Text.crlf bs, b.isWhitespace := fun b hb => by
    obtain hb | rfl := Text.mem_crlf hb
    · exact hbs b hb
    · rfl
  generalize htext : blanks ++ rest = text at h
  cases h with
  | same =>
    rw [← htext]
    exact ⟨Text.crlf blanks, by simp, by simp, hcrlf hblanks⟩
  | passed tail =>
    cases blanks with
    | nil =>
      rw [List.nil_append] at htext
      exact absurd (htext ▸ rfl) hrest
    | cons b blanks =>
      obtain ⟨rfl, rfl⟩ := List.cons.inj htext
      rw [List.forall_mem_cons] at hblanks
      refine ⟨'\n' :: Text.crlf blanks, by simp, by simp, List.forall_mem_cons.2 ⟨rfl, ?_⟩⟩
      exact hcrlf hblanks.2

/-- Scanning goes on behind white space. -/
theorem Abreast.finds_blanks (h : Abreast before (blanks ++ rest) before' rest')
    (hblanks : ∀ b ∈ blanks, b.isWhitespace) (hrest : rest.head? ≠ some '\n') :
    Cursor.Finds ⟨rest', Position.start.after before'⟩ []
      ⟨Text.crlf rest, Position.start.after (Text.crlf (before ++ blanks))⟩ := by
  obtain ⟨blanks', rfl, hbehind, hblanks'⟩ := h.skip hblanks hrest
  rw [← hbehind, Position.after_append]
  exact Cursor.finds_blanks hblanks'

end

end StyleDecl
