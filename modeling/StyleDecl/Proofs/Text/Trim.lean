import Mathlib.Data.List.DropRight
import StyleDecl.Text.Trim

/-!
# Trimmed texts and lines

A trimmed text neither begins nor ends with a blank, so trimming it again changes
nothing, and blanks in front of a text make no difference to what trimming leaves of
it. The lines of a text are the texts between its line feeds, and they make up the
text again.
-/

namespace StyleDecl.Text

open Unicode

variable {c : Char} {cs text line : List Char} {others : List (List Char)}

/-! ### Trimming -/

@[simp] theorem trimEnd_trimEnd (text : List Char) : trimEnd (trimEnd text) = trimEnd text :=
  List.rdropWhile_idempotent isBlank text

theorem isPrefix_trimEnd (text : List Char) : trimEnd text <+: text :=
  List.rdropWhile_prefix isBlank text

theorem mem_of_mem_trimEnd (h : c ∈ trimEnd text) : c ∈ text := (isPrefix_trimEnd text).subset h

/-- A text is trimmed behind its first character if this is no blank. -/
theorem trimEnd_cons (hc : isBlank c = false) (text : List Char) :
    trimEnd (c :: text) = c :: trimEnd text := by
  rw [trimEnd, trimEnd, List.reverse_cons, List.dropWhile_append]
  split
  · next h =>
    rw [List.isEmpty_iff.1 h]
    simp [hc]
  · simp

/-- A text that ends with no blank is left alone. -/
theorem trimEnd_append_singleton (hc : isBlank c = false) (text : List Char) :
    trimEnd (text ++ [c]) = text ++ [c] :=
  List.rdropWhile_concat_neg isBlank text c (by simp [hc])

/-- Blanks behind a text that ends with no blank are dropped. -/
theorem trimEnd_append_blanks (htext : ∀ c ∈ text.getLast?, isBlank c = false)
    (hcs : ∀ c ∈ cs, isBlank c) : trimEnd (text ++ cs) = text := by
  induction cs using List.reverseRecOn with
  | nil =>
    rw [List.append_nil]
    refine List.rdropWhile_eq_self_iff.2 fun hne => ?_
    rw [htext _ (List.getLast?_eq_some_getLast hne)]
    exact Bool.false_ne_true
  | append_singleton cs c ih =>
    rw [List.forall_mem_append, List.forall_mem_singleton] at hcs
    rw [← List.append_assoc]
    exact (List.rdropWhile_concat_pos isBlank _ c hcs.2).trans (ih hcs.1)

/-- What is dropped at the end of a text are all the blanks there. -/
theorem eq_trimEnd_append (text : List Char) :
    ∃ blanks, text = trimEnd text ++ blanks ∧ (∀ b ∈ blanks, isBlank b) ∧
      ∀ c ∈ (trimEnd text).getLast?, isBlank c = false := by
  refine ⟨text.rtakeWhile isBlank, List.rdropWhile_append_rtakeWhile.symm,
    fun _ => List.mem_rtakeWhile_imp, fun c hc => ?_⟩
  have hne : trimEnd text ≠ [] := by
    intro hnil
    rw [hnil] at hc
    cases hc
  obtain rfl := Option.some_inj.1 ((List.getLast?_eq_some_getLast hne).symm.trans hc)
  exact Bool.eq_false_iff.2 (List.rdropWhile_last_not isBlank text hne)

theorem trim_cons (hc : isBlank c = false) (text : List Char) :
    trim (c :: text) = c :: trimEnd text := by
  rw [trim, List.dropWhile_cons_of_neg (by simp [hc]), trimEnd_cons hc]

theorem isInfix_trim (text : List Char) : trim text <:+: text :=
  (isPrefix_trimEnd _).isInfix.trans (List.dropWhile_suffix _).isInfix

@[simp] theorem trim_trim (text : List Char) : trim (trim text) = trim text := by
  have hhead := List.head?_dropWhile_not isBlank text
  rw [trim.eq_1 text]
  cases hd : text.dropWhile isBlank with
  | nil => rfl
  | cons c cs =>
    rw [hd] at hhead
    rw [trimEnd_cons hhead, trim_cons hhead, trimEnd_trimEnd]

/-- Blanks in front of a text are trimmed. -/
theorem trim_append (hcs : ∀ c ∈ cs, isBlank c) (text : List Char) :
    trim (cs ++ text) = trim text := by
  rw [trim, trim, List.dropWhile_append_of_pos hcs]

/-! ### Lines -/

theorem lines_eq_splitOn (text : List Char) : lines text = text.splitOn '\n' := by
  induction text with
  | nil => rfl
  | cons c text ih =>
    rw [lines, List.splitOn_cons_eq_if_modifyHead, ih]
    by_cases hc : c = '\n'
    · simp [hc]
    · cases h : text.splitOn '\n' with
      | nil => exact absurd (ih.trans h) (lines_ne_nil text)
      | cons => simp [hc]

/-- There is no line feed within a line. -/
theorem newline_not_mem_of_mem_lines (h : line ∈ lines text) : '\n' ∉ line := by
  induction text generalizing line with
  | nil =>
    obtain rfl := List.mem_singleton.1 h
    exact List.not_mem_nil
  | cons c text ih =>
    rw [lines] at h
    split at h
    · obtain rfl | h := List.mem_cons.1 h
      · exact List.not_mem_nil
      · exact ih h
    · next hc =>
      split at h
      · next hlines => exact absurd hlines (lines_ne_nil text)
      · next first others hlines =>
        obtain rfl | h := List.mem_cons.1 h
        · rw [List.mem_cons, not_or]
          exact ⟨Ne.symm hc, ih (hlines ▸ List.mem_cons_self)⟩
        · exact ih (hlines ▸ List.mem_cons_of_mem _ h)

theorem lines_cons (hc : c ≠ '\n') (h : lines text = line :: others) :
    lines (c :: text) = (c :: line) :: others := by
  rw [lines, if_neg hc, h]

theorem intercalate_newline (line : List Char) (others : List (List Char)) :
    ['\n'].intercalate (line :: others) = line ++ others.flatMap ('\n' :: ·) := by
  induction others generalizing line with
  | nil => simp
  | cons l others ih => rw [List.intercalate_cons_cons, ih]; simp

/-- A text is made up of its lines. -/
theorem eq_of_lines (h : lines text = line :: others) :
    text = line ++ others.flatMap ('\n' :: ·) := by
  rw [← intercalate_newline, ← h, lines_eq_splitOn, List.intercalate_splitOn]

/-- Lines put together are taken apart again. -/
theorem lines_flatMap (h : ∀ l ∈ line :: others, '\n' ∉ l) :
    lines (line ++ others.flatMap ('\n' :: ·)) = line :: others := by
  rw [← intercalate_newline, lines_eq_splitOn,
    List.splitOn_intercalate '\n' h (List.cons_ne_nil _ _)]

/-- The characters of texts put together with a separator between them. -/
theorem toList_intercalate_cons (sep s : String) (l : List String) :
    (sep.intercalate (s :: l)).toList = s.toList ++ l.flatMap fun s => sep.toList ++ s.toList := by
  induction l generalizing s with
  | nil => simp
  | cons s' l ih =>
    rw [String.intercalate_cons_cons, String.toList_append, String.toList_append, ih]
    simp

end StyleDecl.Text
