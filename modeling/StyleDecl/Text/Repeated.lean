/-!
# Repeated texts

A text written several times in a row.
-/

namespace StyleDecl.Text

/-- The text `s` written `n` times. Nothing is written for the empty text, however
    often. -/
def repeated (n : Nat) (s : String) : String :=
  if s = "" then "" else String.join (List.replicate n s)

/-- Without the shortcut for the empty text, the copies are joined. -/
theorem repeated_eq_join (n : Nat) (s : String) :
    repeated n s = String.join (List.replicate n s) := by
  rw [repeated]
  split
  · next h =>
    subst h
    induction n with
    | zero => rfl
    | succ n ih => rw [List.replicate_succ, String.join_cons, ← ih, String.empty_append]
  · rfl

end StyleDecl.Text
