import Mathlib.Data.List.Nodup
import StyleDecl.Proofs.Declared

/-!
# Entries of tables

No key is entered twice into a table, so its entries are what can be looked up in it
(`Table.get?_eq_some_iff`), and in the order of the code points of their keys each comes strictly
before the next (`Table.pairwise_lt_sorted`).
-/

namespace StyleDecl

/-- Different strings in order come strictly one after the other. -/
theorem Literal.pairwise_lt {strings : List String} (h : strings.Pairwise (· ≤ ·))
    (hnodup : strings.Nodup) : strings.Pairwise (· < ·) := by
  refine (h.and hnodup).imp fun ⟨hle, hne⟩ => ?_
  exact String.not_le.1 fun hge => hne (String.le_antisymm hle hge)

namespace Table

variable {α : Type} {entries : List (String × α)} {key k : String} {value : α}

/-- What is looked up among entries with different keys is what was entered. -/
theorem lookup_eq_some_iff (h : (entries.map Prod.fst).Nodup) :
    entries.lookup key = some value ↔ (key, value) ∈ entries := by
  induction entries with
  | nil => simp
  | cons e entries ih =>
    obtain ⟨k, v⟩ := e
    rw [List.map_cons, List.nodup_cons] at h
    rw [List.lookup_cons, List.mem_cons, Prod.mk.injEq]
    by_cases hk : key = k
    · subst hk
      have hkey : key ∉ entries.map Prod.fst := h.1
      have hmem : (key, value) ∉ entries :=
        fun hmem => hkey (List.mem_map_of_mem (f := Prod.fst) hmem)
      simp [hmem, eq_comm]
    · have hbeq : (key == k) = false := beq_false_of_ne hk
      simp [hbeq, hk, ih h.2]

theorem get?_eq_some_iff {t : Table α} : t.get? key = some value ↔ (key, value) ∈ t.entries :=
  lookup_eq_some_iff t.nodup

theorem lookup_insertInto : (insertInto entries key value).lookup k =
    if k = key then some value else entries.lookup k := by
  induction entries with
  | nil => grind [insertInto]
  | cons e entries ih => grind [insertInto]

/-- What is looked up after an insertion. -/
theorem get?_insert (t : Table α) (key k : String) (value : α) :
    (t.insert key value).get? k = if k = key then some value else t.get? k :=
  lookup_insertInto

/-- In order, the entries come strictly one after the other. -/
theorem pairwise_lt_sorted (t : Table α) : t.sorted.Pairwise fun e f => e.1 < f.1 := by
  have hnodup : (t.sorted.map Prod.fst).Nodup := (t.sorted_perm.map Prod.fst).nodup_iff.2 t.nodup
  exact List.pairwise_map.1 (Literal.pairwise_lt (List.pairwise_map.2 t.pairwise_sorted) hnodup)

end Table

end StyleDecl
