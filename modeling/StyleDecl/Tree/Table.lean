/-!
# Tables

A table maps keys to values and remembers the order in which its keys were first
entered. No key is entered twice.
-/

namespace StyleDecl

/-- A map from strings to values of type `α`, in the order of entry. -/
structure Table (α : Type) where
  /-- The entries, in order. -/
  entries : List (String × α)
  /-- No two entries have the same key. -/
  nodup : (entries.map Prod.fst).Nodup

namespace Table

variable {α : Type}

/-- The table without entries. -/
def empty : Table α := ⟨[], List.nodup_nil⟩

/-- The keys of a table, in order. -/
def keys (t : Table α) : List String := t.entries.map Prod.fst

/-- The value at a key. -/
def get? (t : Table α) (key : String) : Option α := t.entries.lookup key

/-- The entries with `value` at `key`: in place of its value, or else at the end. -/
def insertInto (entries : List (String × α)) (key : String) (value : α) : List (String × α) :=
  match entries with
  | [] => [(key, value)]
  | (k, v) :: rest =>
    if k = key then (k, value) :: rest else (k, v) :: insertInto rest key value

theorem mem_keys_insertInto {entries : List (String × α)} {key k : String} {value : α} :
    k ∈ (insertInto entries key value).map Prod.fst ↔ k ∈ entries.map Prod.fst ∨ k = key := by
  induction entries with
  | nil => simp [insertInto]
  | cons e rest ih =>
    rw [insertInto]
    split
    · grind
    · simp only [List.map_cons, List.mem_cons, ih, or_assoc]

/-- Entering `value` at `key`: a key that is there keeps its place. -/
def insert (t : Table α) (key : String) (value : α) : Table α where
  entries := insertInto t.entries key value
  nodup := by
    obtain ⟨entries, nodup⟩ := t
    induction entries with
    | nil => simp [insertInto]
    | cons e rest ih =>
      rw [List.map_cons, List.nodup_cons] at nodup
      simp only [insertInto]
      split
      · rwa [List.map_cons, List.nodup_cons]
      · next h =>
        rw [List.map_cons, List.nodup_cons]
        refine ⟨fun hmem => ?_, ih nodup.2⟩
        rcases mem_keys_insertInto.1 hmem with hmem | heq
        · exact nodup.1 hmem
        · exact h heq

/-- The table of a list of entries; of several at one key the last counts. -/
def ofList (entries : List (String × α)) : Table α :=
  entries.foldl (fun t e => t.insert e.1 e.2) empty

/-- The entries in the order of the code points of their keys. -/
def sorted (t : Table α) : List (String × α) :=
  t.entries.mergeSort fun e f => decide (e.1 ≤ f.1)

/-- Whether two tables hold the same values at the same keys, whatever the order. -/
def equiv [DecidableEq α] (t u : Table α) : Bool :=
  t.keys.length = u.keys.length && t.entries.all fun e => u.get? e.1 = some e.2

end Table

end StyleDecl
