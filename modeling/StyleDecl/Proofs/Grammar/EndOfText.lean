import StyleDecl.Proofs.Grammar.Basic

/-!
# The end of the text

Only a file is derived up to the end of the text, and nothing is derived beyond it. All parts of
a derivation but the last item of a file are free of it.

* `Derives.eofFree`, `DerivesStatement.eofFree`: what is derived within a text;
* `DerivesFile.closed`: a file ends where the text does.
-/

namespace StyleDecl.Grammar

variable {keep : Bool} {c : Symbol} {i : Item} {v w : List Item}

/-! ### Items within a text -/

/-- No item stands for the end of the text. -/
def EofFree (w : List Item) : Prop := ∀ i ∈ w, i.token.kind ≠ .eof

@[simp] theorem eofFree_nil : EofFree [] := by simp [EofFree]

@[simp] theorem eofFree_cons :
    EofFree (i :: w) ↔ i.token.kind ≠ .eof ∧ EofFree w := List.forall_mem_cons

@[simp] theorem eofFree_append :
    EofFree (v ++ w) ↔ EofFree v ∧ EofFree w := List.forall_mem_append

theorem ne_eof_of_mem {kinds : List Kind} {k : Kind} (h : k ∈ kinds)
    (hk : Kind.eof ∉ kinds) : k ≠ .eof := fun he => hk (he ▸ h)

theorem Maybe.eofFree {k : Kind} {b : Bool} (h : Maybe k w b)
    (hk : k ≠ .eof) : EofFree w := by
  cases h <;> simp_all

theorem NameParts.eofFree {parts : List String} (h : NameParts w parts) : EofFree w := by
  induction h <;> simp_all

theorem Brackets.eofFree {n : Nat} (h : Brackets w n) : EofFree w := by
  induction h <;> simp_all

theorem Words.eofFree {words : List String} (h : Words w words) : EofFree w := by
  induction h with
  | nil => simp
  | cons hi _ ih => rcases hi with hi | hi <;> simp [hi, ih]

theorem EndMark.ne_eof {t : Token} (h : EndMark t) : t.kind ≠ .eof := by
  rcases h with h | h <;> simp [h]

theorem Terminator.eofFree {closers : List Kind} {before e after : List Item}
    (h : Terminator keep closers before e after) : EofFree e := by
  cases h with
  | mark hi => simp [hi.ne_eof]
  | closer | lineBreak => simp

/-- Types and members end before the text does. -/
theorem Derives.eofFree {a : c.Value} (h : Derives keep c w a) : EofFree w := by
  induction h with
  | union hl _ _ _ ihw ihv | intersection hl _ _ _ ihw ihv => simp [hl.eofFree, ihw, ihv]
  | noAlternative | noFactor => simp
  | alternative hi _ _ ihw ihv | factor hi _ _ ihw ihv => simp [hi, ihw, ihv]
  | array _ hb ih => simp [ih, hb.eofFree]
  | reference hi hp => simp [hi, hp.eofFree]
  | literal hi => rcases hi with hi | hi <;> simp [hi]
  | object hi _ ih => simp [hi, ih]
  | parentheses hi _ hj ih => simp [hi, hj, ih]
  | parameter hn hq hc _ ih => simp [ne_eof_of_mem hn (by decide), hq.eofFree nofun, hc, ih]
  | noParameter hi => simp [hi]
  | lastParameter _ hi ih => simp [hi, ih]
  | nextParameter _ hi _ ihw ihv => simp [hi, ihw, ihv]
  | call hi _ hc _ ihv ihw => simp [hi, hc, ihv, ihw]
  | index hi hn hc _ hj hd _ ihv ihw =>
    simp [hi, ne_eof_of_mem hn (by decide), hc, hj, hd, ihv, ihw]
  | property hr hk hq hc _ ih =>
    simp [hr.eofFree nofun, ne_eof_of_mem hk (by decide), hq.eofFree nofun, hc, ih]
  | method hk hq hi _ hc _ ihv ihw =>
    simp [ne_eof_of_mem hk (by decide), hq.eofFree nofun, hi, hc, ihv, ihw]
  | noMember hi => simp [hi]
  | nextMember _ he _ ihw ihv =>
    rw [eofFree_cons, Item.token_bare] at ihw
    simp [ihw, he.eofFree, ihv]

theorem DerivesStatement.eofFree {a : Statement} (h : DerivesStatement keep v w a) :
    EofFree w := by
  cases h with
  | exportDefault hu hi hd hn he => simp [hu.eofFree, hi, hd, hn, he.eofFree]
  | typeAlias hu hi hn hq hd he => simp [hu.eofFree, hi, hn, hq, hd.eofFree, he.eofFree]
  | interfaceDecl hu hi hn hb hd | classDecl hu hi hn hb hd =>
    simp [hu.eofFree, hi, hn, hb, hd.eofFree]
  | untyped hu hi hn he => simp [hu.eofFree, ne_eof_of_mem hi (by decide), hn, he.eofFree]
  | typed hu hi hn hc hd he =>
    simp [hu.eofFree, ne_eof_of_mem hi (by decide), hn, hc, hd.eofFree, he.eofFree]

/-! ### Items up to the end of a text -/

/-- A list of items whose only item for the end of the text is the last one. -/
inductive Closed : List Item → Prop
  | last {i : Item} : i.token.kind = .eof → Closed [i]
  | cons {i : Item} {w : List Item} : i.token.kind ≠ .eof → Closed w → Closed (i :: w)

theorem Closed.ne_nil (h : Closed w) : w ≠ [] := by cases h <;> simp

theorem closed_cons_iff (hi : i.token.kind ≠ .eof) :
    Closed (i :: w) ↔ Closed w :=
  ⟨fun h => by cases h with | last h => exact absurd h hi | cons _ h => exact h, .cons hi⟩

theorem Closed.of_append (h : Closed (v ++ w)) (hv : EofFree v) : Closed w := by
  induction v with
  | nil => exact h
  | cons i v ih =>
    rw [eofFree_cons] at hv
    rw [List.cons_append, closed_cons_iff hv.1] at h
    exact ih h hv.2

theorem Closed.append (hv : EofFree v) (hw : Closed w) : Closed (v ++ w) := by
  induction v with
  | nil => exact hw
  | cons i v ih =>
    rw [eofFree_cons] at hv
    exact .cons hv.1 (ih hv.2)

/-- Nothing is derived beyond the end of the text. -/
theorem DerivesFile.closed {ss : List Statement} (h : DerivesFile keep w ss) : Closed w := by
  induction h with
  | done hi => exact .last hi
  | empty hi _ ih => exact .cons (by rw [hi]; nofun) ih
  | @statement i w v a ss hd _ ih => exact .append (by simpa using hd.eofFree) ih

end StyleDecl.Grammar
