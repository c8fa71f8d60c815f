import StyleDecl.Proofs.Grammar.Words.Basic

/-!
# The words of derived types and members

No token of a type or a member is a modifier before a default export, so all of them are kept
wherever they stand. What is derived holds the words of its tokens.

* `Derives.settled`: the tokens of types and members are kept;
* `Derives.words`: types and members hold the words of their tokens.
-/

namespace StyleDecl

namespace Grammar

open Reader

variable {keep : Bool} {c : Symbol} {w v : List Item} {i j : Item}

/-- The tokens of the items `w` are kept, whatever comes after them. -/
def Settled (w : List Item) : Prop :=
  ∀ ts, Token.kept (w.map Item.token ++ ts) = w.map Item.token ++ Token.kept ts

theorem Settled.nil : Settled [] := fun _ => rfl

theorem Settled.append (hw : Settled w) (hv : Settled v) : Settled (w ++ v) := by
  intro ts
  rw [List.map_append, List.append_assoc, hw, hv, List.append_assoc]

theorem Settled.cons (hi : i.token.isModifier = false) (hw : Settled w) : Settled (i :: w) := by
  intro ts
  rw [List.map_cons, List.cons_append, Token.kept_cons_of_not hi, hw, List.cons_append]

/-- Whatever comes before a token that is no modifier is kept. -/
theorem Settled.key (hj : j.token.isModifier = false) (hw : Settled (j :: w)) :
    Settled (i :: j :: w) := by
  intro ts
  have hw := hw ts
  simp only [List.map_cons, List.cons_append] at hw ⊢
  rw [Token.kept_cons_of_head hj, hw]

theorem isModifier_of_punct {p : Punct} (h : i.token.kind = .punct p) :
    i.token.isModifier = false := by
  simp [Token.isModifier, h]

theorem settled_token (h : i.token.isModifier = false) : Settled [i] := .cons h .nil

/-! ### Parts of declarations -/

theorem Maybe.settled {k : Kind} {b : Bool} (h : Maybe k w b)
    (hk : k ≠ .keyword .exportWord ∧ k ≠ .keyword .declare) : Settled w := by
  cases h with
  | absent => exact .nil
  | present hi => exact settled_token (by simp [Token.isModifier, hi, hk])

/-- A key is kept, since what comes after it is no modifier. -/
theorem Maybe.settled_key {b : Bool} {p : Punct} (h : Maybe (.punct .question) w b)
    (hj : j.token.kind = .punct p) (hv : Settled v) : Settled (i :: w ++ j :: v) := by
  have hjv : Settled (j :: v) := .cons (isModifier_of_punct hj) hv
  cases h with
  | absent => exact .key (isModifier_of_punct hj) hjv
  | present hq => exact .key (isModifier_of_punct hq) (.cons (isModifier_of_punct hq) hjv)

theorem NameParts.settled {parts : List String} (h : NameParts w parts) : Settled w := by
  induction h with
  | nil => exact .nil
  | cons hd hn _ ih =>
    exact .cons (isModifier_of_punct hd) (.cons (by simp [Token.isModifier, hn]) ih)

theorem Brackets.settled {n : Nat} (h : Brackets w n) : Settled w := by
  induction h with
  | nil => exact .nil
  | cons hb hc _ ih => exact .cons (isModifier_of_punct hb) (.cons (isModifier_of_punct hc) ih)

theorem Terminator.settled {closers : List Kind} {before after : List Item}
    (h : Terminator keep closers before w after) : Settled w := by
  cases h with
  | mark hi => rcases hi with hi | hi <;> exact settled_token (isModifier_of_punct hi)
  | closer | lineBreak => exact .nil

/-- The tokens of types and members are kept. -/
theorem Derives.settled {a : c.Value} (h : Derives keep c w a) : Settled w := by
  induction h with
  | union hl _ _ _ ihw ihv => exact ((hl.settled (by simp)).append ihw).append ihv
  | intersection hl _ _ _ ihw ihv => exact ((hl.settled (by simp)).append ihw).append ihv
  | noAlternative | noFactor => exact .nil
  | alternative hi _ _ ihw ihv => exact (ihw.append ihv).cons (isModifier_of_punct hi)
  | factor hi _ _ ihw ihv => exact (ihw.append ihv).cons (isModifier_of_punct hi)
  | array _ hb ih => exact ih.append hb.settled
  | reference hi hp => exact hp.settled.cons (by simp [Token.isModifier, hi])
  | literal hi => exact settled_token (by rcases hi with hi | hi <;> simp [Token.isModifier, hi])
  | object hi _ ih => exact ih.cons (isModifier_of_punct hi)
  | parentheses hi _ hj ih =>
    exact (ih.append (settled_token (isModifier_of_punct hj))).cons (isModifier_of_punct hi)
  | parameter _ hq hc _ ih => exact hq.settled_key hc ih
  | noParameter hi => exact settled_token (isModifier_of_punct hi)
  | lastParameter _ hi ih => exact ih.append (settled_token (isModifier_of_punct hi))
  | nextParameter _ hi _ ihw ihv => exact ihw.append (ihv.cons (isModifier_of_punct hi))
  | call hi _ hc _ ihv ihw =>
    exact (ihv.append (ihw.cons (isModifier_of_punct hc))).cons (isModifier_of_punct hi)
  | index hi _ hc _ hj hd _ ihv ihw =>
    have hkey := ihw.cons (isModifier_of_punct hd) |>.cons (isModifier_of_punct hj)
    have hname := (ihv.append hkey).cons (isModifier_of_punct hc)
    exact (hname.key (isModifier_of_punct hc)).cons (isModifier_of_punct hi)
  | property hr _ hq hc _ ih =>
    rw [List.append_assoc]
    exact (hr.settled (by simp)).append (hq.settled_key hc ih)
  | method _ hq hi _ hc _ ihv ihw =>
    have hsignature := ihv.append (ihw.cons (isModifier_of_punct hc))
    simpa using hq.settled_key hi hsignature
  | noMember hi => exact settled_token (isModifier_of_punct hi)
  | nextMember _ he _ ihw ihv => exact (Settled.append (w := _ :: _) ihw he.settled).append ihv

/-! ### Words of what is derived -/

/-- The words of what is derived from a symbol. -/
def Symbol.words : (c : Symbol) → c.Value → List Word
  | .union, t | .intersection, t | .array, t | .primary, t => TypeExpr.words t
  | .alternatives, ts | .factors, ts => TypeExpr.allWords ts
  | .parameter, p => Parameter.words p
  | .parameters, ps => Parameter.allWords ps
  | .member, m => Member.words m
  | .members, ms => Member.allWords ms

theorem Maybe.words_punct {p : Punct} {b : Bool} (h : Maybe (.punct p) w b) :
    Item.words w = [] := by
  cases h with
  | absent => rfl
  | present hi => simp [Token.word?_of_punct hi]

theorem words_keyword {k : Keyword} (hi : i.token.kind = .keyword k) (hs : Spelled i) :
    i.token.word? = some (.ofText k.text) := by
  have hk : i.token.kind ∈ Kind.keys := by
    rw [hi]
    exact List.mem_append_left _ (List.mem_cons_of_mem _ (List.mem_map_of_mem k.mem_all))
  rw [Token.word?_of_mem hk, text_of_keyword_spells (hs.spells hi nofun)]

theorem words_identifier (hi : i.token.kind = .identifier) :
    i.token.word? = some (.ofText i.token.text) :=
  Token.word?_of_mem (by rw [hi]; decide)

theorem words_name (hi : i.token.kind ∈ Kind.names) :
    i.token.word? = some (.ofText i.token.text) :=
  Token.word?_of_mem (List.mem_append_left _ hi)

theorem Maybe.words_readonly {b : Bool} (h : Maybe (.keyword .readonly) w b)
    (hw : ∀ i ∈ w, Spelled i) :
    Item.words w = if b then [.ofText Keyword.readonly.text] else [] := by
  cases h with
  | absent => rfl
  | present hi => simp [words_keyword hi (hw _ List.mem_cons_self)]

theorem NameParts.words {parts : List String} (h : NameParts w parts) :
    Item.words w = parts.map Word.ofText := by
  induction h with
  | nil => rfl
  | cons hd hn _ ih => simp [Token.word?_of_punct hd, words_identifier hn, ih]

theorem Brackets.words {n : Nat} (h : Brackets w n) : Item.words w = [] := by
  induction h with
  | nil => rfl
  | cons hb hc _ ih => simp [Token.word?_of_punct hb, Token.word?_of_punct hc, ih]

theorem Terminator.words {closers : List Kind} {before after : List Item}
    (h : Terminator keep closers before w after) : Item.words w = [] := by
  cases h with
  | mark hi => rcases hi with hi | hi <;> simp [Token.word?_of_punct hi]
  | closer | lineBreak => rfl

theorem words_memberNotes (keep : Bool) (i : Item) (ms : List Member) :
    Member.allWords (memberNotes keep i ++ ms) = Member.allWords ms := by
  rw [Member.allWords_eq_flatMap, Member.allWords_eq_flatMap, List.flatMap_append,
    flatMap_memberNotes (fun m hm => by cases m <;> first | rfl | cases hm), List.nil_append]

/-- Types and members hold the words that they are derived from. -/
theorem Derives.words {a : c.Value} (h : Derives keep c w a) (hw : ∀ i ∈ w, Spelled i) :
    Item.words w = c.words a := by
  induction h with try simp only [List.append_assoc, List.cons_append, List.forall_mem_append,
    List.forall_mem_cons] at hw
  | union hl _ _ hu iht ihts =>
    obtain rfl := joined_iff.1 hu
    simp only [Item.words_append, hl.words_punct, iht hw.2.1, ihts hw.2.2, List.nil_append]
    exact (TypeExpr.apply_combined (g := TypeExpr.allWords) (fun _ => rfl)
      (fun _ => List.append_nil _) _ _).symm
  | noAlternative | noFactor => rfl
  | alternative hi _ _ iht ihts | factor hi _ _ iht ihts =>
    simp [Token.word?_of_punct hi, iht hw.2.1, ihts hw.2.2, Symbol.words, TypeExpr.allWords]
  | intersection hl _ _ hu iht ihts =>
    obtain rfl := joined_iff.1 hu
    simp only [Item.words_append, hl.words_punct, iht hw.2.1, ihts hw.2.2, List.nil_append]
    exact (TypeExpr.apply_combined (g := TypeExpr.allWords) (fun _ => rfl)
      (fun _ => List.append_nil _) _ _).symm
  | array _ hb ih =>
    simp only [Item.words_append, hb.words, ih hw.1, List.append_nil]
    exact (TypeExpr.apply_iterate_array (f := TypeExpr.words) (fun _ => rfl) _ _).symm
  | reference hi hp =>
    have hparts := List.forall_mem_cons.2 ⟨hw.1.spells hi (by decide), hp.spells hw.2⟩
    simp only [Item.words_cons, words_identifier hi, hp.words]
    exact (TypeExpr.words_reference hparts).symm
  | literal hi =>
    have hk : _ ∈ Kind.keys := List.mem_append_right _ (by simpa using hi)
    simp [Token.word?_of_mem hk, Symbol.words, TypeExpr.words]
  | object hi _ ih => simp [Token.word?_of_punct hi, ih hw.2, Symbol.words, TypeExpr.words]
  | parentheses hi _ hj ih =>
    simp [Token.word?_of_punct hi, Token.word?_of_punct hj, ih hw.2.1, Symbol.words]
  | parameter hn hq hc _ ih =>
    simp [words_name hn, hq.words_punct, Token.word?_of_punct hc, ih hw.2.2.2, Symbol.words,
      Parameter.words]
  | noParameter hi => simp [Token.word?_of_punct hi, Symbol.words, Parameter.allWords]
  | lastParameter _ hi ih =>
    simp [Token.word?_of_punct hi, ih hw.1, Symbol.words, Parameter.allWords]
  | nextParameter _ hi _ ihp ihps =>
    simp [Token.word?_of_punct hi, ihp hw.1, ihps hw.2.2, Symbol.words, Parameter.allWords]
  | call hi _ hc _ ihps iht =>
    simp [Token.word?_of_punct hi, Token.word?_of_punct hc, ihps hw.2.1, iht hw.2.2.2,
      Symbol.words, Member.words]
  | index hi hn hc _ hj hd _ ihk iht =>
    simp [Token.word?_of_punct hi, words_name hn, Token.word?_of_punct hc,
      Token.word?_of_punct hj, Token.word?_of_punct hd, ihk hw.2.2.2.1, iht hw.2.2.2.2.2.2,
      Symbol.words, Member.words, Parameter.words]
  | property hr hk hq hc _ ih =>
    simp [hr.words_readonly hw.1, Token.word?_of_mem hk, hq.words_punct,
      Token.word?_of_punct hc, ih hw.2.2.2.2, Symbol.words, Member.words]
  | method hk hq hi _ hc _ ihps iht =>
    simp [Token.word?_of_mem hk, hq.words_punct, Token.word?_of_punct hi,
      Token.word?_of_punct hc, ihps hw.2.2.2.1, iht hw.2.2.2.2.2, Symbol.words, Member.words]
  | @noMember i hi =>
    have hnotes := words_memberNotes keep i []
    rw [List.append_nil] at hnotes
    simp [Token.word?_of_punct hi, Symbol.words, hnotes, Member.allWords]
  | nextMember _ he _ ihm ihms =>
    have hm := ihm (List.forall_mem_cons.2 ⟨hw.1.bare, hw.2.1⟩)
    rw [Item.words_cons, Item.token_bare] at hm
    simp only [Item.words_append, Item.words_cons, hm, he.words, ihms hw.2.2.2, List.append_nil]
    exact (words_memberNotes keep _ (_ :: _)).symm

end Grammar

end StyleDecl
