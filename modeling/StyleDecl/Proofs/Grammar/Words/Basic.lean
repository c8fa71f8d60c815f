import StyleDecl.Proofs.Denoted
import StyleDecl.Proofs.WellFormed

/-!
# The words of declarations

Names, keywords, numbers and string literals are words, and everything else in a text is
there to tell words apart. A declaration holds all words that it is derived from, in
order, with one exception: the modifiers before a default export are lost.

* `TypeExpr.words`, `Member.words`, `Statement.words`: the words of a declaration;
* `Token.kept`: tokens without the modifiers before a default export.
-/

namespace StyleDecl

/-! ### Words of tokens -/

/-- The word that a token is, if it is one. -/
def Token.word? (t : Token) : Option Word :=
  if t.kind ∈ Kind.keys then some (.ofText t.text) else none

/-- The words among tokens. -/
def Token.words (ts : List Token) : List Word := ts.filterMap Token.word?

/-- The words among the tokens of items. -/
def Item.words (w : List Item) : List Word := Token.words (w.map Item.token)

section

variable {t : Token} {i : Item} {w : List Item}

theorem Token.word?_of_mem (h : t.kind ∈ Kind.keys) : t.word? = some (.ofText t.text) := if_pos h

theorem Token.word?_of_punct {p : Punct} (h : t.kind = .punct p) : t.word? = none :=
  if_neg fun hk => by rw [h] at hk; simp [Kind.keys, Kind.names] at hk

theorem Token.word?_of_comment (h : t.kind = .comment) : t.word? = none :=
  if_neg fun hk => by rw [h] at hk; simp [Kind.keys, Kind.names] at hk

theorem Token.words_append (ts us : List Token) :
    Token.words (ts ++ us) = Token.words ts ++ Token.words us := List.filterMap_append

@[simp] theorem Item.words_nil : Item.words [] = [] := rfl

@[simp] theorem Item.words_cons (i : Item) (w : List Item) :
    Item.words (i :: w) = i.token.word?.toList ++ Item.words w := by
  rw [Item.words, List.map_cons, Token.words, List.filterMap_cons]
  cases i.token.word? <;> rfl

@[simp] theorem Item.words_append (w v : List Item) :
    Item.words (w ++ v) = Item.words w ++ Item.words v := by
  rw [Item.words, List.map_append, Token.words_append]
  rfl

/-- Comments hold no words. -/
theorem Token.words_uncommented (ts : List Token) :
    Token.words (Token.uncommented ts) = Token.words ts := by
  rw [Token.words, Token.uncommented, List.filterMap_filter]
  refine List.filterMap_congr fun t _ => ?_
  by_cases ht : t.kind = .comment
  · rw [Token.word?_of_comment ht, ite_self]
  · exact if_pos (by simpa using ht)

end

/-! ### Words of declarations -/

mutual

/-- The words of a type. A dotted name has several. -/
def TypeExpr.words : TypeExpr → List Word
  | .hole => []
  | .reference name => (name.toList.splitOn '.').map fun part => .ofText (String.ofList part)
  | .literal raw => [.ofText raw]
  | .union members => TypeExpr.allWords members
  | .intersection members => TypeExpr.allWords members
  | .array element => element.words
  | .object members => Member.allWords members

/-- The words of types. -/
def TypeExpr.allWords : List TypeExpr → List Word
  | [] => []
  | t :: ts => t.words ++ TypeExpr.allWords ts

/-- The words of a parameter. -/
def Parameter.words : Parameter → List Word
  | .mk name type _ => .ofText name :: type.words

/-- The words of parameters. -/
def Parameter.allWords : List Parameter → List Word
  | [] => []
  | p :: ps => p.words ++ Parameter.allWords ps

/-- The words of a member. -/
def Member.words : Member → List Word
  | .hole => []
  | .property key type readonly _ =>
    (if readonly then [.ofText Keyword.readonly.text] else []) ++ .ofText key :: type.words
  | .method key parameters result _ =>
    .ofText key :: (Parameter.allWords parameters ++ result.words)
  | .call parameters result => Parameter.allWords parameters ++ result.words
  | .index parameter type => parameter.words ++ type.words
  | .comment _ => []

/-- The words of members. -/
def Member.allWords : List Member → List Word
  | [] => []
  | m :: ms => m.words ++ Member.allWords ms

end

/-- The words of a statement. -/
def Statement.words : Statement → List Word
  | .comment _ _ => []
  | .typeAlias name type modifiers =>
    modifiers.map .ofText ++ .ofText Keyword.type.text :: .ofText name :: type.words
  | .interfaceDecl name members modifiers =>
    modifiers.map .ofText ++ .ofText Keyword.interface.text :: .ofText name ::
      Member.allWords members
  | .classDecl name members modifiers =>
    modifiers.map .ofText ++ .ofText Keyword.classWord.text :: .ofText name ::
      Member.allWords members
  | .variableDecl kind name type modifiers =>
    modifiers.map .ofText ++ .ofText kind :: .ofText name ::
      (type.map TypeExpr.words).getD []
  | .exportDefault name =>
    [.ofText Keyword.exportWord.text, .ofText Keyword.default.text, .ofText name]

section

variable {t : TypeExpr} {ts : List TypeExpr} {ms : List Member}

theorem TypeExpr.allWords_eq_flatMap (ts : List TypeExpr) :
    TypeExpr.allWords ts = ts.flatMap TypeExpr.words := by
  induction ts with
  | nil => rfl
  | cons t ts ih => rw [TypeExpr.allWords, ih, List.flatMap_cons]

theorem Parameter.allWords_eq_flatMap (ps : List Parameter) :
    Parameter.allWords ps = ps.flatMap Parameter.words := by
  induction ps with
  | nil => rfl
  | cons p ps ih => rw [Parameter.allWords, ih, List.flatMap_cons]

theorem Member.allWords_eq_flatMap (ms : List Member) :
    Member.allWords ms = ms.flatMap Member.words := by
  induction ms with
  | nil => rfl
  | cons m ms ih => rw [Member.allWords, ih, List.flatMap_cons]

theorem dot_not_mem_of_spells {name : String} (h : Kind.identifier.Spells name) :
    '.' ∉ name.toList := by
  obtain ⟨l, hl, hk⟩ := Kind.spells_iff.1 h
  cases l with
  | word =>
    intro hmem
    have hread : Reading.span Reading.isWordPart name.toList =
        { text := name.toList, rest := [] } := hl.reads
    have hpart := Reading.mem_span (p := Reading.isWordPart) name.toList
    rw [hread] at hpart
    exact absurd (hpart '.' hmem) (by decide)
  | _ => cases hk

/-- The words of a dotted name are its parts. -/
theorem TypeExpr.words_reference {name : String} {names : List String}
    (h : ∀ n ∈ name :: names, Kind.identifier.Spells n) :
    (TypeExpr.reference (".".intercalate (name :: names))).words =
      (name :: names).map Word.ofText := by
  have hsplit : (['.'].intercalate ((name :: names).map String.toList)).splitOn '.' =
      (name :: names).map String.toList :=
    List.splitOn_intercalate '.'
      (List.forall_mem_map.2 fun n hn => dot_not_mem_of_spells (h n hn)) (by simp)
  have hdot : ".".toList = ['.'] := rfl
  rw [TypeExpr.words, String.toList_intercalate, hdot, hsplit, List.map_map]
  exact List.map_congr_left fun n _ => congrArg Word.ofText String.ofList_toList

end

/-! ### Tokens that are kept -/

namespace Token

/-- Whether a token can be a modifier. -/
def isModifier (t : Token) : Bool :=
  t.kind = .keyword .exportWord || t.kind = .keyword .declare

/-- Whether tokens begin with a default export behind any modifiers. -/
def leadsToDefault : List Token → Bool
  | t :: u :: ts =>
    (t.kind = .keyword .exportWord && u.kind = .keyword .default) ||
      (t.isModifier && leadsToDefault (u :: ts))
  | _ => false

/-- The tokens without the modifiers before a default export. -/
def kept : List Token → List Token
  | [] => []
  | t :: ts => if t.isModifier && leadsToDefault ts then kept ts else t :: kept ts

/-- No default export comes after a modifier. -/
def BareDefaults (ts : List Token) : Prop :=
  ∀ before m e d after, ts = before ++ m :: e :: d :: after →
    e.kind = .keyword .exportWord → d.kind = .keyword .default → m.isModifier = false

variable {t u : Token} {ts : List Token}

theorem leadsToDefault_of_not (h : t.isModifier = false) : leadsToDefault (t :: ts) = false := by
  have hk : t.kind ≠ .keyword .exportWord := fun hk => by simp [isModifier, hk] at h
  cases ts <;> simp [leadsToDefault, h, hk]

/-- Tokens that lead to a default export hold it, and it is the first of them or comes after a
    modifier. -/
theorem exists_of_leadsToDefault (h : leadsToDefault ts) :
    ∃ before e d after, ts = before ++ e :: d :: after ∧ e.kind = .keyword .exportWord ∧
      d.kind = .keyword .default ∧ ∀ m ∈ before.getLast?, m.isModifier := by
  induction ts with
  | nil => cases h
  | cons t ts ih =>
    cases ts with
    | nil => cases h
    | cons u ts =>
      rw [leadsToDefault, Bool.or_eq_true, Bool.and_eq_true, Bool.and_eq_true, decide_eq_true_eq,
        decide_eq_true_eq] at h
      obtain ⟨he, hd⟩ | ⟨ht, h⟩ := h
      · exact ⟨[], t, u, ts, rfl, he, hd, nofun⟩
      · obtain ⟨before, e, d, after, heq, he, hd, hlast⟩ := ih h
        refine ⟨t :: before, e, d, after, by rw [heq]; rfl, he, hd, ?_⟩
        cases before using List.reverseRecOn with
        | nil => simpa using ht
        | append_singleton before m =>
          rw [List.getLast?_concat] at hlast
          rwa [← List.cons_append, List.getLast?_concat]

/-- All tokens are kept if no default export comes after a modifier. -/
theorem kept_eq_self (h : BareDefaults ts) : kept ts = ts := by
  induction ts with
  | nil => rfl
  | cons t ts ih =>
    have hts : kept ts = ts := ih fun before m e d after heq =>
      h (t :: before) m e d after (congrArg (t :: ·) heq)
    have hkeep : ¬ (t.isModifier && leadsToDefault ts) := by
      rw [Bool.and_eq_true]
      rintro ⟨ht, hlead⟩
      obtain ⟨before, e, d, after, rfl, he, hd, hlast⟩ := exists_of_leadsToDefault hlead
      cases before using List.reverseRecOn with
      | nil => exact absurd ht (by simp [h [] t e d after rfl he hd])
      | append_singleton before m =>
        have hm : m.isModifier := hlast m List.getLast?_concat
        exact absurd hm (by simp [h (t :: before) m e d after (by simp) he hd])
    rw [kept, if_neg hkeep, hts]

theorem kept_cons_of_not (h : t.isModifier = false) : kept (t :: ts) = t :: kept ts := by
  simp [kept, h]

theorem kept_cons_of_head (h : u.isModifier = false) :
    kept (t :: u :: ts) = t :: kept (u :: ts) := by
  rw [kept, leadsToDefault_of_not h, Bool.and_false]
  rfl

end Token

end StyleDecl
