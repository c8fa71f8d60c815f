import Mathlib.Algebra.Ring.Int.Defs
import Mathlib.Data.List.Forall2
import StyleDecl.Proofs.Grammar.Comments

/-!
# Outlines

Which classes and interfaces a file declares can be seen without deriving it: count the
braces that are open, and look for the words `class` and `interface` where none is.

* `DeclFile.declared`: the classes and interfaces of a file;
* `rise`, `Rises`, `Balanced`: braces that are opened and closed;
* `heads`: the words outside braces, each with the two tokens after it;
* `DerivesFile.outlined`: in a file that is derived, these are the names of its classes
  and interfaces and the braces after them.
-/

namespace StyleDecl

variable {t : Token} {ts us : List Token} {d : Int}

/-! ### Classes and interfaces -/

/-- The class or the interface that a statement declares, if it is one. -/
def Statement.declared? : Statement → Option (Keyword × String)
  | .classDecl name _ _ => some (.classWord, name)
  | .interfaceDecl name _ _ => some (.interface, name)
  | _ => none

/-- The classes and interfaces of a file, in order. -/
def DeclFile.declared (file : DeclFile) : List (Keyword × String) :=
  file.statements.filterMap Statement.declared?

@[simp] theorem Statement.declared?_mapped (f : TypeExpr → TypeExpr)
    (g : List Member → List Member) (s : Statement) : (s.mapped f g).declared? = s.declared? := by
  cases s <;> rfl

/-- Comments declare nothing. -/
theorem Statement.declared?_withoutComments (ss : List Statement) :
    (withoutComments ss).filterMap declared? = ss.filterMap declared? := by
  induction ss with
  | nil => rfl
  | cons s ss ih =>
    cases s with
    | comment => exact ih
    | _ =>
      rw [withoutComments_cons rfl, List.filterMap_cons, List.filterMap_cons, ih, uncommented,
        declared?_mapped]

/-! ### Braces -/

/-- How many braces more are open after a token than before it. -/
def Token.rise (t : Token) : Int :=
  if t.kind = .punct .openBrace then 1 else if t.kind = .punct .closeBrace then -1 else 0

/-- How many braces more are open after tokens than before them. -/
def rise (ts : List Token) : Int := (ts.map Token.rise).sum

@[simp] theorem rise_nil : rise [] = 0 := rfl

@[simp] theorem rise_cons : rise (t :: ts) = t.rise + rise ts := by simp [rise]

@[simp] theorem rise_append : rise (ts ++ us) = rise ts + rise us := by simp [rise]

/-- Where `d` braces are open, the tokens close no others. -/
def Rises (d : Int) : List Token → Prop
  | [] => 0 ≤ d
  | t :: ts => 0 ≤ d ∧ Rises (d + t.rise) ts

instance Rises.instDecidable : (d : Int) → (ts : List Token) → Decidable (Rises d ts)
  | d, [] => inferInstanceAs (Decidable (0 ≤ d))
  | d, t :: ts =>
    have := instDecidable (d + t.rise) ts
    inferInstanceAs (Decidable (0 ≤ d ∧ Rises (d + t.rise) ts))

theorem rises_append : Rises d (ts ++ us) ↔ Rises d ts ∧ Rises (d + rise ts) us := by
  induction ts generalizing d with
  | nil =>
    cases us <;> simp +contextual [Rises]
  | cons t ts ih => simp only [List.cons_append, Rises, ih, rise_cons, Int.add_assoc, and_assoc]

theorem Rises.mono {e : Int} (h : Rises d ts) (hd : d ≤ e) : Rises e ts := by
  induction ts generalizing d e with
  | nil => exact Int.le_trans h hd
  | cons t ts ih => exact ⟨Int.le_trans h.1 hd, ih h.2 (Int.add_le_add_right hd _)⟩

theorem Rises.le (h : Rises d ts) : 0 ≤ d + rise ts := by
  induction ts generalizing d with
  | nil =>
    rw [rise_nil, Int.add_zero]
    exact h
  | cons t ts ih => simpa [Int.add_assoc] using ih h.2

/-- Tokens that close no braces but their own can follow each other. -/
theorem Rises.append (h : Rises 0 ts) (h' : Rises 0 us) : Rises 0 (ts ++ us) :=
  rises_append.2 ⟨h, h'.mono h.le⟩

/-- The tokens close just the braces that they open. -/
structure Balanced (ts : List Token) : Prop where
  rises : Rises 0 ts
  rise : rise ts = 0

namespace Balanced

theorem nil : Balanced [] := ⟨Int.le_refl 0, rfl⟩

theorem append (h : Balanced ts) (h' : Balanced us) : Balanced (ts ++ us) :=
  ⟨h.rises.append h'.rises, by rw [rise_append, h.rise, h'.rise]; rfl⟩

theorem token (h : t.rise = 0) : Balanced [t] := ⟨by simp [Rises, h], by simp [h]⟩

theorem cons (h : t.rise = 0) (h' : Balanced ts) : Balanced (t :: ts) := (token h).append h'

/-- Tokens between braces. -/
theorem braces {i j : Token} (hi : i.kind = .punct .openBrace) (h : Balanced ts)
    (hj : j.kind = .punct .closeBrace) : Balanced (i :: ts ++ [j]) where
  rises := by
    refine rises_append.2 ⟨⟨Int.le_refl 0, h.rises.mono ?_⟩, ?_⟩ <;>
      simp [Rises, Token.rise, hi, hj, h.rise]
  rise := by simp [Token.rise, hi, hj, h.rise]

end Balanced

/-! ### Words outside braces -/

/-- The word for a class or an interface. -/
def Token.declares? (t : Token) : Option Keyword :=
  match t.kind with
  | .keyword .classWord => some .classWord
  | .keyword .interface => some .interface
  | _ => none

/-- The words for classes and interfaces where no brace is open, when `d` are open to begin
    with, each with the two tokens after it. -/
def heads (d : Int) : List Token → List (Keyword × List Token)
  | [] => []
  | t :: ts =>
    match t.declares? with
    | some k => if d = 0 then (k, ts.take 2) :: heads d ts else heads d ts
    | none => heads (d + t.rise) ts

theorem heads_cons (h : t.declares? = none) : heads d (t :: ts) = heads (d + t.rise) ts := by
  rw [heads, h]

theorem rise_of_declares? {k : Keyword} (h : t.declares? = some k) : t.rise = 0 := by
  unfold Token.declares? at h
  unfold Token.rise
  split at h <;> simp_all

theorem heads_head {k : Keyword} (h : t.declares? = some k) :
    heads 0 (t :: ts) = (k, ts.take 2) :: heads 0 ts := by
  rw [heads, h]
  rfl

/-- Inside a brace there is nothing to be seen. -/
theorem heads_inside (h : Rises 0 ts) (hd : 0 < d) (rest : List Token) :
    heads d (ts ++ rest) = heads (d + rise ts) rest := by
  -- Tokens that never close more than `e` braces leave one open where more than `e` are open.
  suffices hall : ∀ {e d : Int}, Rises e ts → e < d →
      heads d (ts ++ rest) = heads (d + rise ts) rest from hall h hd
  clear h hd
  induction ts with
  | nil => simp
  | cons t ts ih =>
    intro e d h hd
    have hrest := ih h.2 (Int.add_lt_add_right hd t.rise)
    rw [List.cons_append, heads, rise_cons, ← Int.add_assoc]
    cases ht : t.declares? with
    | none => exact hrest
    | some k =>
      rw [rise_of_declares? ht, Int.add_zero] at hrest ⊢
      have hne : d ≠ 0 := fun h0 => absurd h.1 (by omega)
      exact (if_neg hne).trans hrest

/-- There is nothing to be seen in the tokens where no brace is open. -/
def Quiet (ts : List Token) : Prop := ∀ rest, heads 0 (ts ++ rest) = heads 0 rest

namespace Quiet

theorem nil : Quiet [] := fun _ => rfl

theorem append (h : Quiet ts) (h' : Quiet us) : Quiet (ts ++ us) := fun rest => by
  rw [List.append_assoc, h, h']

theorem token (h : t.declares? = none) (hr : t.rise = 0) : Quiet [t] := fun rest => by
  rw [List.singleton_append, heads_cons h, hr]
  rfl

/-- There is nothing to be seen between braces. -/
theorem braces {i j : Token} (hi : i.kind = .punct .openBrace) (h : Balanced ts)
    (hj : j.kind = .punct .closeBrace) : Quiet (i :: ts ++ [j]) := fun rest => by
  have hrise : i.rise = 1 := if_pos hi
  have hrise' : j.rise = -1 := by simp [Token.rise, hj]
  have hinside := heads_inside (d := 1) h.rises Int.one_pos ([j] ++ rest)
  rw [h.rise] at hinside
  rw [List.append_assoc, List.cons_append, heads_cons (by simp [Token.declares?, hi]), hrise]
  refine hinside.trans ?_
  rw [List.singleton_append, heads_cons (by simp [Token.declares?, hj]), hrise']
  rfl

end Quiet

namespace Grammar

variable {keep : Bool} {c : Symbol} {w v e : List Item} {i : Item}

/-! ### Outlines of types and members -/

/-- The tokens of items. -/
abbrev tokens (w : List Item) : List Token := w.map Item.token

/-- The tokens are no braces and no words for classes and interfaces. -/
structure Calm (ts : List Token) : Prop where
  balanced : Balanced ts
  quiet : Quiet ts

namespace Calm

theorem nil : Calm [] := ⟨.nil, .nil⟩

theorem append (h : Calm ts) (h' : Calm us) : Calm (ts ++ us) :=
  ⟨h.balanced.append h'.balanced, h.quiet.append h'.quiet⟩

/-- A token of a kind that is neither a brace nor such a word. -/
theorem token (h : t.kind ∉ [Kind.punct .openBrace, .punct .closeBrace, .keyword .classWord,
    .keyword .interface]) : Calm [t] := by
  simp only [List.mem_cons, List.not_mem_nil, or_false, not_or] at h
  have hrise : t.rise = 0 := by simp [Token.rise, h]
  refine ⟨.token hrise, .token ?_ hrise⟩
  unfold Token.declares?
  split <;> simp_all

theorem cons (h : t.kind ∉ [Kind.punct .openBrace, .punct .closeBrace, .keyword .classWord,
    .keyword .interface]) (h' : Calm ts) : Calm (t :: ts) := (token h).append h'

end Calm

theorem Maybe.calm {p : Punct} {b : Bool} (h : Maybe (.punct p) w b)
    (hp : Kind.punct p ∉ [Kind.punct .openBrace, .punct .closeBrace, .keyword .classWord,
      .keyword .interface]) : Calm (tokens w) := by
  cases h with
  | absent => exact .nil
  | present hi => exact .token (hi ▸ hp)

theorem NameParts.calm {parts : List String} (h : NameParts w parts) : Calm (tokens w) := by
  induction h with
  | nil => exact .nil
  | cons hd hn _ ih => exact .cons (by simp [hd]) (.cons (by simp [hn]) ih)

theorem Brackets.calm {n : Nat} (h : Brackets w n) : Calm (tokens w) := by
  induction h with
  | nil => exact .nil
  | cons hb hc _ ih => exact .cons (by simp [hb]) (.cons (by simp [hc]) ih)

theorem Words.calm {words : List String} (h : Words w words) : Calm (tokens w) := by
  induction h with
  | nil => exact .nil
  | cons hi _ ih => exact .cons (by rcases hi with hi | hi <;> simp [hi]) ih

theorem Terminator.calm {closers : List Kind} {before after : List Item}
    (h : Terminator keep closers before e after) : Calm (tokens e) := by
  cases h with
  | mark hi => exact .token (by rcases hi with hi | hi <;> simp [hi])
  | closer | lineBreak => exact .nil

theorem rise_of_mem_keys (h : t.kind ∈ Kind.keys) : t.rise = 0 := by
  unfold Token.rise
  rw [if_neg, if_neg] <;> rintro he <;> rw [he] at h <;> exact absurd h (by decide)

theorem rise_of_mem_names (h : t.kind ∈ Kind.names) : t.rise = 0 :=
  rise_of_mem_keys (List.mem_append_left _ h)

/-- What the braces are like in what is derived from a symbol: those of types, parameters and
    members are all closed, and a list of members goes on up to the brace that closes it. -/
def Symbol.Outlined (ts : List Token) : Symbol → Prop
  | union | intersection | array | primary | alternatives | factors => Calm ts
  | parameter | parameters | member => Balanced ts
  | members => ∃ us j, ts = us ++ [j] ∧ Balanced us ∧ j.kind = .punct .closeBrace

theorem Maybe.balanced {k : Kind} {b : Bool} (h : Maybe k w b)
    (hk : ∀ t : Token, t.kind = k → t.rise = 0) : Balanced (tokens w) := by
  cases h with
  | absent => exact .nil
  | present hi => exact .token (hk _ hi)

theorem Derives.outlined {a : c.Value} (h : Derives keep c w a) : c.Outlined (tokens w) := by
  induction h with
  | union hl _ _ _ ihw ihv | intersection hl _ _ _ ihw ihv =>
    rw [tokens, List.map_append, List.map_append]
    exact ((hl.calm (by decide)).append ihw).append ihv
  | noAlternative | noFactor => exact Calm.nil
  | alternative hi _ _ ihw ihv | factor hi _ _ ihw ihv =>
    rw [tokens, List.map_append, List.map_cons]
    exact (Calm.cons (by simp [hi]) ihw).append ihv
  | array _ hb ih =>
    rw [tokens, List.map_append]
    exact Calm.append ih hb.calm
  | reference hi hp => exact Calm.cons (by simp [hi]) hp.calm
  | literal hi => exact Calm.token (by rcases hi with hi | hi <;> simp [hi])
  | object hi _ ih =>
    -- The last token of the members is the brace that closes this one.
    obtain ⟨us, j, hus, hbal, hj⟩ := ih
    rw [tokens, List.map_cons, ← tokens, hus, ← List.cons_append]
    exact ⟨hbal.braces hi hj, .braces hi hbal hj⟩
  | parentheses hi _ hj ih =>
    rw [tokens, List.map_append, List.map_cons]
    exact (Calm.cons (by simp [hi]) ih).append (.token (by simp [hj]))
  -- Names and keys may be the words for classes and interfaces, so that from here on only the
  -- braces count.
  | parameter hn hq hc _ ih =>
    rw [tokens, List.map_append, List.map_cons, List.map_cons]
    exact ((hq.calm (by decide)).balanced.cons (rise_of_mem_names hn)).append
      (Calm.cons (by simp [hc]) ih).balanced
  | noParameter hi => exact (Calm.token (by simp [hi])).balanced
  | lastParameter _ hi ih =>
    rw [tokens, List.map_append]
    exact Balanced.append ih (Calm.token (by simp [hi])).balanced
  | nextParameter _ hi _ ihw ihv =>
    rw [tokens, List.map_append, List.map_cons]
    exact Balanced.append ihw (Balanced.cons (by simp [Token.rise, hi]) ihv)
  | call hi _ hc _ ihv ihw =>
    rw [tokens, List.map_append, List.map_cons, List.map_cons]
    exact (Balanced.cons (by simp [Token.rise, hi]) ihv).append
      (Calm.cons (by simp [hc]) ihw).balanced
  | index hi hn hc _ hj hd _ ihv ihw =>
    rw [tokens, List.map_append, List.map_cons, List.map_cons, List.map_cons, List.map_cons,
      List.map_cons, List.cons_append, List.cons_append]
    refine .cons (by simp [Token.rise, hi]) (.cons (rise_of_mem_names hn) (Calm.balanced ?_))
    exact (Calm.cons (by simp [hc]) ihv).append (.cons (by simp [hj]) (.cons (by simp [hd]) ihw))
  | property hr hk hq hc _ ih =>
    rw [tokens, List.map_append, List.map_append, List.map_cons, List.map_cons, List.append_assoc]
    refine (hr.balanced fun t ht => by simp [Token.rise, ht]).append ?_
    refine .cons (rise_of_mem_keys hk) (Calm.balanced ?_)
    exact (hq.calm (by decide)).append (.cons (by simp [hc]) ih)
  | method hk hq hi _ hc _ ihv ihw =>
    rw [tokens, List.map_append, List.map_append, List.map_cons, List.map_cons, List.map_cons,
      List.append_assoc]
    refine .cons (rise_of_mem_keys hk) ((hq.calm (by decide)).balanced.append ?_)
    refine .cons (by simp [Token.rise, hi]) (Balanced.append ihv (Calm.balanced ?_))
    exact .cons (by simp [hc]) ihw
  | @noMember i hi => exact ⟨[], i.token, rfl, .nil, hi⟩
  | nextMember _ he _ ihw ihv =>
    -- The brace that closes the other members closes all of them.
    obtain ⟨us, j, hus, hbal, hj⟩ := ihv
    refine ⟨_, j, ?_, (Balanced.append ihw he.calm.balanced).append hbal, hj⟩
    rw [tokens, List.map_append, List.map_append, ← tokens, ← tokens, ← tokens, hus,
      List.append_assoc, List.append_assoc, List.append_assoc]
    rfl

/-! ### Outlines of statements and files -/

/-- The word `e.1` and the tokens after it begin the declaration `d`. -/
def Begins (e : Keyword × List Token) (d : Keyword × String) : Prop :=
  e.1 = d.1 ∧ ∃ n b, e.2 = [n, b] ∧ n.kind = .identifier ∧ n.text = d.2 ∧
    b.kind = .punct .openBrace

/-- What is to be seen in the tokens, where no brace is open, is the beginning of the
    declarations `ds`. -/
structure Outlines (ts : List Token) (ds : List (Keyword × String)) : Prop where
  rise : rise ts = 0
  heads : ∃ es, (∀ rest, heads 0 (ts ++ rest) = es ++ heads 0 rest) ∧ List.Forall₂ Begins es ds

namespace Outlines

variable {ds ds' : List (Keyword × String)}

theorem of_calm (h : Calm ts) : Outlines ts [] := ⟨h.balanced.rise, [], h.quiet, .nil⟩

theorem quiet (h : Outlines ts []) : Quiet ts := by
  obtain ⟨-, es, hes, hds⟩ := h
  obtain rfl := List.forall₂_nil_right_iff.1 hds
  exact hes

theorem append (h : Outlines ts ds) (h' : Outlines us ds') : Outlines (ts ++ us) (ds ++ ds') := by
  obtain ⟨hrise, es, hes, hds⟩ := h
  obtain ⟨hrise', es', hes', hds'⟩ := h'
  refine ⟨?_, es ++ es', fun rest => ?_, List.rel_append hds hds'⟩
  · rw [rise_append, hrise, hrise', Int.add_zero]
  · rw [List.append_assoc, hes, hes', List.append_assoc]

/-- A word for a class or an interface, a name, and a body. -/
theorem declaration {i n b j : Token} {k : Keyword} (hi : i.declares? = some k)
    (hn : n.kind = .identifier) (hb : b.kind = .punct .openBrace) (h : Balanced ts)
    (hj : j.kind = .punct .closeBrace) : Outlines (i :: n :: (b :: ts ++ [j])) [(k, n.text)] := by
  have hname : Calm [n] := .token (by simp [hn])
  have hbody := h.braces hb hj
  refine ⟨?_, [(k, [n, b])], fun rest => ?_, .cons ⟨rfl, n, b, rfl, hn, rfl, hb⟩ .nil⟩
  · exact (Balanced.cons (rise_of_declares? hi) (hname.balanced.append hbody)).rise
  · have hquiet := (hname.quiet.append (Quiet.braces hb h hj)) rest
    rw [List.cons_append, heads_head hi, List.singleton_append]
    exact congrArg ((k, [n, b]) :: ·) hquiet

end Outlines

theorem DerivesStatement.outlined {a : Statement} (h : DerivesStatement keep v w a) :
    Outlines (tokens w) a.declared?.toList := by
  have hbody : ∀ {u w : List Item} {i n b : Item} {words : List String} {ms : List Member}
      {k : Keyword}, Words u words → i.token.declares? = some k → n.token.kind = .identifier →
      b.token.kind = .punct .openBrace → Derives keep .members w ms →
      Outlines (tokens (u ++ i :: n :: b :: w)) [(k, n.token.text)] := by
    intro u w i n b words ms k hu hi hn hb hw
    obtain ⟨ts, j, hts, hbal, hj⟩ := hw.outlined
    rw [tokens, List.map_append, List.map_cons, List.map_cons, List.map_cons, ← tokens, ← tokens,
      hts]
    exact (Outlines.of_calm hu.calm).append (.declaration hi hn hb hbal hj)
  have hvar : ∀ {k : Kind}, k ∈ [Kind.keyword .letWord, .keyword .const, .keyword .var] →
      k ∉ [Kind.punct .openBrace, .punct .closeBrace, .keyword .classWord,
        .keyword .interface] := by
    intro k hk
    simp only [List.mem_cons, List.not_mem_nil, or_false] at hk
    rcases hk with rfl | rfl | rfl <;> decide
  cases h with
  | exportDefault hu hi hd hn he =>
    rw [tokens, List.map_append, List.map_cons, List.map_cons, List.map_cons]
    refine .of_calm (hu.calm.append ?_)
    exact .cons (by simp [hi]) (.cons (by simp [hd]) (.cons (by simp [hn]) he.calm))
  | typeAlias hu hi hn hq hw he =>
    rw [tokens, List.map_append, List.map_append, List.map_cons, List.map_cons, List.map_cons]
    refine .of_calm ((hu.calm.append ?_).append he.calm)
    exact .cons (by simp [hi]) (.cons (by simp [hn]) (.cons (by simp [hq]) hw.outlined))
  | interfaceDecl hu hi hn hb hw => exact hbody hu (by rw [Token.declares?, hi]) hn hb hw
  | classDecl hu hi hn hb hw => exact hbody hu (by rw [Token.declares?, hi]) hn hb hw
  | untyped hu hi hn he =>
    rw [tokens, List.map_append, List.map_cons, List.map_cons]
    exact .of_calm (hu.calm.append (.cons (hvar hi) (.cons (by simp [hn]) he.calm)))
  | typed hu hi hn hc hw he =>
    rw [tokens, List.map_append, List.map_append, List.map_cons, List.map_cons, List.map_cons]
    refine .of_calm ((hu.calm.append (.cons (hvar hi) ?_)).append he.calm)
    exact .cons (by simp [hn]) (.cons (by simp [hc]) hw.outlined)

/-- The classes and interfaces of a file are those that are to be seen in its tokens. -/
theorem DerivesFile.outlined {ss : List Statement} (h : DerivesFile false w ss) :
    Outlines (tokens w) (ss.filterMap Statement.declared?) := by
  induction h with
  | done hi => exact .of_calm (.token (by simp [hi]))
  | @empty i v ss hi _ ih =>
    exact (Outlines.of_calm (.token (by simp [hi]))).append ih
  | @statement i w v s ss hs _ ih =>
    have hboth := hs.outlined.append ih
    have htokens : tokens (i :: w ++ v) = tokens (i.bare :: w) ++ tokens v := List.map_append
    have hdeclared : (statementNotes false i ++ s :: ss).filterMap Statement.declared? =
        s.declared?.toList ++ ss.filterMap Statement.declared? := by
      cases hs : s.declared? <;> simp [statementNotes, hs]
    rwa [htokens, hdeclared]

end Grammar

end StyleDecl
