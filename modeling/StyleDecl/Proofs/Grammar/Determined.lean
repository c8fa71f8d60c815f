import StyleDecl.Proofs.Grammar.Overlap

/-!
# Bounds that are never met

Loops and types are read within bounds: a loop for at most as many rounds as there are tokens,
and types nested at most that deep. Without these bounds, they are given by equations: a loop is
a round and, unless it was the last one, the loop again (`Reader.again`), and a type is a union of
which the types within are types. Each of the equations has one solution only, which is what is
read within the bounds. So no bound is ever met, and reading would come to an end without them.

Nor is anything read that is not there: what is made of a list of tokens does not depend on what
is seen beyond its end or before its beginning (`Reader.outcome_file`), and what was counted and
what is left make up the tokens and comments of the text (`Stream.Leads.consumed`).
-/

namespace StyleDecl

variable {α : Type}

namespace Reader

/-! ### Loops -/

/-- A round, and the loop again unless it was the last one. -/
def again (round : Reader (Round α)) (loop : Reader (List α)) : Reader (List α) := do
  match ← round with
  | .done found => return found
  | .more found => return found ++ (← loop)

section

variable {round : Reader (Round α)} {x y loop : Reader (List α)} {s : Stream} {n : Nat}

/-- A loop goes on with fewer items. -/
theorem again_congr (hr : Advances round)
    (h : ∀ m : Stream, m.items.length < s.items.length → x m = y m) :
    again round x s = again round y s := by
  rw [again, again]
  cases hs : round s with
  | error => rw [bind_of_error hs, bind_of_error hs]
  | ok r m =>
    rw [bind_of_ok hs, bind_of_ok hs]
    cases r with
    | done => rfl
    | more => exact bind_congr_left (h m (hr hs))

theorem gatherUpTo_eq_gather (hr : Advances round) (hn : s.items.length < n) :
    gatherUpTo round n s = gather round s := by
  induction hk : s.items.length using Nat.strongRecOn generalizing s n with
  | _ k ih =>
    obtain ⟨n, rfl⟩ := Nat.exists_eq_add_of_lt hn
    refine again_congr hr fun m hm => ?_
    rw [ih _ (hk ▸ hm) (by omega) rfl, ih _ (hk ▸ hm) hm rfl]

/-- The equation of a loop determines it. -/
theorem eq_again_iff (hr : Advances round) : loop = again round loop ↔ loop = gather round := by
  have hgather : ∀ s, gather round s = again round (gather round) s := fun s =>
    again_congr hr fun m hm => gatherUpTo_eq_gather hr hm
  refine ⟨fun h => funext fun s => ?_, ?_⟩
  -- Two loops for one equation are the same on a stream if they are on what a round leaves of it.
  · induction hk : s.items.length using Nat.strongRecOn generalizing s with
    | _ k ih =>
      rw [h, hgather s]
      exact again_congr hr fun m hm => ih _ (hk ▸ hm) m rfl
  · rintro rfl
    exact funext hgather

end

end Reader

/-! ### Types -/

/-- A stream goes together with itself. -/
def Tandem.alone : Tandem where
  Goes _ n s t := s = t ∧ s.items.length < n
  Same t u := t = u
  reach := 0
  same_refl _ := rfl
  kind h := congrArg Token.kind h
  text h := congrArg Token.text h
  line h := congrArg Token.line h
  endLine h := congrArg Token.endLine h
  mono h _ hn := ⟨h.1, Nat.lt_of_lt_of_le h.2 hn⟩
  not_zero h := Nat.not_lt_zero _ h.2
  tight := fun ⟨h, hn⟩ => ⟨_, hn, ⟨h, Nat.lt_succ_self _⟩, Nat.le_refl _, h ▸ Nat.le_refl _⟩
  ahead h := congrArg (Stream.ahead · 0) h.1
  next h _ := congrArg (Stream.ahead · 1) h.1
  last h := congrArg Stream.last h.1
  comments h := congrArg Stream.comments h.1
  afterComments := fun {_ _ s _} ⟨h, hn⟩ => by
    refine ⟨congrArg Stream.afterComments h, ?_⟩
    rwa [← List.length_map Item.token, s.afterComments_tokens, List.length_map]
  afterToken := fun {_ _ s _} ⟨h, hn⟩ hs => by
    obtain ⟨i, rest, hi, -⟩ := Stream.exists_item hs
    refine .inr ⟨congrArg Stream.afterToken h, ?_⟩
    rw [Stream.items_afterToken hi]
    rw [hi] at hn
    exact Nat.lt_of_succ_lt_succ hn

/-- A rejection is made up of its fault and the token where it stands. -/
theorem Rejection.eq_of_standsAt {r r' : Rejection} {t : Token} (hfault : r.fault = r'.fault)
    (hr : r.StandsAt t) (hr' : r'.StandsAt t) : r = r' := by
  rcases r with ⟨fault, line, column⟩
  rcases r' with ⟨fault', line', column'⟩
  rw [show fault = fault' from hfault, show line = line' from hr.1.trans hr'.1.symm,
    show column = column' from hr.2.trans hr'.2.symm]

namespace Reader

theorem eq_of_outcome {b : Bool} {n : Nat} {x y : EStateM.Result Rejection Stream α}
    (h : Tandem.alone.Outcome Eq (fun _ => Tandem.alone.Goes b n) x y) : x = y := by
  cases h with
  | ok ha hs =>
    obtain ⟨rfl, -⟩ := hs
    rw [ha]
  | error hfault hr hr' hs =>
    obtain ⟨rfl, -⟩ := hs
    rw [Rejection.eq_of_standsAt hfault hr hr']
  | parted hl => exact absurd hl (Nat.not_lt_zero _)

theorem typeExpr_eq_union : typeExpr = union typeExpr := by
  funext s
  have ht := Tandem.types_nested_typeExpr (c := .alone) (Nat.le_refl s.items.length)
  exact eq_of_outcome
    ((Tandem.agrees_union (b := true) ht (Nat.le_refl _)).run ⟨rfl, Nat.lt_succ_self _⟩)

/-- The equation of types determines them. -/
theorem eq_union_iff {type : Reader TypeExpr} : type = union type ↔ type = typeExpr := by
  refine ⟨fun h => ?_, fun h => h ▸ typeExpr_eq_union⟩
  -- Within a type there are types of fewer tokens, for which both sides are known to agree.
  have ht : ∀ n, Tandem.alone.Types n typeExpr type := by
    intro n
    induction n with
    | zero =>
      intro m hm
      obtain rfl := Nat.le_zero.1 hm
      exact ⟨fun hs => absurd hs Tandem.alone.not_zero,
        (Tandem.types_typeExpr (c := .alone) 0 (Nat.le_refl 0)).falls⟩
    | succ n ih =>
      intro m hm
      rcases Nat.le_succ_iff.1 hm with hm | rfl
      · exact ih m hm
      · rw [typeExpr_eq_union, h]
        exact (Tandem.agrees_union ih (Nat.le_refl n)).weaken (Nat.le_succ n)
  funext s
  exact (eq_of_outcome ((ht _ _ (Nat.le_refl _)).run ⟨rfl, Nat.lt_succ_self s.items.length⟩)).symm

/-- The loops over declarations. -/
inductive IsLoop : {α : Type} → Reader (Round α) → Prop
  | parameters : IsLoop (parameterRound typeExpr)
  | members : IsLoop (memberRound typeExpr)
  | nameParts : IsLoop namePartRound
  | arrayMarks : IsLoop arrayMarkRound
  | factors : IsLoop (operandRound .ampersand (arrayType typeExpr))
  | alternatives : IsLoop (operandRound .pipe (intersection typeExpr))
  | modifiers : IsLoop modifierRound
  | statements : IsLoop statementRound

open Grammar in
theorem IsLoop.advances {round : Reader (Round α)} (h : IsLoop round) : Advances round := by
  cases h with
  | parameters => exact parameterRound_advances reads_typeExpr
  | members => exact memberRound_advances reads_typeExpr
  | nameParts => exact namePartRound_advances
  | arrayMarks => exact arrayMarkRound_advances
  | factors => exact operandRound_advances (reads_arrayType reads_typeExpr)
  | alternatives => exact operandRound_advances (reads_intersection reads_typeExpr)
  | modifiers => exact modifierRound_advances
  | statements => exact statementRound_advances

end Reader

/-! ### The tokens of a text -/

namespace Reader

/-- What reading comes to, wherever it ends. -/
def outcome : EStateM.Result Rejection Stream α → Except Rejection α
  | .ok a _ => .ok a
  | .error r _ => .error r

/-- Streams of the same tokens and comments. -/
def same : Overlap where
  Same := Eq
  refl _ := rfl
  alike h := h ▸ .refl _
  whole := true
  rest := []
  rest' := []

open Grammar in
/-- What is made of a file depends on its tokens and comments only. -/
theorem outcome_file {s t : Stream} (h : s.items = t.items) (hs : Closed s.items) :
    outcome (file s) = outcome (file t) := by
  have hmeets : same.Meets false (s.items.length + 1) s t s.items s.items := by
    refine ⟨?_, ?_, List.forall₂_same.2 fun _ _ => ⟨rfl, rfl⟩, .inl ⟨rfl, hs⟩, ?_, nofun⟩
    · exact (List.append_nil _).symm
    · exact h ▸ (List.append_nil _).symm
    · exact Nat.lt_succ_self _
  -- All of the text is in common, so the streams never part.
  have hrun := same.tandem.agrees_file.run ⟨_, _, hmeets⟩
  generalize file s = x, file t = y at hrun
  cases hrun with
  | ok hfile => rw [outcome, outcome, show _ = _ from hfile]
  | error hfault hr hr' hgoes =>
    rw [same.tandem.ahead hgoes] at hr
    rw [outcome, outcome, Rejection.eq_of_standsAt hfault hr hr']
  | parted hl => exact absurd hl (Nat.not_lt_zero _)

end Reader

namespace Stream

variable {s s' m : Stream} {w : List Item}

/-- Every token and comment that was passed is counted. -/
theorem Passes.consumed (h : s.Passes w s') :
    s'.consumed = s.consumed + (Item.spread w).length := by
  induction h with
  | nil => rfl
  | cons hs _ ih =>
    rw [ih, Item.spread_cons, afterToken]
    simp only [hs, List.length_append, List.length_cons]
    omega

/-- What was counted and what is left make up the tokens and comments of the stream. -/
theorem Leads.consumed (h : s.Leads w s') :
    ∃ read, Item.spread s.items = read ++ Item.spread s'.items ∧
      s'.consumed = s.consumed + read.length := by
  obtain ⟨m, hm, hs'⟩ := h
  have hitems := congrArg Item.spread hm.items
  rw [Item.spread_append] at hitems
  have hconsumed := hm.consumed
  rcases hs' with rfl | rfl
  · exact ⟨_, hitems, hconsumed⟩
  rcases hi : m.items with - | ⟨i, rest⟩
  · have hm' : m.afterComments = m := by simp [afterComments, hi]
    exact hm'.symm ▸ ⟨_, hitems, hconsumed⟩
  · refine ⟨Item.spread w ++ i.comments, ?_, ?_⟩
    · rw [hitems, hi, items_afterComments hi, Item.spread_cons, Item.spread_cons,
        List.append_assoc]
      rfl
    · simp only [afterComments, hi, List.length_append]
      omega

end Stream

end StyleDecl
