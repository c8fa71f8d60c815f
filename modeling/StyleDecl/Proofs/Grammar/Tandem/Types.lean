import StyleDecl.Proofs.Grammar.Tandem.Basic

/-!
# Types and members in tandem

Types and members are read alike on streams that go together. A type within another one is read
below a smaller bound, and so the depth that is left for it makes no difference.

* `Tandem.agrees_member`, `Tandem.agrees_body`: members, given that types are read alike;
* `Tandem.types_nested`: types, whatever depth is left for them;
* `Tandem.types_typeExpr`: types.
-/

namespace StyleDecl

open Reader

namespace Tandem

variable {c : Tandem} {b : Bool} {n m : Nat}

/-! ### Types and members -/

variable (c) in
/-- Readers of types that agree on streams below the bound `n`. -/
def Types (n : Nat) (type type' : Reader TypeExpr) : Prop :=
  ∀ m ≤ n, c.Agrees (c.Goes true m) type type' Eq fun _ => c.Goes true m

section

variable {type type' : Reader TypeExpr} (ht : c.Types n type type')

include ht

theorem agrees_parameter (hm : m ≤ n) :
    c.Agrees (c.Goes true (m + 1)) (parameter type) (parameter type') Eq
      fun _ => c.Goes true m := by
  refine .expect_first (by decide) fun t u htu => .skip? fun _ =>
    .expect (by decide) fun _ _ _ => ?_
  exact (ht m hm).bind_eq fun _ => agrees_pure_of_eq (by rw [c.text htu]) id

theorem agrees_parameterRound (hm : m ≤ n) :
    c.Agrees (c.Goes true (m + 1)) (parameterRound type) (parameterRound type') Eq
      (c.Next true m) := by
  refine .sees (agrees_pure And.left) ?_
  refine (agrees_parameter ht hm).bind_eq fun _ => .sees (agrees_pure And.left) ?_
  exact .expect (by decide) fun _ _ _ => agrees_pure id

theorem agrees_parameters (hm : m ≤ n) :
    c.Agrees (c.Goes b (m + 1)) (parameters type) (parameters type') Eq fun _ => c.Goes true m := by
  refine .expect_first (by decide) fun _ _ _ => ?_
  refine (agrees_gather (fun k hk => agrees_parameterRound ht hk) (Nat.le_succ_of_le hm)).bind_eq
    fun _ => ?_
  exact .expect (by decide) fun _ _ _ => agrees_pure id

/-- The type that a signature answers, behind its parameters. -/
theorem agrees_signature (hm : m ≤ n) (make : List Parameter → TypeExpr → Member) :
    c.Agrees (c.Goes b (m + 1))
      (parameters type >>= fun ps => expect [.punct .colon] >>= fun _ => type >>= fun t =>
        pure (make ps t))
      (parameters type' >>= fun ps => expect [.punct .colon] >>= fun _ => type' >>= fun t =>
        pure (make ps t)) Eq fun _ => c.Goes true m :=
  (agrees_parameters ht hm).bind_eq fun _ => .expect (by decide) fun _ _ _ =>
    (ht m hm).bind_eq fun _ => agrees_pure id

theorem agrees_indexSignature (hm : m ≤ n) :
    c.Agrees (c.Goes b (m + 1)) (indexSignature type) (indexSignature type') Eq
      fun _ => c.Goes true m := by
  refine .expect_first (by decide) fun _ _ _ => .expect (by decide) fun t u htu => ?_
  refine .expect (by decide) fun _ _ _ => (ht m hm).bind_eq fun _ => ?_
  refine .expect (by decide) fun _ _ _ => .expect (by decide) fun _ _ _ => ?_
  exact (ht m hm).bind_eq fun _ => agrees_pure_of_eq (by rw [c.text htu]) id

omit ht in
theorem agrees_readonlyMark :
    c.Agrees (c.Goes b (m + 1)) readonlyMark readonlyMark Eq fun found s t =>
      (found = true → c.Goes true m s t) ∧ (found = false → c.Goes b (m + 1) s t) := by
  refine .sees ?_ (agrees_pure fun hs => ⟨nofun, fun _ => hs⟩)
  refine (agrees_peek_one (by decide)).bind c.same_refl fun t u htu => ?_
  rw [c.kind htu]
  refine .ite (.imp (.advance_first (by decide) fun _ _ _ => ?_) And.left id) (agrees_pure ?_)
  · exact agrees_pure fun hs => ⟨fun _ => hs, nofun⟩
  · exact fun hs => ⟨nofun, fun _ => hs.1.1⟩

omit ht in
/-- A key, perhaps behind the word that marks it, and what comes after it. -/
theorem Agrees.key {f g : Bool → Token → Reader β} {detail : String}
    (hf : ∀ readonly t u, c.Same t u → c.Agrees (c.Goes true m) (f readonly t) (g readonly u) W R) :
    c.Agrees (c.Goes b (m + 1))
      (readonlyMark >>= fun readonly => Reader.expect Kind.keys detail >>= f readonly)
      (readonlyMark >>= fun readonly => Reader.expect Kind.keys detail >>= g readonly) W R := by
  refine agrees_readonlyMark.bind_eq fun readonly => ?_
  cases readonly with
  | true => exact .imp (.expect (by decide) (hf true)) (fun hs => hs.1 rfl) id
  | false => exact .imp (.expect_first (by decide) (hf false)) (fun hs => hs.2 rfl) id

theorem agrees_keyed (hm : m ≤ n) :
    c.Agrees (c.Goes b (m + 1)) (keyed type) (keyed type') Eq fun _ => c.Goes true m := by
  refine .key fun readonly t u htu => .skip? fun optional => .sees (.of_sees ?_) ?_
  · rw [c.text htu]
    refine .ite (agrees_reject fun _ => rfl) ?_
    exact .below id (fun k hk => agrees_signature ht hk (.method u.text · · optional))
      (Nat.le_succ_of_le hm)
  · refine .expect (by decide) fun _ _ _ => (ht m hm).bind_eq fun _ => ?_
    exact agrees_pure_of_eq (by rw [c.text htu]) id

theorem agrees_member (hm : m ≤ n) :
    c.Agrees (c.Goes b (m + 1)) (member type) (member type') Eq fun _ => c.Goes true m :=
  .sees (agrees_signature ht hm .call).of_sees
    (.sees (agrees_indexSignature ht hm).of_sees (agrees_keyed ht hm))

theorem agrees_memberRound (hm : m ≤ n) :
    c.Agrees (c.Goes b (m + 1)) (memberRound type) (memberRound type') Eq (c.Next b m) := by
  refine agrees_takeComments.bind_eq fun _ => .sees (agrees_pure And.left) (.sees ?_ ?_)
  · exact (agrees_reject fun _ => rfl).of_sees
  · refine (agrees_member ht hm).bind_eq fun _ => (agrees_terminator _).bind_eq fun _ => ?_
    exact agrees_pure fun hs => c.mono hs (fun _ => rfl) (Nat.le_refl m)

theorem agrees_body (hm : m ≤ n) :
    c.Agrees (c.Goes b (m + 1)) (body type) (body type') Eq fun _ => c.Goes true m := by
  refine .expect_first (by decide) fun _ _ _ => ?_
  refine (agrees_gather (fun k hk => agrees_memberRound ht hk) (Nat.le_succ_of_le hm)).bind_eq
    fun _ => ?_
  exact .expect (by decide) fun _ _ _ => agrees_pure id

omit ht in
theorem agrees_namePartRound :
    c.Agrees (c.Goes true (m + 1)) namePartRound namePartRound Eq (c.Next true m) := by
  refine .skip?_first (.expect (by decide) fun t u htu => ?_) (agrees_pure id)
  exact agrees_pure_of_eq (by rw [c.text htu]) id

theorem agrees_primary (hm : m ≤ n) :
    c.Agrees (c.Goes b (m + 1)) (primary type) (primary type') Eq fun _ => c.Goes true m := by
  refine .sees ?_ (.sees ?_ (.sees (.of_sees ?_) ?_))
  · refine .advance_first (by decide) fun t u htu => ?_
    refine (agrees_gather (fun _ _ => agrees_namePartRound) (Nat.le_succ m)).bind_eq fun _ => ?_
    exact agrees_pure_of_eq (by rw [c.text htu]) id
  · exact .advance_first (by decide) fun t u htu => agrees_pure_of_eq (by rw [c.text htu]) id
  · exact (agrees_body ht hm).bind_eq fun _ => agrees_pure id
  · refine .skip?_first ?_ ?_
    · exact (ht m hm).bind_eq fun _ => .expect (by decide) fun _ _ _ => agrees_pure id
    · rw [if_neg nofun]
      exact agrees_reject fun h => by rw [c.kind h]

omit ht in
theorem agrees_arrayMarkRound :
    c.Agrees (c.Goes true (m + 1)) arrayMarkRound arrayMarkRound Eq (c.Next true m) := by
  refine .sees ((agrees_peek_one (by decide)).bind c.same_refl fun t u htu => ?_) (agrees_pure id)
  rw [← c.kind htu]
  split
  · next hk =>
    refine ((agrees_advance_next ?_ [Kind.punct .closeBracket]).imp (fun hs => ⟨hs.1, ?_⟩)
      id).bind c.same_refl fun _ _ _ => ?_
    · decide
    · rw [hs.2, hk]
      exact List.mem_singleton_self _
    · exact .advance (by decide) fun _ _ _ => agrees_pure id
  · exact agrees_pure fun hs => hs.1.1

theorem agrees_arrayType (hm : m ≤ n) :
    c.Agrees (c.Goes b (m + 1)) (arrayType type) (arrayType type') Eq fun _ => c.Goes true m :=
  (agrees_primary ht hm).bind_eq fun _ =>
    (agrees_gather (fun _ _ => agrees_arrayMarkRound) (Nat.le_succ m)).bind_eq fun _ =>
      agrees_pure id

omit ht in
theorem agrees_chain (separator : Punct) {operand operand' : Reader TypeExpr}
    (h : ∀ b, ∀ k ≤ n, c.Agrees (c.Goes b (k + 1)) operand operand' Eq fun _ => c.Goes true k)
    (hm : m ≤ n) : c.Agrees (c.Goes b (m + 1)) (chain separator operand) (chain separator operand')
      Eq fun _ => c.Goes true m := by
  have hany : ∀ {k}, k ≤ n + 1 →
      c.Agrees (c.Goes true k) operand operand' Eq fun _ => c.Goes true k :=
    fun hk => .below id (h true) hk
  have hround : ∀ k ≤ n, c.Agrees (c.Goes true (k + 1)) (operandRound separator operand)
      (operandRound separator operand') Eq (c.Next true k) := fun k hk =>
    .skip?_first ((hany (Nat.le_succ_of_le hk)).bind_eq fun _ => agrees_pure id) (agrees_pure id)
  have hrest : ∀ (t : TypeExpr), c.Agrees (c.Goes true m)
      (gather (operandRound separator operand) >>= fun ts => pure (t :: ts))
      (gather (operandRound separator operand') >>= fun ts => pure (t :: ts)) Eq
        fun _ => c.Goes true m := fun t =>
    (agrees_gather hround (Nat.le_succ_of_le hm)).bind_eq fun _ => agrees_pure id
  exact .skip?_first ((hany (Nat.le_succ_of_le hm)).bind_eq hrest) ((h b m hm).bind_eq hrest)

theorem agrees_intersection (hm : m ≤ n) :
    c.Agrees (c.Goes b (m + 1)) (intersection type) (intersection type') Eq
      fun _ => c.Goes true m :=
  (agrees_chain .ampersand (fun _ _ hk => agrees_arrayType ht hk) hm).bind_eq fun _ =>
    agrees_pure id

theorem agrees_union (hm : m ≤ n) :
    c.Agrees (c.Goes b (m + 1)) (union type) (union type') Eq fun _ => c.Goes true m :=
  (agrees_chain .pipe (fun _ _ hk => agrees_intersection ht hk) hm).bind_eq fun _ =>
    agrees_pure id

end

theorem types_nested_zero (k k' : Nat) : c.Types 0 (nested k) (nested k') := by
  intro m hm
  obtain rfl := Nat.le_zero.1 hm
  refine ⟨fun hs => absurd hs c.not_zero, ?_⟩
  clear k' hm
  induction k with
  | zero => exact fun _ => Nat.le_refl _
  | succ k ih =>
    have hk : c.Types 0 (nested k) (nested k) := fun m hm => by
      obtain rfl := Nat.le_zero.1 hm
      exact ⟨fun hs => absurd hs c.not_zero, ih⟩
    exact (agrees_union (b := true) hk (Nat.le_refl 0)).falls

/-- A depth that is above the bound is never reached. -/
theorem types_nested {k k' : Nat} (hk : n ≤ k) (hk' : n ≤ k') :
    c.Types n (nested k) (nested k') := by
  induction n generalizing k k' with
  | zero => exact types_nested_zero k k'
  | succ n ih =>
    obtain ⟨k, rfl⟩ := Nat.exists_eq_add_of_lt hk
    obtain ⟨k', rfl⟩ := Nat.exists_eq_add_of_lt hk'
    -- Types within are read after a token was taken, and so below a smaller bound.
    have ht := ih (Nat.le_add_right n k) (Nat.le_add_right n k')
    intro m hm
    cases m with
    | zero => exact types_nested_zero _ _ 0 (Nat.le_refl 0)
    | succ m => exact (agrees_union ht (Nat.le_of_succ_le_succ hm)).weaken (Nat.le_succ m)

theorem types_nested_typeExpr {k : Nat} (hk : n ≤ k) : c.Types n (nested k) typeExpr := by
  intro m hm
  refine ⟨fun {s t} hs => ?_, (types_nested_zero (c := c) k 0 0 (Nat.le_refl 0)).falls⟩
  -- The depth is told from the stream, so the bound is lowered to what the stream allows.
  obtain ⟨l, hl, hgoes, -, hlt⟩ := c.tight hs
  have hlk : l ≤ k := Nat.le_trans hl (Nat.le_trans hm hk)
  exact ((types_nested hlk hlt l (Nat.le_refl l)).run hgoes).imp fun hq => c.mono hq id hl

theorem types_typeExpr : c.Types n typeExpr typeExpr := by
  intro m _
  refine ⟨fun {s t} hs => ?_, fun s =>
    (types_nested_zero (c := c) _ 0 0 (Nat.le_refl 0)).falls s⟩
  obtain ⟨l, hl, hgoes, hls, -⟩ := c.tight hs
  exact ((types_nested_typeExpr hls l (Nat.le_refl l)).run hgoes).imp fun hq => c.mono hq id hl

end Tandem

end StyleDecl
