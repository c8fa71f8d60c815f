import StyleDecl.Proofs.Grammar.Tandem.Types

/-!
# Files in tandem

Statements and files are read alike on streams that go together.

* `Tandem.agrees_statement`: statements;
* `Tandem.agrees_file`: the two runs over whole files.
-/

namespace StyleDecl

open Reader

namespace Tandem

variable {c : Tandem} {b : Bool} {n m : Nat}

/-! ### Statements and files -/

theorem agrees_modifierRound :
    c.Agrees (c.Goes b (m + 1)) modifierRound modifierRound Eq (c.Next b m) := by
  refine .sees (agrees_sees.bind_eq fun _ => ?_) (agrees_pure id)
  refine (agrees_peek_one (by decide)).bind c.same_refl fun t u htu => ?_
  rw [c.kind htu]
  refine .ite (agrees_pure fun hs => hs.1.1) (.imp (.advance_first (by decide) ?_) And.left id)
  refine fun t u htu => agrees_pure_of_eq (by rw [c.text htu]) fun hs => ?_
  exact c.mono hs (fun _ => rfl) (Nat.le_refl m)

theorem agrees_exportDefault :
    c.Agrees (c.Goes b (m + 1)) exportDefault exportDefault Eq fun _ => c.Goes true m := by
  refine .expect_first (by decide) fun _ _ _ => .expect (by decide) fun _ _ _ => ?_
  refine .expect (by decide) fun t u htu => (agrees_terminator _).bind_eq fun _ => ?_
  exact agrees_pure_of_eq (by rw [c.text htu]) id

theorem agrees_typeAlias (words : List String) :
    c.Agrees (c.Goes b (m + 1)) (typeAlias words) (typeAlias words) Eq fun _ => c.Goes true m := by
  refine .expect_first (by decide) fun _ _ _ => .expect (by decide) fun t u htu => ?_
  refine .expect (by decide) fun _ _ _ => (types_typeExpr m (Nat.le_refl m)).bind_eq fun _ => ?_
  exact (agrees_terminator _).bind_eq fun _ => agrees_pure_of_eq (by rw [c.text htu]) id

theorem agrees_variableDecl (words : List String) (hk : Kind.eof ∉ kinds) :
    c.Agrees (c.Sees b (m + 1) kinds) (variableDecl words) (variableDecl words) Eq
      fun _ => c.Goes true m := by
  refine .advance_first hk fun k k' hkk => .expect (by decide) fun t u htu => ?_
  have hend (type : Option TypeExpr) : c.Agrees (c.Goes true m)
      (terminator [] >>= fun _ => pure (Statement.variableDecl k.text t.text type words))
      (terminator [] >>= fun _ => pure (Statement.variableDecl k'.text u.text type words)) Eq
        fun _ => c.Goes true m :=
    (agrees_terminator _).bind_eq fun _ => agrees_pure_of_eq (by rw [c.text hkk, c.text htu]) id
  refine .skip? fun found => .ite ?_ ?_
  · rw [map_eq_pure_bind]
    refine Agrees.bind_eq (Q := fun _ => c.Goes true m) ?_ hend
    exact (types_typeExpr m (Nat.le_refl m)).bind_eq fun _ => agrees_pure id
  · exact (agrees_pure (Q := fun _ => c.Goes true m) id).bind_eq hend

theorem agrees_named (hk : Kind.eof ∉ kinds) :
    c.Agrees (c.Sees b (m + 1) kinds) named named Eq fun _ => c.Goes true m := by
  refine .advance_first hk fun _ _ _ => .expect (by decide) fun t u htu => ?_
  refine (Agrees.below id (fun k hk => agrees_body types_typeExpr hk) (Nat.le_succ m)).bind_eq
    fun _ => ?_
  exact agrees_pure_of_eq (by rw [c.text htu]) id

theorem agrees_statement :
    c.Agrees (c.Goes b (m + 1)) statement statement Eq fun _ => c.Goes true m := by
  refine (agrees_gather (fun _ _ => agrees_modifierRound) (Nat.le_refl _)).bind_eq fun words => ?_
  refine .sees agrees_exportDefault.of_sees (.sees (agrees_typeAlias words).of_sees ?_)
  refine .sees ((agrees_named (by decide)).bind_eq fun _ => agrees_pure id) ?_
  refine .sees ((agrees_named (by decide)).bind_eq fun _ => agrees_pure id) ?_
  refine .sees (agrees_variableDecl words (by decide)) (agrees_reject fun h => ?_)
  rw [c.kind h, c.text h]

theorem commentStatements_congr (cs : List Token) {t u : Token} (h : t.line = u.line) :
    commentStatements cs t = commentStatements cs u := by
  fun_induction commentStatements cs t with
  | case1 => rfl
  | case2 => simp only [commentStatements, commentStatement, h]
  | case3 _ _ _ _ ih => rw [commentStatements, ih h]

theorem agrees_statementRound :
    c.Agrees (c.Goes b (m + 1)) statementRound statementRound Eq (c.Next b m) := by
  have hless : ∀ {s t}, c.Goes true m s t → c.Goes b m s t :=
    fun hs => c.mono hs (fun _ => rfl) (Nat.le_refl m)
  refine agrees_takeComments.bind_eq fun cs => agrees_peek.bind c.same_refl fun t u htu => ?_
  simp only [commentStatements_congr cs (c.line htu)]
  refine .sees (agrees_pure And.left) (.skip?_first (agrees_pure hless) ?_)
  exact agrees_statement.bind_eq fun _ => agrees_pure hless

/-- Two runs over whole files. -/
theorem agrees_file : c.Agrees (c.Goes b n) file file Eq fun _ => c.Goes b n :=
  (agrees_gather (fun _ _ => agrees_statementRound) (Nat.le_succ n)).bind_eq fun _ =>
    agrees_pure id

end Tandem

end StyleDecl
