import StyleDecl.Proofs.Grammar.Moved

/-!
# Comments are not seen

What is read from a stream depends on its tokens, but not on the comments between them,
except that these are kept. Two streams that differ in their comments are read side by
side here: every step of one run is a step of the other, which finds the same tokens
ahead, takes the same and rejects the text for the same cause at the same place.

Only a comment read last could tell them apart, since what was read last decides whether
a terminator may be left out. Two streams are *settled* while that cannot be. They are
after a token was taken, and a terminator is looked for only there.

* `Stream.Alike`: streams that hold the same tokens;
* `Reader.Agrees`: readers that go the same way on streams alike;
* `agrees_file`: the two runs over whole files.
-/

namespace StyleDecl

variable {α α' β β' : Type} {s t : Stream} {b b' m : Bool}

/-! ### Streams alike -/

/-- The streams hold the same tokens, with any comments between them. If they are settled,
    what was read from them last is the same as well. -/
structure Stream.Alike (settled : Bool) (s t : Stream) : Prop where
  tokens : s.items.map Item.token = t.items.map Item.token
  final : s.final = t.final
  last : settled → s.last = t.last

namespace Stream

namespace Alike

theorem mono (h : s.Alike b t) (hb : b' → b) : s.Alike b' t :=
  ⟨h.tokens, h.final, fun h' => h.last (hb h')⟩

theorem length (h : s.Alike b t) : s.items.length = t.items.length := by
  simpa using congrArg List.length h.tokens

/-- Looking ahead does not see comments. -/
theorem ahead (h : s.Alike b t) (offset : Nat) : s.ahead offset = t.ahead offset := by
  rw [Stream.ahead, Stream.ahead, ← List.getElem?_map, ← List.getElem?_map, h.tokens, h.final]

/-- The token that is taken is the same, whatever was read before. -/
theorem afterToken (h : s.Alike b t) : s.afterToken.Alike true t.afterToken where
  tokens := by
    rw [afterToken_items, afterToken_items, List.map_tail, List.map_tail, h.tokens]
  final := by rw [afterToken_final, afterToken_final, h.final]
  last _ := by rw [afterToken_last, afterToken_last, h.ahead]

/-- The comments that are taken may differ. -/
theorem afterComments (h : s.Alike b t) : s.afterComments.Alike false t.afterComments where
  tokens := by rw [afterComments_tokens, afterComments_tokens, h.tokens]
  final := by rw [afterComments_final, afterComments_final, h.final]
  last := nofun

end Alike

end Stream

namespace Reader

/-! ### Readers that agree -/

/-- Two results agree if both are found, related by `R` and with streams alike left over,
    or if both are the same rejection. -/
inductive Agree (after : Bool) (R : α → β → Prop) :
    EStateM.Result Rejection Stream α → EStateM.Result Rejection Stream β → Prop
  | ok {a : α} {c : β} {s t : Stream} :
    R a c → s.Alike after t → Agree after R (.ok a s) (.ok c t)
  | error {r : Rejection} {s t : Stream} : Agree after R (.error r s) (.error r t)

/-- On streams alike, the results of the readers agree. The streams are settled ahead of
    them if `before`, and behind them if `after`. -/
def Agrees (before after : Bool) (R : α → β → Prop) (x : Reader α) (y : Reader β) : Prop :=
  ∀ ⦃s t : Stream⦄, s.Alike before t → Agree after R (x s) (y t)

/-- Nothing is asked of what is found, since it may differ in its comments. -/
abbrev AnyTwo (_ : α) (_ : β) : Prop := True

section

variable {R : α → β → Prop} {Q : α' → β' → Prop} {x : Reader α} {y : Reader β}
  {f : α → Reader α'} {g : β → Reader β'}

theorem Agree.mono {r : EStateM.Result Rejection Stream α}
    {r' : EStateM.Result Rejection Stream β} (h : Agree b R r r') (hb : b' → b) :
    Agree b' R r r' := by
  cases h with
  | ok hR hs => exact .ok hR (hs.mono hb)
  | error => exact .error

/-- Readers that need not be told that the streams are settled. -/
theorem Agrees.of_unsettled (h : Agrees false b' R x y) : Agrees b b' R x y :=
  fun _ _ hs => h (hs.mono nofun)

/-- Streams that are settled may be taken for others. -/
theorem Agrees.unsettle (h : Agrees b true R x y) : Agrees b b' R x y :=
  fun _ _ hs => (h hs).mono fun _ => rfl

theorem agrees_pure {a : α} {c : β} (h : R a c) : Agrees b b R (pure a) (pure c) :=
  fun _ _ hs => .ok h hs

theorem Agrees.bind (hx : Agrees b m R x y) (hf : ∀ a c, R a c → Agrees m b' Q (f a) (g c)) :
    Agrees b b' Q (x >>= f) (y >>= g) := by
  intro s t hs
  have h := hx hs
  generalize hx' : x s = r, hy' : y t = r' at h
  cases h with
  | ok hR hs' =>
    rw [bind_of_ok hx', bind_of_ok hy']
    exact hf _ _ hR hs'
  | error =>
    rw [bind_of_error hx', bind_of_error hy']
    exact .error

/-- Readers that go on with the same. -/
theorem Agrees.bind_eq {x y : Reader α} {f : α → Reader α'} {g : α → Reader β'}
    (hx : Agrees b m Eq x y) (hf : ∀ a, Agrees m b' Q (f a) (g a)) :
    Agrees b b' Q (x >>= f) (y >>= g) :=
  hx.bind fun a _ h => h ▸ hf a

/-- Readers that go on with what may differ in its comments. -/
theorem Agrees.bind_any (hx : Agrees b m AnyTwo x y) (hf : ∀ a c, Agrees m b' Q (f a) (g c)) :
    Agrees b b' Q (x >>= f) (y >>= g) :=
  hx.bind fun a c _ => hf a c

theorem Agrees.ite {p : Prop} [Decidable p] {x' : Reader α} {y' : Reader β}
    (hx : Agrees b b' R x y) (hx' : Agrees b b' R x' y') :
    Agrees b b' R (if p then x else x') (if p then y else y') := by
  split
  · exact hx
  · exact hx'

end

/-! ### Single tokens -/

theorem agrees_peek (offset : Nat) : Agrees b b Eq (peek offset) (peek offset) :=
  fun _ _ hs => .ok (hs.ahead offset) hs

theorem agrees_sees (kinds : List Kind) : Agrees b b Eq (sees kinds) (sees kinds) :=
  fun _ _ hs => .ok (by rw [hs.ahead]) hs

theorem agrees_previous : Agrees true true Eq previous previous :=
  fun _ _ hs => .ok (hs.last rfl) hs

theorem agrees_reject {R : α → β → Prop} (fault : Token → Fault) :
    Agrees b b' R (reject fault) (reject fault) := by
  intro s t hs
  rw [reject, reject, hs.ahead]
  exact .error

/-- A token that is taken settles the streams. -/
theorem agrees_advance : Agrees b true Eq advance advance :=
  fun _ _ hs => .ok (hs.ahead 0) hs.afterToken

theorem agrees_takeComments : Agrees b false AnyTwo takeComments takeComments :=
  fun _ _ hs => .ok trivial hs.afterComments

theorem agrees_expect (kinds : List Kind) (detail : String) :
    Agrees b true Eq (expect kinds detail) (expect kinds detail) :=
  (agrees_sees kinds).bind_eq fun _ => .ite agrees_advance (agrees_reject _)

theorem agrees_skip? (p : Punct) : Agrees b b Eq (skip? p) (skip? p) :=
  (agrees_sees _).bind_eq fun _ =>
    .ite (agrees_advance.bind_eq fun _ => (agrees_pure rfl).unsettle) (agrees_pure rfl)

/-- Whether a terminator may be left out is seen alike by streams that are settled. -/
theorem agrees_terminator (closers : List Kind) :
    Agrees true true Eq (terminator closers) (terminator closers) := by
  refine (agrees_sees _).bind_eq fun _ => .ite ?_ ?_
  · exact agrees_advance.bind_eq fun _ => agrees_pure rfl
  · refine (agrees_peek 0).bind_eq fun token => .ite (agrees_pure rfl) ?_
    exact agrees_previous.bind_eq fun _ => .ite (agrees_pure rfl) (agrees_reject _)

/-! ### Loops -/

/-- Two rounds that both are the last one, or both are not. -/
inductive SameRound : Round α → Round β → Prop
  | more (found : List α) (found' : List β) : SameRound (.more found) (.more found')
  | done (found : List α) (found' : List β) : SameRound (.done found) (.done found')

theorem Agrees.gatherUpTo {x : Reader (Round α)} {y : Reader (Round β)}
    (h : Agrees b b SameRound x y) (n : Nat) :
    Agrees b b AnyTwo (gatherUpTo x n) (gatherUpTo y n) := by
  induction n with
  | zero => exact agrees_pure trivial
  | succ n ih =>
    refine h.bind fun r r' hr => ?_
    cases hr with
    | done => exact agrees_pure trivial
    | more => exact ih.bind_any fun _ _ => agrees_pure trivial

/-- Loops agree if their rounds do: streams alike allow for the same number of rounds. -/
theorem Agrees.gather {x : Reader (Round α)} {y : Reader (Round β)}
    (h : Agrees b b SameRound x y) : Agrees b b AnyTwo (gather x) (gather y) := by
  intro s t hs
  rw [Reader.gather, Reader.gather, hs.length]
  exact h.gatherUpTo _ hs

/-! ### Types and members -/

section

variable {type : Reader TypeExpr} (ht : Agrees true true AnyTwo type type)

include ht

theorem agrees_parameter : Agrees b true AnyTwo (parameter type) (parameter type) :=
  (agrees_expect _ _).bind_eq fun _ => (agrees_skip? _).bind_eq fun _ =>
    (agrees_expect _ _).bind_eq fun _ => ht.bind_any fun _ _ => agrees_pure trivial

theorem agrees_parameterRound :
    Agrees true true SameRound (parameterRound type) (parameterRound type) := by
  refine (agrees_sees _).bind_eq fun _ => .ite (agrees_pure (.done _ _)) ?_
  refine (agrees_parameter ht).bind_any fun _ _ => (agrees_sees _).bind_eq fun _ => ?_
  refine .ite (agrees_pure (.more _ _)) ?_
  exact (agrees_expect _ _).bind_eq fun _ => agrees_pure (.more _ _)

theorem agrees_parameters : Agrees b true AnyTwo (parameters type) (parameters type) :=
  (agrees_expect _ _).bind_eq fun _ => (agrees_parameterRound ht).gather.bind_any fun _ _ =>
    (agrees_expect _ _).bind_eq fun _ => agrees_pure trivial

theorem agrees_callSignature : Agrees b true AnyTwo (callSignature type) (callSignature type) :=
  (agrees_parameters ht).bind_any fun _ _ => (agrees_expect _ _).bind_eq fun _ =>
    ht.bind_any fun _ _ => agrees_pure trivial

theorem agrees_indexSignature :
    Agrees b true AnyTwo (indexSignature type) (indexSignature type) :=
  (agrees_expect _ _).bind_eq fun _ => (agrees_expect _ _).bind_eq fun _ =>
    (agrees_expect _ _).bind_eq fun _ => ht.bind_any fun _ _ =>
      (agrees_expect _ _).bind_eq fun _ => (agrees_expect _ _).bind_eq fun _ =>
        ht.bind_any fun _ _ => agrees_pure trivial

omit ht in
theorem agrees_readonlyMark : Agrees b b Eq readonlyMark readonlyMark := by
  refine (agrees_sees _).bind_eq fun _ => .ite ?_ (agrees_pure rfl)
  refine (agrees_peek 1).bind_eq fun _ => .ite ?_ (agrees_pure rfl)
  exact agrees_advance.bind_eq fun _ => (agrees_pure rfl).unsettle

theorem agrees_keyed : Agrees b true AnyTwo (keyed type) (keyed type) := by
  refine agrees_readonlyMark.bind_eq fun _ => (agrees_expect _ _).bind_eq fun _ => ?_
  refine (agrees_skip? _).bind_eq fun _ => (agrees_sees _).bind_eq fun _ => .ite ?_ ?_
  · refine .ite (agrees_reject _) ((agrees_parameters ht).bind_any fun _ _ => ?_)
    exact (agrees_expect _ _).bind_eq fun _ => ht.bind_any fun _ _ => agrees_pure trivial
  · exact (agrees_expect _ _).bind_eq fun _ => ht.bind_any fun _ _ => agrees_pure trivial

theorem agrees_member : Agrees b true AnyTwo (member type) (member type) := by
  refine (agrees_sees _).bind_eq fun _ => .ite (agrees_callSignature ht) ?_
  exact (agrees_sees _).bind_eq fun _ => .ite (agrees_indexSignature ht) (agrees_keyed ht)

/-- The comments before a member unsettle the streams, and the member settles them. -/
theorem agrees_memberRound : Agrees b false SameRound (memberRound type) (memberRound type) := by
  refine agrees_takeComments.bind_any fun _ _ => (agrees_sees _).bind_eq fun _ => ?_
  refine .ite (agrees_pure (.done _ _)) ((agrees_sees _).bind_eq fun _ => ?_)
  refine .ite (agrees_reject _) ((agrees_member ht).bind_any fun _ _ => ?_)
  exact (agrees_terminator _).bind_eq fun _ => (agrees_pure (.more _ _)).unsettle

theorem agrees_body : Agrees b true AnyTwo (body type) (body type) :=
  (agrees_expect _ _).bind_eq fun _ =>
    (agrees_memberRound ht).gather.of_unsettled.bind_any fun _ _ =>
      (agrees_expect _ _).bind_eq fun _ => agrees_pure trivial

omit ht in
theorem agrees_namePartRound : Agrees true true SameRound namePartRound namePartRound := by
  refine (agrees_skip? _).bind_eq fun _ => .ite ?_ (agrees_pure (.done _ _))
  exact (agrees_expect _ _).bind_eq fun _ => agrees_pure (.more _ _)

theorem agrees_primary : Agrees true true AnyTwo (primary type) (primary type) := by
  refine (agrees_sees _).bind_eq fun _ => .ite ?_ ((agrees_sees _).bind_eq fun _ => .ite ?_ ?_)
  · exact agrees_advance.bind_eq fun _ => agrees_namePartRound.gather.bind_any fun _ _ =>
      agrees_pure trivial
  · exact agrees_advance.bind_eq fun _ => agrees_pure trivial
  refine (agrees_sees _).bind_eq fun _ => .ite ?_ ((agrees_skip? _).bind_eq fun _ => .ite ?_ ?_)
  · exact (agrees_body ht).bind_any fun _ _ => agrees_pure trivial
  · exact ht.bind_any fun _ _ => (agrees_expect _ _).bind_eq fun _ => agrees_pure trivial
  · exact agrees_reject _

omit ht in
theorem agrees_arrayMarkRound : Agrees true true SameRound arrayMarkRound arrayMarkRound := by
  refine (agrees_sees _).bind_eq fun _ => .ite ?_ (agrees_pure (.done _ _))
  refine (agrees_peek 1).bind_eq fun _ => .ite ?_ (agrees_pure (.done _ _))
  exact agrees_advance.bind_eq fun _ => agrees_advance.bind_eq fun _ => agrees_pure (.more _ _)

theorem agrees_arrayType : Agrees true true AnyTwo (arrayType type) (arrayType type) :=
  (agrees_primary ht).bind_any fun _ _ => agrees_arrayMarkRound.gather.bind_any fun _ _ =>
    agrees_pure trivial

omit ht in
theorem agrees_chain (separator : Punct) {operand : Reader TypeExpr}
    (h : Agrees true true AnyTwo operand operand) :
    Agrees true true AnyTwo (chain separator operand) (chain separator operand) := by
  have hround : Agrees true true SameRound (operandRound separator operand)
      (operandRound separator operand) :=
    (agrees_skip? _).bind_eq fun _ =>
      .ite (h.bind_any fun _ _ => agrees_pure (.more _ _)) (agrees_pure (.done _ _))
  exact (agrees_skip? _).bind_eq fun _ => h.bind_any fun _ _ =>
    hround.gather.bind_any fun _ _ => agrees_pure trivial

theorem agrees_union : Agrees true true AnyTwo (union type) (union type) := by
  have hintersection : Agrees true true AnyTwo (intersection type) (intersection type) :=
    (agrees_chain .ampersand (agrees_arrayType ht)).bind_any fun _ _ => agrees_pure trivial
  exact (agrees_chain .pipe hintersection).bind_any fun _ _ => agrees_pure trivial

end

theorem agrees_nested (depth : Nat) : Agrees true true AnyTwo (nested depth) (nested depth) := by
  induction depth with
  | zero => exact agrees_reject _
  | succ depth ih => exact agrees_union ih

/-- Types may be nested equally deep on streams alike. -/
theorem agrees_typeExpr : Agrees true true AnyTwo typeExpr typeExpr := by
  intro s t hs
  rw [typeExpr, typeExpr, hs.length]
  exact agrees_nested _ hs

/-! ### Statements and files -/

theorem agrees_modifierRound : Agrees b b SameRound modifierRound modifierRound := by
  refine (agrees_sees _).bind_eq fun _ => .ite ?_ (agrees_pure (.done _ _))
  refine (agrees_sees _).bind_eq fun _ => (agrees_peek 1).bind_eq fun _ => ?_
  refine .ite (agrees_pure (.done _ _)) ?_
  exact agrees_advance.bind_eq fun _ => (agrees_pure (.more _ _)).unsettle

theorem agrees_exportDefault : Agrees b true AnyTwo exportDefault exportDefault :=
  (agrees_expect _ _).bind_eq fun _ => (agrees_expect _ _).bind_eq fun _ =>
    (agrees_expect _ _).bind_eq fun _ => (agrees_terminator _).bind_eq fun _ =>
      agrees_pure trivial

theorem agrees_typeAlias (ws ws' : List String) :
    Agrees b true AnyTwo (typeAlias ws) (typeAlias ws') :=
  (agrees_expect _ _).bind_eq fun _ => (agrees_expect _ _).bind_eq fun _ =>
    (agrees_expect _ _).bind_eq fun _ => agrees_typeExpr.bind_any fun _ _ =>
      (agrees_terminator _).bind_eq fun _ => agrees_pure trivial

theorem agrees_variableDecl (ws ws' : List String) :
    Agrees b true AnyTwo (variableDecl ws) (variableDecl ws') := by
  refine agrees_advance.bind_eq fun _ => (agrees_expect _ _).bind_eq fun _ => ?_
  have hend (type type' : Option TypeExpr) (kind name : String) :
      Agrees true true AnyTwo
        (terminator [] >>= fun _ => pure (Statement.variableDecl kind name type ws))
        (terminator [] >>= fun _ => pure (Statement.variableDecl kind name type' ws')) :=
    (agrees_terminator _).bind_eq fun _ => agrees_pure trivial
  refine (agrees_skip? _).bind_eq fun _ => .ite ?_ ?_
  · rw [map_eq_pure_bind]
    exact (agrees_typeExpr.bind_any fun _ _ => agrees_pure trivial).bind_any fun _ _ =>
      hend _ _ _ _
  · exact (agrees_pure rfl).bind_eq fun _ => hend _ _ _ _

theorem agrees_named : Agrees b true AnyTwo named named :=
  agrees_advance.bind_eq fun _ => (agrees_expect _ _).bind_eq fun _ =>
    (agrees_body agrees_typeExpr).bind_any fun _ _ => agrees_pure trivial

theorem agrees_statement : Agrees false true AnyTwo statement statement := by
  refine agrees_modifierRound.gather.bind_any fun ws ws' => (agrees_sees _).bind_eq fun _ => ?_
  refine .ite agrees_exportDefault ((agrees_sees _).bind_eq fun _ => ?_)
  refine .ite (agrees_typeAlias ws ws') ((agrees_sees _).bind_eq fun _ => .ite ?_ ?_)
  · exact agrees_named.bind_any fun _ _ => agrees_pure trivial
  refine (agrees_sees _).bind_eq fun _ => .ite ?_ ((agrees_sees _).bind_eq fun _ => ?_)
  · exact agrees_named.bind_any fun _ _ => agrees_pure trivial
  · exact .ite (agrees_variableDecl ws ws') (agrees_reject _)

theorem agrees_statementRound : Agrees false false SameRound statementRound statementRound := by
  refine agrees_takeComments.bind_any fun _ _ => (agrees_peek 0).bind_eq fun _ => ?_
  refine (agrees_sees _).bind_eq fun _ => .ite (agrees_pure (.done _ _)) ?_
  refine (agrees_skip? _).bind_eq fun _ => .ite (agrees_pure (.more _ _)) ?_
  exact agrees_statement.bind_any fun _ _ => (agrees_pure (.more _ _)).unsettle

theorem agrees_file : Agrees false false AnyTwo file file :=
  agrees_statementRound.gather.bind_any fun _ _ => agrees_pure trivial

end Reader

end StyleDecl
