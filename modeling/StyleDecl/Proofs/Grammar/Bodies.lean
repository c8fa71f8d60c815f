import StyleDecl.Proofs.Grammar.Outline

/-!
# Bodies

Every opening brace of a declaration opens a body, and every body is opened by a brace. So the
bodies of a file, each before those in its members, stand behind the opening braces of its tokens,
one for one and in order.

* `DeclFile.bodies`: the bodies of a file;
* `behindBraces`: what stands behind the opening braces;
* `DerivesFile.embodied`: each body is derived from what stands behind its brace.
-/

namespace StyleDecl

/-! ### The bodies of a file -/

mutual

/-- The bodies of the object types in a type. -/
def TypeExpr.bodies : TypeExpr → List (List Member)
  | .hole | .reference _ | .literal _ => []
  | .union ts | .intersection ts => TypeExpr.allBodies ts
  | .array t => t.bodies
  | .object ms => ms :: Member.allBodies ms

/-- The bodies in types. -/
def TypeExpr.allBodies : List TypeExpr → List (List Member)
  | [] => []
  | t :: ts => t.bodies ++ TypeExpr.allBodies ts

/-- The bodies in the type of a parameter. -/
def Parameter.bodies : Parameter → List (List Member)
  | .mk _ t _ => t.bodies

/-- The bodies in parameters. -/
def Parameter.allBodies : List Parameter → List (List Member)
  | [] => []
  | p :: ps => p.bodies ++ Parameter.allBodies ps

/-- The bodies in a member. -/
def Member.bodies : Member → List (List Member)
  | .hole | .comment _ => []
  | .property _ t _ _ => t.bodies
  | .method _ ps t _ | .call ps t => Parameter.allBodies ps ++ t.bodies
  | .index p t => p.bodies ++ t.bodies

/-- The bodies in members. -/
def Member.allBodies : List Member → List (List Member)
  | [] => []
  | m :: ms => m.bodies ++ Member.allBodies ms

end

/-- The bodies in a statement. The body of a class or of an interface is one of them. -/
def Statement.bodies : Statement → List (List Member)
  | .comment _ _ | .exportDefault _ => []
  | .typeAlias _ t _ => t.bodies
  | .interfaceDecl _ ms _ | .classDecl _ ms _ => ms :: Member.allBodies ms
  | .variableDecl _ _ t _ => (t.map TypeExpr.bodies).getD []

/-- The bodies in a file. -/
def DeclFile.bodies (file : DeclFile) : List (List Member) :=
  file.statements.flatMap Statement.bodies

theorem Member.allBodies_eq_flatMap (ms : List Member) :
    Member.allBodies ms = ms.flatMap Member.bodies := by
  induction ms with
  | nil => rfl
  | cons m ms ih => rw [Member.allBodies, ih, List.flatMap_cons]

namespace Grammar

variable {keep : Bool} {c : Symbol} {w v e : List Item} {t : Token} {ts us : List Token} {k : Kind}
  {bs cs : List (List Member)}

/-! ### Opening braces -/

/-- What stands behind the opening braces of the tokens, in order. -/
def behindBraces : List Token → List (List Token)
  | [] => []
  | t :: ts => if t.kind = .punct .openBrace then ts :: behindBraces ts else behindBraces ts

theorem behindBraces_append (ts us : List Token) :
    behindBraces (ts ++ us) = (behindBraces ts).map (· ++ us) ++ behindBraces us := by
  induction ts with
  | nil => rfl
  | cons t ts ih =>
    rw [List.cons_append, behindBraces, behindBraces, ih]
    split <;> rfl

theorem isSuffix_of_mem_behindBraces (h : us ∈ behindBraces ts) : us <:+ ts := by
  induction ts with
  | nil => cases h
  | cons t ts ih =>
    rw [behindBraces] at h
    split at h
    · obtain rfl | h := List.mem_cons.1 h
      · exact List.suffix_cons t _
      · exact (ih h).trans (List.suffix_cons t ts)
    · exact (ih h).trans (List.suffix_cons t ts)

/-- There are no opening braces among the tokens. -/
def Braceless (ts : List Token) : Prop := ∀ t ∈ ts, t.kind ≠ .punct .openBrace

namespace Braceless

theorem nil : Braceless [] := List.forall_mem_nil _

theorem cons (ht : t.kind = k) (hk : k ≠ .punct .openBrace) (h : Braceless ts) :
    Braceless (t :: ts) :=
  List.forall_mem_cons.2 ⟨ht ▸ hk, h⟩

theorem token (ht : t.kind = k) (hk : k ≠ .punct .openBrace) : Braceless [t] := .cons ht hk .nil

theorem append (hts : Braceless ts) (hus : Braceless us) : Braceless (ts ++ us) :=
  List.forall_mem_append.2 ⟨hts, hus⟩

theorem behindBraces (h : Braceless ts) : behindBraces ts = [] := by
  induction ts with
  | nil => rfl
  | cons t ts ih =>
    obtain ⟨ht, hts⟩ := List.forall_mem_cons.1 h
    rw [Grammar.behindBraces, if_neg ht, ih hts]

end Braceless

theorem ne_openBrace_of_mem_keys (h : k ∈ Kind.keys) : k ≠ .punct .openBrace := by
  rintro rfl
  exact absurd h (by decide)

theorem ne_openBrace_of_mem_names (h : k ∈ Kind.names) : k ≠ .punct .openBrace :=
  ne_openBrace_of_mem_keys (List.mem_append_left _ h)

theorem Maybe.braceless {b : Bool} (h : Maybe k w b) (hk : k ≠ .punct .openBrace) :
    Braceless (tokens w) := by
  cases h with
  | absent => exact .nil
  | present hi => exact .token hi hk

theorem NameParts.braceless {parts : List String} (h : NameParts w parts) :
    Braceless (tokens w) := by
  induction h with
  | nil => exact .nil
  | cons hd hn _ ih => exact .cons hd (by decide) (.cons hn (by decide) ih)

theorem Brackets.braceless {n : Nat} (h : Brackets w n) : Braceless (tokens w) := by
  induction h with
  | nil => exact .nil
  | cons hb hc _ ih => exact .cons hb (by decide) (.cons hc (by decide) ih)

theorem Words.braceless {words : List String} (h : Words w words) : Braceless (tokens w) := by
  induction h with
  | nil => exact .nil
  | cons hi _ ih => exact .cons rfl (by rcases hi with hi | hi <;> simp [hi]) ih

theorem Terminator.braceless {closers : List Kind} {before after : List Item}
    (h : Terminator keep closers before e after) : Braceless (tokens e) := by
  cases h with
  | mark hi => exact .token rfl (by rcases hi with hi | hi <;> simp [hi])
  | closer | lineBreak => exact .nil

/-! ### Bodies behind braces -/

/-- The bodies in what is derived from a symbol. -/
def Symbol.bodies : (c : Symbol) → c.Value → List (List Member)
  | .union, t | .intersection, t | .array, t | .primary, t => TypeExpr.bodies t
  | .alternatives, ts | .factors, ts => TypeExpr.allBodies ts
  | .parameter, p => Parameter.bodies p
  | .parameters, ps => Parameter.allBodies ps
  | .member, m => Member.bodies m
  | .members, ms => Member.allBodies ms

/-- The tokens `us` begin with the body `b`. -/
def BeginsWith (keep : Bool) (us : List Token) (b : List Member) : Prop :=
  ∃ w, Derives keep .members w b ∧ tokens w <+: us

/-- Behind the opening braces of the tokens `ts` stand the bodies `bs`. -/
def Embodied (keep : Bool) (ts : List Token) (bs : List (List Member)) : Prop :=
  List.Forall₂ (BeginsWith keep) (behindBraces ts) bs

namespace Embodied

theorem of_braceless (h : Braceless ts) : Embodied keep ts [] := by
  rw [Embodied, h.behindBraces]
  exact .nil

theorem append (h : Embodied keep ts bs) (h' : Embodied keep us cs) :
    Embodied keep (ts ++ us) (bs ++ cs) := by
  rw [Embodied, behindBraces_append]
  refine List.rel_append (List.forall₂_map_left_iff.2 (h.imp fun vs b hb => ?_)) h'
  obtain ⟨w, hw, hbegins⟩ := hb
  exact ⟨w, hw, hbegins.trans (List.prefix_append vs us)⟩

theorem left (h : Embodied keep ts bs) (hus : Braceless us) : Embodied keep (ts ++ us) bs := by
  have hboth := h.append (of_braceless hus)
  rwa [List.append_nil] at hboth

theorem right (hts : Braceless ts) (h : Embodied keep us bs) : Embodied keep (ts ++ us) bs :=
  (of_braceless hts).append h

theorem cons (h : Embodied keep ts bs) (ht : t.kind = k) (hk : k ≠ .punct .openBrace) :
    Embodied keep (t :: ts) bs :=
  right (.token ht hk) h

/-- A body behind its brace. -/
theorem body {ms : List Member} (ht : t.kind = .punct .openBrace)
    (hd : Derives keep .members w ms) (h : Embodied keep (tokens w) (Member.allBodies ms)) :
    Embodied keep (t :: tokens w) (ms :: Member.allBodies ms) := by
  rw [Embodied, behindBraces, if_pos ht]
  exact .cons ⟨w, hd, List.prefix_rfl⟩ h

end Embodied

theorem allBodies_memberNotes (keep : Bool) (i : Item) (ms : List Member) :
    Member.allBodies (memberNotes keep i ++ ms) = Member.allBodies ms := by
  rw [Member.allBodies_eq_flatMap, Member.allBodies_eq_flatMap, List.flatMap_append,
    flatMap_memberNotes (fun m hm => by cases m <;> first | rfl | cases hm), List.nil_append]

/-- The bodies in types and members stand behind the braces of their tokens. -/
theorem Derives.embodied {a : c.Value} (h : Derives keep c w a) :
    Embodied keep (tokens w) (c.bodies a) := by
  induction h with simp only [tokens, List.map_append, List.map_cons, List.map_nil, Symbol.bodies]
  | union hl _ _ hu iht ihts | intersection hl _ _ hu iht ihts =>
    obtain rfl := joined_iff.1 hu
    rw [TypeExpr.apply_combined (g := TypeExpr.allBodies) (fun _ => rfl)
      (fun _ => List.append_nil _)]
    exact (Embodied.right (hl.braceless (by decide)) iht).append ihts
  | noAlternative | noFactor => exact .of_braceless .nil
  | noParameter hi => exact .of_braceless (.token hi (by decide))
  | alternative hi _ _ iht ihts | factor hi _ _ iht ihts =>
    exact (iht.append ihts).cons hi (by decide)
  | array _ hb ih =>
    rw [TypeExpr.apply_iterate_array (f := TypeExpr.bodies) fun _ => rfl]
    exact ih.left hb.braceless
  | reference hi hp => exact .of_braceless (.cons hi (by decide) hp.braceless)
  | literal hi => exact .of_braceless (.token rfl (by rcases hi with hi | hi <;> simp [hi]))
  -- A brace opens the body of an object type. All other bodies are in the parts of a derivation.
  | object hi hd ih => exact .body hi hd ih
  | parentheses hi _ hj ih => exact (ih.cons hi (by decide)).left (.token hj (by decide))
  | parameter hn hq hc _ ih =>
    exact (ih.cons hc (by decide)).right
      (.cons rfl (ne_openBrace_of_mem_names hn) (hq.braceless (by decide)))
  | lastParameter _ hi ih => exact ih.append (.of_braceless (.token hi (by decide)))
  | nextParameter _ hi _ ihp ihps => exact ihp.append (ihps.cons hi (by decide))
  | call hi _ hc _ ihps iht => exact (ihps.cons hi (by decide)).append (iht.cons hc (by decide))
  | index hi hn hc _ hj hd _ ihk iht =>
    have hkey := ((ihk.cons hc (by decide)).cons rfl (ne_openBrace_of_mem_names hn)).cons hi
      (by decide)
    exact hkey.append ((iht.cons hd (by decide)).cons hj (by decide))
  | property hr hk hq hc _ ih =>
    have hkey := Braceless.cons rfl (ne_openBrace_of_mem_keys hk) (hq.braceless (by decide))
    exact (ih.cons hc (by decide)).right ((hr.braceless (by decide)).append hkey)
  | method hk hq hi _ hc _ ihps iht =>
    have hkey := Braceless.cons rfl (ne_openBrace_of_mem_keys hk) (hq.braceless (by decide))
    exact ((ihps.cons hi (by decide)).right hkey).append (iht.cons hc (by decide))
  | @noMember i hi =>
    have hnotes := allBodies_memberNotes keep i []
    rw [List.append_nil] at hnotes
    exact hnotes ▸ .of_braceless (.token hi (by decide))
  | nextMember _ he _ ihm ihms =>
    rw [allBodies_memberNotes]
    exact (Embodied.left ihm he.braceless).append ihms

theorem DerivesStatement.embodied {a : Statement} (h : DerivesStatement keep v w a) :
    Embodied keep (tokens w) a.bodies := by
  have hvar : ∀ {k : Kind}, k ∈ [Kind.keyword .letWord, .keyword .const, .keyword .var] →
      k ≠ .punct .openBrace := by
    rintro _ hk rfl
    exact absurd hk (by decide)
  cases h with simp only [tokens, List.map_append, List.map_cons]
  | exportDefault hu hi hd hn he =>
    refine (Embodied.of_braceless ?_).right hu.braceless
    exact .cons hi (by decide) (.cons hd (by decide) (.cons hn (by decide) he.braceless))
  | untyped hu hi hn he =>
    refine (Embodied.of_braceless ?_).right hu.braceless
    exact .cons rfl (hvar hi) (.cons hn (by decide) he.braceless)
  | typeAlias hu hi hn hq hd he =>
    have htype := (hd.embodied.cons hq (by decide)).cons hn (by decide)
    exact ((htype.cons hi (by decide)).right hu.braceless).left he.braceless
  | typed hu hi hn hc hd he =>
    have htype := (hd.embodied.cons hc (by decide)).cons hn (by decide)
    exact ((htype.cons rfl (hvar hi)).right hu.braceless).left he.braceless
  | interfaceDecl hu hi hn hb hd | classDecl hu hi hn hb hd =>
    have hbody := (Embodied.body hb hd hd.embodied).cons hn (by decide)
    exact (hbody.cons hi (by decide)).right hu.braceless

theorem bodies_statementNotes (keep : Bool) (i : Item) (ss : List Statement) :
    (statementNotes keep i ++ ss).flatMap Statement.bodies = ss.flatMap Statement.bodies := by
  rw [List.flatMap_append,
    flatMap_statementNotes (fun s hs => by cases s <;> first | rfl | cases hs), List.nil_append]

/-- The bodies in a file stand behind the braces of its tokens. -/
theorem DerivesFile.embodied {ss : List Statement} (h : DerivesFile keep w ss) :
    Embodied keep (tokens w) (ss.flatMap Statement.bodies) := by
  induction h with
  | @done i hi =>
    have hnotes := bodies_statementNotes keep i []
    rw [List.append_nil] at hnotes
    exact hnotes ▸ .of_braceless (.token hi (by decide))
  | empty hi _ ih =>
    rw [bodies_statementNotes]
    exact ih.cons hi (by decide)
  | @statement i w v a ss hd _ ih =>
    rw [bodies_statementNotes, tokens, List.map_append]
    exact hd.embodied.append ih

end Grammar

end StyleDecl
