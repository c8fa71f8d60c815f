import StyleDecl.Proofs.Grammar.Complete.Types
import StyleDecl.Proofs.Grammar.Sound.Types

/-!
# Derived members are read

Parameters, members and bodies are taken as what they derive, given that the types within them are.
With that, all types and members are, by induction on their derivations and on the depth that is
left for types within types.

* `takes_property`, `takes_method`, `takes_call`, `takes_index`: members;
* `takes_nextMember`: bodies;
* `Derives.taken`, `takes_typeExpr`: types and members.
-/

namespace StyleDecl.Grammar

open Reader

variable {s s' m : Stream} {keep : Bool} {i : Item} {w v : List Item}

/-! ### Parameters and members -/

section

variable {type : Reader TypeExpr}

theorem takes_parameter {n c : Item} {q : List Item} {optional : Bool} {t : TypeExpr}
    (hn : n.token.kind ∈ Kind.names) (hq : Maybe (.punct .question) q optional)
    (hc : c.token.kind = .punct .colon) (hw : Takes type EndsUnion w t) :
    Symbol.parameter.Taken type (n :: q ++ c :: w) (.mk n.token.text t optional) := by
  intro s s' hp he
  obtain ⟨m₁, h₁, hp⟩ := Passes.uncons hp
  obtain ⟨m₂, h₂, hp⟩ := Stream.passes_append_iff.1 hp
  obtain ⟨m₃, h₃, h₄⟩ := Passes.uncons hp
  have hcolon : (m₂.ahead 0).kind ≠ .punct .question := by rw [h₃.ahead_zero, hc]; nofun
  rw [Reader.parameter, bind_of_ok (expect_of_passes h₁ hn),
    bind_of_ok (skip?_of_maybe hq h₂ hcolon), bind_of_ok (expect_one_of_passes h₃ hc),
    bind_of_ok (hw h₄ he)]
  rfl

/-- A parameter begins with a name. -/
theorem ne_closeParen_of_parameter {a : Parameter} (h : Derives keep .parameter w a)
    (hp : s.Passes w s') : (s.ahead 0).kind ≠ .punct .closeParen := by
  cases h with
  | parameter hn _ _ _ =>
    rw [hp.ahead_zero]
    exact fun he => absurd (he ▸ hn) (by decide)

/-- The parameters of a signature, behind the parenthesis that opens them. -/
theorem parameters_of_taken {as : List Parameter} (hi : i.token.kind = .punct .openParen)
    (hw : Symbol.parameters.Taken type w as) (hp : s.Passes (i :: w) s') :
    Reader.parameters type s = .ok as s' := by
  obtain ⟨m, h₁, h₂⟩ := Passes.uncons hp
  rw [Reader.parameters, bind_of_ok (expect_one_of_passes h₁ hi)]
  exact hw h₂ trivial

theorem takes_call {c : Item} {as : List Parameter} {t : TypeExpr}
    (hi : i.token.kind = .punct .openParen) (hv : Symbol.parameters.Taken type v as)
    (hc : c.token.kind = .punct .colon) (hw : Takes type EndsUnion w t) :
    Symbol.member.Taken type (i :: v ++ c :: w) (.call as t) := by
  intro s s' hp he
  obtain ⟨m₁, h₁, hp⟩ := Stream.passes_append_iff.1 hp
  obtain ⟨m₂, h₂, h₃⟩ := Passes.uncons hp
  rw [Reader.member, bind_of_ok sees_apply, h₁.ahead_zero, hi, if_pos (by simp), callSignature,
    bind_of_ok (parameters_of_taken hi hv h₁), bind_of_ok (expect_one_of_passes h₂ hc),
    bind_of_ok (hw h₃ he)]
  rfl

theorem takes_index {n c j d : Item} {k t : TypeExpr} (hi : i.token.kind = .punct .openBracket)
    (hn : n.token.kind ∈ Kind.names) (hc : c.token.kind = .punct .colon)
    (hv : Takes type EndsUnion v k) (hj : j.token.kind = .punct .closeBracket)
    (hd : d.token.kind = .punct .colon) (hw : Takes type EndsUnion w t) :
    Symbol.member.Taken type (i :: n :: c :: v ++ j :: d :: w)
      (.index (.mk n.token.text k false) t) := by
  intro s s' hp he
  obtain ⟨m₁, h₁, hp⟩ := Passes.uncons hp
  obtain ⟨m₂, h₂, hp⟩ := Passes.uncons hp
  obtain ⟨m₃, h₃, hp⟩ := Passes.uncons hp
  obtain ⟨m₄, h₄, hp⟩ := Stream.passes_append_iff.1 hp
  obtain ⟨m₅, h₅, hp⟩ := Passes.uncons hp
  obtain ⟨m₆, h₆, h₇⟩ := Passes.uncons hp
  have hclose : EndsUnion m₄ := endsUnion_of_kind (by rw [h₅.ahead_zero, hj]) (by decide)
  rw [Reader.member, bind_of_ok sees_apply, h₁.ahead_zero, hi, if_neg (by simp),
    bind_of_ok sees_apply, h₁.ahead_zero, hi, if_pos (by simp), indexSignature,
    bind_of_ok (expect_one_of_passes h₁ hi), bind_of_ok (expect_of_passes h₂ hn),
    bind_of_ok (expect_one_of_passes h₃ hc), bind_of_ok (hv h₄ hclose),
    bind_of_ok (expect_one_of_passes h₅ hj), bind_of_ok (expect_one_of_passes h₆ hd),
    bind_of_ok (hw h₇ he)]
  rfl

theorem readonlyMark_of_maybe {r : List Item} {b : Bool} (hr : Maybe (.keyword .readonly) r b)
    (hp : s.Passes r m) (hm : (m.ahead 0).kind ∈ Kind.keys) (hn : (m.ahead 1).kind ∉ Kind.keys) :
    readonlyMark s = .ok b m := by
  cases hr with
  | absent =>
    obtain rfl := Stream.passes_nil_iff.1 hp
    rw [readonlyMark, bind_of_ok sees_apply]
    split
    · rw [bind_of_ok (peek_apply 1), if_neg (by simpa using hn)]
      rfl
    · rfl
  | present hi =>
    rw [readonlyMark, bind_of_ok sees_apply, hp.ahead_zero, hi, if_pos (by simp),
      bind_of_ok (peek_apply 1), ahead_one_of_passes hp, if_pos (by simpa using hm),
      bind_of_ok (advance_of_passes hp)]
    rfl

/-- What comes after a key is a mark. -/
theorem not_mem_keys_of_maybe {p : Punct} {q : List Item} {b : Bool}
    (hq : Maybe (.punct .question) q b) (hi : i.token.kind = .punct p)
    (hp : s.Passes (q ++ i :: w) s') : (s.ahead 0).kind ∉ Kind.keys := by
  cases hq with
  | absent => rw [hp.ahead_zero, hi]; exact fun h => not_punct_of_mem_keys h p rfl
  | present hj => rw [hp.ahead_zero, hj]; exact fun h => not_punct_of_mem_keys h _ rfl

/-- Properties and methods begin with a word, a string or a number. -/
theorem member_of_keyed (h : (s.ahead 0).kind ∈ Kind.keys) :
    Reader.member type s = keyed type s := by
  have hne := not_punct_of_mem_keys h
  rw [Reader.member, bind_of_ok sees_apply, if_neg (by simpa using hne _), bind_of_ok sees_apply,
    if_neg (by simpa using hne _)]

/-- Behind the colon of a property, its type is all that is left to read. -/
theorem member_of_property {k c : Item} {r q : List Item} {readonly optional : Bool}
    (hr : Maybe (.keyword .readonly) r readonly) (hk : k.token.kind ∈ Kind.keys)
    (hq : Maybe (.punct .question) q optional) (hc : c.token.kind = .punct .colon)
    (hp : s.Passes (r ++ k :: q ++ [c]) m) :
    Reader.member type s =
      (do return Member.property k.token.text (← type) readonly optional) m := by
  rw [List.append_assoc] at hp
  obtain ⟨m₁, h₁, hp⟩ := Stream.passes_append_iff.1 hp
  obtain ⟨m₂, h₂, hp⟩ := Passes.uncons hp
  have hnext := not_mem_keys_of_maybe hq hc hp
  obtain ⟨m₃, h₃, h₄⟩ := Stream.passes_append_iff.1 hp
  have hcolon : (m₃.ahead 0).kind = .punct .colon := by rw [h₄.ahead_zero, hc]
  have hkey : (m₁.ahead 0).kind ∈ Kind.keys := by rwa [h₂.ahead_zero]
  have hfirst : (s.ahead 0).kind ∈ Kind.keys := by
    obtain h | rfl := hr.head h₁
    · rw [h]; decide
    · exact hkey
  rw [member_of_keyed hfirst, keyed,
    bind_of_ok (readonlyMark_of_maybe hr h₁ hkey (by rwa [ahead_one_of_passes h₂])),
    bind_of_ok (expect_of_passes h₂ hk), bind_of_ok (skip?_of_maybe hq h₃ (by rw [hcolon]; nofun)),
    bind_of_ok sees_apply, hcolon, if_neg (by simp), bind_of_ok (expect_one_of_passes h₄ hc)]

theorem takes_property {k c : Item} {r q : List Item} {readonly optional : Bool} {t : TypeExpr}
    (hr : Maybe (.keyword .readonly) r readonly) (hk : k.token.kind ∈ Kind.keys)
    (hq : Maybe (.punct .question) q optional) (hc : c.token.kind = .punct .colon)
    (hw : Takes type EndsUnion w t) :
    Symbol.member.Taken type (r ++ k :: q ++ c :: w)
      (.property k.token.text t readonly optional) := by
  intro s s' hp he
  rw [← List.singleton_append (x := c), ← List.append_assoc] at hp
  obtain ⟨m, h₁, h₂⟩ := Stream.passes_append_iff.1 hp
  rw [member_of_property hr hk hq hc h₁, bind_of_ok (hw h₂ he)]
  rfl

/-- A key before a parenthesis is that of a method. -/
theorem member_of_method {k : Item} {q : List Item} {optional : Bool}
    (hk : k.token.kind ∈ Kind.keys) (hq : Maybe (.punct .question) q optional)
    (hp : s.Passes (k :: q) m) (hm : (m.ahead 0).kind = .punct .openParen) :
    Reader.member type s = (do
      let ps ← parameters type
      let _ ← expect [.punct .colon]
      return Member.method k.token.text ps (← type) optional) m := by
  obtain ⟨m₁, h₁, h₂⟩ := Passes.uncons hp
  have hkey : (s.ahead 0).kind ∈ Kind.keys := by rwa [h₁.ahead_zero]
  have hnext : (m₁.ahead 0).kind ∉ Kind.keys := by
    cases hq with
    | absent =>
      obtain rfl := Stream.passes_nil_iff.1 h₂
      exact fun h => not_punct_of_mem_keys h _ hm
    | present hj =>
      rw [h₂.ahead_zero, hj]
      exact fun h => not_punct_of_mem_keys h _ rfl
  rw [member_of_keyed hkey, keyed,
    bind_of_ok (readonlyMark_of_maybe .absent (.nil s) hkey (by rwa [ahead_one_of_passes h₁])),
    bind_of_ok (expect_of_passes h₁ hk), bind_of_ok (skip?_of_maybe hq h₂ (by rw [hm]; nofun)),
    bind_of_ok sees_apply, hm, if_pos (by simp), if_neg nofun]

theorem takes_method {k c : Item} {q : List Item} {optional : Bool} {as : List Parameter}
    {t : TypeExpr} (hk : k.token.kind ∈ Kind.keys) (hq : Maybe (.punct .question) q optional)
    (hi : i.token.kind = .punct .openParen) (hv : Symbol.parameters.Taken type v as)
    (hc : c.token.kind = .punct .colon) (hw : Takes type EndsUnion w t) :
    Symbol.member.Taken type (k :: q ++ i :: v ++ c :: w)
      (.method k.token.text as t optional) := by
  intro s s' hp he
  rw [List.append_assoc] at hp
  obtain ⟨m₁, h₁, hp⟩ := Stream.passes_append_iff.1 hp
  obtain ⟨m₂, h₂, hp⟩ := Stream.passes_append_iff.1 hp
  obtain ⟨m₃, h₃, h₄⟩ := Passes.uncons hp
  rw [member_of_method hk hq h₁ (by rw [h₂.ahead_zero, hi]),
    bind_of_ok (parameters_of_taken hi hv h₂), bind_of_ok (expect_one_of_passes h₃ hc),
    bind_of_ok (hw h₄ he)]
  rfl

variable (ht : Reads type (Derives true .union))
include ht

theorem gather_parameters_of_closeParen (h : (s.ahead 0).kind = .punct .closeParen) :
    gather (parameterRound type) s = .ok [] s := by
  refine gather_of_done (parameterRound_advances ht) ?_
  rw [parameterRound, bind_of_ok sees_apply, h, if_pos (by simp)]
  rfl

theorem takes_noParameter (hi : i.token.kind = .punct .closeParen) :
    Symbol.parameters.Taken type [i] [] := fun s s' hp _ =>
  closed_of_gather (gather_parameters_of_closeParen ht (by rw [hp.ahead_zero, hi])) hp hi

theorem takes_lastParameter {a : Parameter} (hd : Derives keep .parameter w a)
    (hw : Symbol.parameter.Taken type w a) (hi : i.token.kind = .punct .closeParen) :
    Symbol.parameters.Taken type (w ++ [i]) [a] := by
  intro s s' hp _
  obtain ⟨m, h₁, h₂⟩ := Stream.passes_append_iff.1 hp
  have hclose : (m.ahead 0).kind = .punct .closeParen := by rw [h₂.ahead_zero, hi]
  refine closed_of_gather (gather_of_one (parameterRound_advances ht) ?_
    (gather_parameters_of_closeParen ht hclose)) h₂ hi
  rw [parameterRound, bind_of_ok sees_apply,
    if_neg (by simpa using ne_closeParen_of_parameter hd h₁),
    bind_of_ok (hw h₁ (endsUnion_of_kind hclose (by decide))), bind_of_ok sees_apply,
    if_pos (by simp [hclose])]
  rfl

theorem takes_nextParameter {a : Parameter} {as : List Parameter} (hd : Derives keep .parameter w a)
    (hw : Symbol.parameter.Taken type w a) (hi : i.token.kind = .punct .comma)
    (hv : Symbol.parameters.Taken type v as) :
    Symbol.parameters.Taken type (w ++ i :: v) (a :: as) := by
  intro s s' hp _
  obtain ⟨m, h₁, hp⟩ := Stream.passes_append_iff.1 hp
  obtain ⟨m₁, h₂, h₃⟩ := Passes.uncons hp
  have hcomma : (m.ahead 0).kind = .punct .comma := by rw [h₂.ahead_zero, hi]
  have hround : parameterRound type s = .ok (.more [a]) m₁ := by
    rw [parameterRound, bind_of_ok sees_apply,
      if_neg (by simpa using ne_closeParen_of_parameter hd h₁),
      bind_of_ok (hw h₁ (endsUnion_of_kind hcomma (by decide))), bind_of_ok sees_apply,
      if_neg (by simp [hcomma]), bind_of_ok (expect_one_of_passes h₂ hi)]
    rfl
  exact closed_of_more (parameterRound_advances ht) hround (hv h₃ trivial)

theorem takes_noMember (hi : i.token.kind = .punct .closeBrace) :
    Symbol.members.Taken type [i] (memberNotes true i) := by
  intro s s' hp _
  have hs := hp.items
  have hclose : (s.afterComments.ahead 0).kind = .punct .closeBrace := by
    rw [Stream.ahead_afterComments, hp.ahead_zero, hi]
  refine closed_of_gather (gather_of_done (memberRound_advances ht) ?_)
    ((Stream.passes_afterComments_iff hs).2 hp) hi
  rw [memberRound, bind_of_ok takeComments_apply, bind_of_ok sees_apply, hclose, if_pos (by simp),
    Stream.comments_eq hs]
  rfl

theorem takes_nextMember {e : List Item} {a : Member} {as : List Member}
    (hd : Derives true .member (i.bare :: w) a) (hw : Symbol.member.Taken type (i.bare :: w) a)
    (he : Terminator true [.punct .closeBrace] (i.bare :: w) e v)
    (hdv : Derives true .members v as) (hv : Symbol.members.Taken type v as) :
    Symbol.members.Taken type (i :: w ++ e ++ v) (memberNotes true i ++ a :: as) := by
  intro s s' hp _
  obtain ⟨m₂, hp, h₃⟩ := Stream.passes_append_iff.1 hp
  obtain ⟨m₁, h₁, h₂⟩ := Stream.passes_append_iff.1 hp
  have hs := h₁.items
  replace h₁ := (Stream.passes_afterComments_iff hs).2 h₁
  have hends := endsUnion_of_terminator he h₂ (endsUnion_of_members hdv h₃)
  have hne := not_closed_of_member hd h₁
  have hround : memberRound type s = .ok (.more (memberNotes true i ++ [a])) m₂ := by
    rw [memberRound, bind_of_ok takeComments_apply, bind_of_ok sees_apply,
      if_neg (by simpa using hne.1), bind_of_ok sees_apply, if_neg (by simpa using hne.2),
      bind_of_ok (hw h₁ hends), bind_of_ok (terminator_of_terminator he h₁ h₂ h₃ (by decide)),
      Stream.comments_eq hs]
    rfl
  have h := closed_of_more (memberRound_advances ht) hround (hv h₃ trivial)
  rwa [List.append_assoc] at h

end

/-! ### Types and members -/

section

variable {type : Reader TypeExpr} {n : Nat}

/-- What is derived is taken, given that the types within it are. -/
theorem Derives.taken {c : Symbol} {a : c.Value} (h : Derives true c w a)
    (hr : Reads type (Derives true .union))
    (ht : ∀ ⦃v t⦄, v.length < n → Derives true .union v t → Takes type EndsUnion v t)
    (hn : w.length ≤ n) : c.Taken type w a := by
  -- Types in parentheses, of parameters and of members are read one level further down, by `ht`.
  -- What is read at the same level is taken by induction, being no longer than the whole.
  induction h with try simp only [List.length_append, List.length_cons] at hn
  | union hl hw hv hu ihw ihv =>
    intro s s' hp he
    obtain rfl := joined_iff.1 hu
    have hc := chain_of_takes hl (ihw (by omega)) (ihv (by omega)) hp he
      (fun _ _ => ne_pipe_of_intersection hw) fun _ hm => endsIntersection_of_alternatives hv hm he
    rw [Reader.union, bind_of_ok hc]
    rfl
  | noAlternative =>
    exact takes_noOperand (operandRound_advances (reads_intersection hr)) fun _ h => h.2
  | alternative hi hw hv ihw ihv =>
    intro s s' hp he
    obtain ⟨m, h₁, h₂⟩ := Stream.passes_append_iff.1 hp
    exact gather_of_one (operandRound_advances (reads_intersection hr))
      (operandRound_of_takes hi (ihw (by omega)) h₁ (endsIntersection_of_alternatives hv h₂ he))
      (ihv (by omega) h₂ he)
  | intersection hl hw hv hu ihw ihv =>
    intro s s' hp he
    obtain rfl := joined_iff.1 hu
    have hc := chain_of_takes hl (ihw (by omega)) (ihv (by omega)) hp he
      (fun _ _ => ne_ampersand_of_array hw) fun _ hm => endsArray_of_factors hv hm he
    rw [Reader.intersection, bind_of_ok hc]
    rfl
  | noFactor =>
    exact takes_noOperand (operandRound_advances (reads_arrayType hr)) fun _ h => h.2
  | factor hi hw hv ihw ihv =>
    intro s s' hp he
    obtain ⟨m, h₁, h₂⟩ := Stream.passes_append_iff.1 hp
    exact gather_of_one (operandRound_advances (reads_arrayType hr))
      (operandRound_of_takes hi (ihw (by omega)) h₁ (endsArray_of_factors hv h₂ he))
      (ihv (by omega) h₂ he)
  | array _ hv ih =>
    exact takes_array (ih (by omega)) hv
  | reference hi hw => exact takes_reference hi hw
  | literal hi => exact takes_literal hi
  | object hi _ ih =>
    exact takes_object hi (ih (by omega))
  | parentheses hi hw hj _ =>
    exact takes_parentheses hi (ht (by omega) hw) hj
  | parameter hk hq hc hw _ =>
    exact takes_parameter hk hq hc (ht (by omega) hw)
  | noParameter hi => exact takes_noParameter hr hi
  | lastParameter hp hi ih =>
    exact takes_lastParameter hr hp (ih (by omega)) hi
  | nextParameter hp hi _ ihw ihv =>
    exact takes_nextParameter hr hp (ihw (by omega)) hi (ihv (by omega))
  | call hi _ hc hw ihv _ =>
    exact takes_call hi (ihv (by omega)) hc (ht (by omega) hw)
  | index hi hk hc hv hj hd hw _ _ =>
    exact takes_index hi hk hc (ht (by omega) hv) hj hd (ht (by omega) hw)
  | property hr hk hq hc hw _ =>
    exact takes_property hr hk hq hc (ht (by omega) hw)
  | method hk hq hi _ hc hw ihv _ =>
    exact takes_method hk hq hi (ihv (by omega)) hc (ht (by omega) hw)
  | noMember hi => exact takes_noMember hr hi
  | nextMember hd he hv ihw ihv =>
    rw [List.length_cons] at ihw
    exact takes_nextMember hr hd (ihw (by omega)) he hv (ihv (by omega))

end

/-- Within a type, one level of the depth is left for each token. -/
theorem takes_nested (d : Nat) :
    ∀ ⦃w t⦄, w.length < d → Derives true .union w t → Takes (nested d) EndsUnion w t := by
  induction d with
  | zero => exact fun _ _ hd => absurd hd (Nat.not_lt_zero _)
  | succ d ih => exact fun _ _ hd h => h.taken (reads_nested d) ih (Nat.le_of_lt_succ hd)

theorem takes_typeExpr {t : TypeExpr} (h : Derives true .union w t) :
    Takes typeExpr EndsUnion w t := by
  intro s s' hp he
  have hlen := hp.length
  exact takes_nested _ (by omega) h hp he

end StyleDecl.Grammar
