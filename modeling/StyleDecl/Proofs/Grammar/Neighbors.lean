import StyleDecl.Proofs.Grammar.Bodies

/-!
# Neighbors

Declarations that come one after the other, be it in a file or in the body of another
declaration, are parted: marks stand between their tokens, or a new line begins there.

* `MemberAt`, `StatementAt`: where a declaration stands in a derivation;
* `Parted`: what parts a declaration from the next;
* `Derives.parted`, `DerivesFile.parted`: consecutive members and statements are parted.
-/

namespace StyleDecl

/-- Whether a statement has an end of its own, a mark or what stands for it. A body is closed by
    its brace. -/
def Statement.hasEnd : Statement → Bool
  | .typeAlias _ _ _ | .variableDecl _ _ _ _ | .exportDefault _ => true
  | _ => false

namespace Grammar

variable {keep : Bool} {w v v' x y e : List Item} {marks : List Token} {closers : List Kind}
  {R R' : Token → Token → Prop} {a b : Member} {before after ms : List Member} {s t : Statement}
  {past future ss : List Statement}

theorem tokens_append : tokens (w ++ v) = tokens w ++ tokens v := List.map_append

/-! ### Places in a derivation -/

/-- In a body that is derived from `w`, the member `a` is derived from `x` with the end `e`, and the
    members `after` of the body from the items `v` behind it. -/
structure MemberAt (keep : Bool) (w : List Item) (a : Member) (after : List Member)
    (x e v : List Item) : Prop where
  place : ∃ front, tokens w = front ++ tokens (x ++ e ++ v)
  derives : Derives keep .member x a
  terminator : Terminator keep [.punct .closeBrace] x e v
  rest : ∃ ms, Derives keep .members v ms ∧ ms.filter (!·.isComment) = after

/-- In a file that is derived from `w`, the statement `s` is derived from `x`, and the statements
    `future` of the file from the items `v` behind it. -/
structure StatementAt (keep : Bool) (w : List Item) (s : Statement) (future : List Statement)
    (x v : List Item) : Prop where
  place : ∃ front, tokens w = front ++ tokens (x ++ v)
  derives : DerivesStatement keep v x s
  rest : ∃ ss, DerivesFile keep v ss ∧ ss.filter (!·.isComment) = future

theorem MemberAt.behind (h : MemberAt keep v a after x e v')
    (hw : ∃ front, tokens w = front ++ tokens v) : MemberAt keep w a after x e v' := by
  obtain ⟨front, hv⟩ := h.place
  obtain ⟨front', hw⟩ := hw
  exact { h with place := ⟨front' ++ front, by rw [hw, hv, ← List.append_assoc]⟩ }

theorem StatementAt.behind (h : StatementAt keep v s future x v')
    (hw : ∃ front, tokens w = front ++ tokens v) : StatementAt keep w s future x v' := by
  obtain ⟨front, hv⟩ := h.place
  obtain ⟨front', hw⟩ := hw
  exact { h with place := ⟨front' ++ front, by rw [hw, hv, ← List.append_assoc]⟩ }

/-! ### What parts tokens -/

/-- The declaration `x` has the end `e`, and the items `v` behind it begin with the declaration `y`.
    Nothing but marks stands between `x` and `y`, and if none does, the last token of `x` and the
    first one of `y` are related by `R`. -/
def Parted (R : Token → Token → Prop) (x e v y v' : List Item) : Prop :=
  ∃ marks, tokens v = marks ++ tokens (y ++ v') ∧ (∀ t ∈ tokens e ++ marks, EndMark t) ∧
    (tokens e ++ marks = [] → ∃ l ∈ (tokens x).getLast?, ∃ n ∈ (tokens y).head?, R l n)

/-- The token `n` begins on a line below the last one of the token `l`. -/
def Below (l n : Token) : Prop := l.endLine < n.line

/-- Only neighbors need to be related. -/
theorem Parted.mono (h : Parted R x e v y v')
    (hR : ∀ before l n after, tokens (x ++ e ++ v) = before ++ l :: n :: after →
      n ∈ (tokens y).head? → R l n → R' l n) :
    Parted R' x e v y v' := by
  obtain ⟨marks, hv, hmarks, hnone⟩ := h
  refine ⟨marks, hv, hmarks, fun hnil => ?_⟩
  obtain ⟨l, hl, n, hn, hln⟩ := hnone hnil
  refine ⟨l, hl, n, hn, ?_⟩
  obtain ⟨he, rfl⟩ := List.append_eq_nil_iff.1 hnil
  obtain ⟨xs, hxs⟩ := List.getLast?_eq_some_iff.1 hl
  obtain ⟨ys, hys⟩ := List.head?_eq_some_iff.1 hn
  refine hR xs l n (ys ++ tokens v') ?_ hn hln
  rw [tokens_append, tokens_append, hv, tokens_append, hxs, he, hys]
  simp

/-- A declaration is parted from what comes after its end and any further marks, provided that it
    is nothing that an end may be left out before. -/
theorem Terminator.parted (h : Terminator keep closers x e v)
    (hv : tokens v = marks ++ tokens (y ++ v')) (hmarks : ∀ t ∈ marks, EndMark t)
    (hy : ∃ n ns, tokens y = n :: ns ∧ n.kind ∉ closers ∧ n.kind ≠ .eof) :
    Parted Below x e v y v' := by
  obtain ⟨n, ns, hns, hn⟩ := hy
  have hends : ∀ t ∈ tokens e, EndMark t := by
    cases h with
    | mark hi => simpa [tokens] using hi
    | closer | lineBreak => nofun
  refine ⟨marks, hv, List.forall_mem_append.2 ⟨hends, hmarks⟩, fun hnil => ?_⟩
  obtain ⟨he, rfl⟩ := List.append_eq_nil_iff.1 hnil
  rw [List.nil_append, tokens_append, hns] at hv
  -- Nothing stands before `n`, so it is the token that the end looks at.
  have hhead : ∀ m ∈ v.head?, m.token = n := fun m hm => by
    obtain ⟨v, rfl⟩ := List.head?_eq_some_iff.1 hm
    exact List.head_eq_of_cons_eq hv
  cases h with
  | mark => cases he
  | closer hm hk =>
    rw [hhead _ hm] at hk
    exact absurd hk (not_or.2 hn)
  | lineBreak hl hm hline _ =>
    rw [hhead _ hm] at hline
    exact ⟨_, List.getLast?_map ▸ congrArg (Option.map Item.token) hl, n, hns ▸ rfl, hline⟩

/-! ### Consecutive members -/

/-- A member begins with neither the brace that closes a body nor the end of the text. -/
theorem Derives.head_member {m : Member} (h : Derives keep .member w m) :
    ∃ n ns, tokens w = n :: ns ∧ n.kind ∉ [Kind.punct .closeBrace] ∧ n.kind ≠ .eof := by
  obtain ⟨i, w, rfl⟩ := List.exists_cons_of_ne_nil (h.ne_nil nofun nofun)
  obtain ⟨s, s', hs⟩ := exists_stream (i :: w)
  have hstart := starts_member h hs
  rw [hs.ahead_zero] at hstart
  refine ⟨i.token, tokens w, rfl, ?_⟩
  generalize i.token.kind = k at hstart
  obtain rfl | ⟨rfl, -⟩ | hk := hstart
  · decide
  · decide
  · constructor <;> rintro h <;> simp_all [Kind.keys, Kind.names]

/-- The first member of a body, which stands at its beginning. -/
theorem Derives.memberAt (h : Derives keep .members w ms)
    (hms : ms.filter (!·.isComment) = a :: after) :
    ∃ x e v, MemberAt keep w a after x e v ∧ tokens w = tokens (x ++ e ++ v) := by
  cases h with
  | noMember =>
    rw [filter_memberNotes] at hms
    cases hms
  | @nextMember i w e v m ms hd he hv =>
    have hm : (m :: ms).filter (!·.isComment) = m :: ms.filter (!·.isComment) :=
      List.filter_cons_of_pos (by rw [hd.isComment_eq_false]; rfl)
    rw [List.filter_append, filter_memberNotes, List.nil_append, hm] at hms
    obtain ⟨rfl, hrest⟩ := List.cons.inj hms
    have htokens : tokens (i :: w ++ e ++ v) = tokens (i.bare :: w ++ e ++ v) := rfl
    exact ⟨i.bare :: w, e, v, ⟨⟨[], htokens⟩, hd, he, ms, hv, hrest⟩, htokens⟩

/-- A member and the next one, which stands at the beginning of what is behind the first. -/
theorem MemberAt.parted (h : MemberAt keep w a (b :: after) x e v) :
    ∃ y e' v', MemberAt keep v b after y e' v' ∧ Parted Below x e v y (e' ++ v') := by
  obtain ⟨ms, hd, hms⟩ := h.rest
  obtain ⟨y, e', v', hb, hv⟩ := hd.memberAt hms
  refine ⟨y, e', v', hb, h.terminator.parted ?_ (List.forall_mem_nil _) hb.derives.head_member⟩
  rw [hv, List.append_assoc, List.nil_append]

/-- Consecutive members are parted. -/
theorem Derives.parted (h : Derives keep .members w ms)
    (hms : ms.filter (!·.isComment) = before ++ a :: b :: after) :
    ∃ x e v y e' v', MemberAt keep w a (b :: after) x e v ∧ MemberAt keep v b after y e' v' ∧
      Parted Below x e v y (e' ++ v') := by
  induction before generalizing w ms with
  | nil =>
    obtain ⟨x, e, v, ha, -⟩ := h.memberAt hms
    obtain ⟨y, e', v', hb, hparted⟩ := ha.parted
    exact ⟨x, e, v, y, e', v', ha, hb, hparted⟩
  | cons c before ih =>
    obtain ⟨z, d, u, hc, hw⟩ := h.memberAt hms
    obtain ⟨ms', hd, hms'⟩ := hc.rest
    obtain ⟨x, e, v, y, e', v', ha, hb, hparted⟩ := ih hd hms'
    have hbehind : tokens w = tokens (z ++ d) ++ tokens u := by rw [hw, tokens_append]
    exact ⟨x, e, v, y, e', v', ha.behind ⟨_, hbehind⟩, hb, hparted⟩

/-! ### Consecutive statements -/

/-- A statement begins with a keyword. -/
theorem DerivesStatement.head {a : Statement} (h : DerivesStatement keep v w a) :
    ∃ n ns k, tokens w = n :: ns ∧ n.kind = .keyword k := by
  have hne : w ≠ [] := by cases h <;> simp
  obtain ⟨i, w, rfl⟩ := List.exists_cons_of_ne_nil hne
  obtain ⟨s, s', hs⟩ := exists_stream (i :: w)
  obtain ⟨k, hk⟩ := starts_statement h hs
  rw [hs.ahead_zero] at hk
  exact ⟨i.token, tokens w, k, rfl, hk⟩

/-- Only the last item before an end matters. -/
theorem Terminator.append_left (h : Terminator keep closers x e v) (u : List Item) :
    Terminator keep closers (u ++ x) e v := by
  cases h with
  | mark hi => exact .mark hi
  | closer hn hk => exact .closer hn hk
  | lineBreak hl hn hline hmark =>
    exact .lineBreak (List.mem_getLast?_append_of_mem_getLast? hl) hn hline hmark

/-- A statement that has an end of its own comes before this end. -/
theorem DerivesStatement.exists_end {a : Statement} (h : DerivesStatement keep v w a)
    (ha : a.hasEnd) : ∃ x e, w = x ++ e ∧ Terminator keep [] x e v := by
  cases h with
  | @exportDefault i d n u e _ _ _ _ _ he =>
    exact ⟨u ++ [i, d] ++ [n], e, by simp, he.append_left (u ++ [i, d])⟩
  | @typeAlias i n q u w e _ _ _ _ _ _ _ he =>
    exact ⟨u ++ [i, n, q] ++ w, e, by simp, he.append_left (u ++ [i, n, q])⟩
  | @untyped i n u e _ _ _ _ he =>
    exact ⟨u ++ [i] ++ [n], e, by simp, he.append_left (u ++ [i])⟩
  | @typed i n c u w e _ _ _ _ _ _ _ he =>
    exact ⟨u ++ [i, n, c] ++ w, e, by simp, he.append_left (u ++ [i, n, c])⟩
  | _ => cases ha

/-- The first statement of a file, which stands at its beginning behind empty ones. -/
theorem DerivesFile.statementAt (h : DerivesFile keep w ss)
    (hss : ss.filter (!·.isComment) = s :: future) :
    ∃ marks x v, StatementAt keep w s future x v ∧ tokens w = marks ++ tokens (x ++ v) ∧
      ∀ t ∈ marks, EndMark t := by
  induction h with
  | done =>
    rw [filter_statementNotes] at hss
    cases hss
  | @empty i v ss hi _ ih =>
    rw [List.filter_append, filter_statementNotes] at hss
    obtain ⟨marks, x, v', hs, hv, hmarks⟩ := ih hss
    exact ⟨i.token :: marks, x, v', hs.behind ⟨[i.token], rfl⟩, congrArg (i.token :: ·) hv,
      List.forall_mem_cons.2 ⟨.inl hi, hmarks⟩⟩
  | @statement i w v s' ss hd hv =>
    have hs : (s' :: ss).filter (!·.isComment) = s' :: ss.filter (!·.isComment) :=
      List.filter_cons_of_pos (by rw [hd.isComment_eq_false]; rfl)
    rw [List.filter_append, filter_statementNotes, List.nil_append, hs] at hss
    obtain ⟨rfl, hrest⟩ := List.cons.inj hss
    exact ⟨[], i.bare :: w, v, ⟨⟨[], rfl⟩, hd, ss, hv, hrest⟩, rfl, List.forall_mem_nil _⟩

/-- A statement that has an end of its own and the next one. The semicolons of empty statements
    are marks between the two. -/
theorem StatementAt.parted (h : StatementAt keep w s (t :: future) (x ++ e) v)
    (he : Terminator keep [] x e v) :
    ∃ y v', StatementAt keep v t future y v' ∧ Parted Below x e v y v' := by
  obtain ⟨ss, hd, hss⟩ := h.rest
  obtain ⟨marks, y, v', ht, hv, hmarks⟩ := hd.statementAt hss
  obtain ⟨n, ns, k, hy, hk⟩ := ht.derives.head
  exact ⟨y, v', ht, he.parted hv hmarks ⟨n, ns, hy, List.not_mem_nil, by rw [hk]; nofun⟩⟩

/-- Consecutive statements are parted, if the first has an end of its own. -/
theorem DerivesFile.parted (h : DerivesFile keep w ss)
    (hss : ss.filter (!·.isComment) = past ++ s :: t :: future) (hs : s.hasEnd) :
    ∃ x e v y v', StatementAt keep w s (t :: future) (x ++ e) v ∧ Terminator keep [] x e v ∧
      StatementAt keep v t future y v' ∧ Parted Below x e v y v' := by
  induction past generalizing w ss with
  | nil =>
    obtain ⟨marks, x, v, ha, -⟩ := h.statementAt hss
    obtain ⟨x, e, rfl, he⟩ := ha.derives.exists_end hs
    obtain ⟨y, v', hb, hparted⟩ := ha.parted he
    exact ⟨x, e, v, y, v', ha, he, hb, hparted⟩
  | cons r past ih =>
    obtain ⟨marks, z, u, hr, hw, -⟩ := h.statementAt hss
    obtain ⟨ss', hd, hss'⟩ := hr.rest
    obtain ⟨x, e, v, y, v', ha, he, hb, hparted⟩ := ih hd hss'
    have hbehind : tokens w = marks ++ tokens z ++ tokens u := by
      rw [hw, tokens_append, List.append_assoc]
    exact ⟨x, e, v, y, v', ha.behind ⟨_, hbehind⟩, he, hb, hparted⟩

end Grammar

end StyleDecl
