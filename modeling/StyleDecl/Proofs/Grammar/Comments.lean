import StyleDecl.Proofs.Grammar.Complete.Statements
import StyleDecl.Proofs.Respelled

/-!
# Comments and the grammar

Comments make no difference to what may stand in a text. What is derived with
comments is derived without them (`Derives.forget`), and what is derived without
comments is derived with them (`Derives.recall`). For files the second is not quite
the same derivation: a semicolon on a new line may be the end of the statement
before it as well as an empty statement, and where comments are kept, the end takes
it.

* `Token.uncommented`: the tokens that are no comments;
* `ofTokens?_iff_derives`: a file is read exactly if its tokens derive it, up to
  comments.
-/

namespace StyleDecl

namespace Token

variable {t u e : Token} {ts us : List Token}

/-- What a token is, wherever it stands. -/
def content (t : Token) : Kind × String := (t.kind, t.text)

theorem kind_of_content (h : u.content = t.content) : u.kind = t.kind := congrArg Prod.fst h

theorem text_of_content (h : u.content = t.content) : u.text = t.text := congrArg Prod.snd h

/-- The tokens that are no comments. -/
def uncommented (ts : List Token) : List Token := ts.filter fun t => t.kind ≠ .comment

theorem mem_uncommented : t ∈ uncommented ts ↔ t ∈ ts ∧ t.kind ≠ .comment := by
  simp [uncommented]

theorem uncommented_cons (h : t.kind ≠ .comment) : uncommented (t :: ts) = t :: uncommented ts :=
  List.filter_cons_of_pos (decide_eq_true h)

theorem uncommented_cons_of_comment (h : t.kind = .comment) :
    uncommented (t :: ts) = uncommented ts :=
  List.filter_cons_of_neg (by simpa using h)

theorem uncommented_append : uncommented (ts ++ us) = uncommented ts ++ uncommented us :=
  List.filter_append ..

theorem uncommented_eq_self (h : ∀ t ∈ ts, t.kind ≠ .comment) : uncommented ts = ts :=
  List.filter_eq_self.2 fun t ht => decide_eq_true (h t ht)

theorem uncommented_concat (he : e.kind = .eof) :
    uncommented (ts ++ [e]) = uncommented ts ++ [e] := by
  simp [uncommented, he]

end Token

namespace Grammar

open Reader

variable {keep : Bool} {c : Symbol} {w v e : List Item} {i : Item}

/-- What is derived from a symbol, with literals and keys spelled by `f` and without
    comments. -/
def Symbol.respelled (f : String → String) : (c : Symbol) → c.Value → c.Value
  | .union, t | .intersection, t | .array, t | .primary, t => TypeExpr.respelled f t
  | .alternatives, ts | .factors, ts => List.map (TypeExpr.respelled f) ts
  | .parameter, p => Parameter.respelled f p
  | .parameters, ps => List.map (Parameter.respelled f) ps
  | .member, m => Member.respelled f m
  | .members, ms => Member.respelledAll f ms

/-! ### Notes -/

section

variable {α : Type}

/-- The comments before an item are nothing but comments. -/
theorem isComment_of_mem_memberNotes {m : Member} (h : m ∈ memberNotes keep i) :
    m.isComment = true := by
  cases keep with
  | false => cases h
  | true =>
    obtain ⟨t, -, rfl⟩ := List.mem_map.1 h
    rfl

theorem isComment_of_mem_statementNotes {s : Statement} (h : s ∈ statementNotes keep i) :
    s.isComment = true := by
  have hall (cs : List Token) (t : Token) : ∀ s ∈ commentStatements cs t, s.isComment = true := by
    fun_induction commentStatements cs t with
    | case1 => exact List.forall_mem_nil _
    | case2 => exact List.forall_mem_singleton.2 rfl
    | case3 _ _ _ _ ih => exact List.forall_mem_cons.2 ⟨rfl, ih⟩
  cases keep with
  | false => cases h
  | true => exact hall _ _ s h

/-- What comments do not have is not in the comments before an item. -/
theorem flatMap_memberNotes {f : Member → List α} (hf : ∀ m, m.isComment = true → f m = []) :
    (memberNotes keep i).flatMap f = [] :=
  List.flatMap_eq_nil_iff.2 fun m hm => hf m (isComment_of_mem_memberNotes hm)

theorem flatMap_statementNotes {f : Statement → List α}
    (hf : ∀ s, s.isComment = true → f s = []) : (statementNotes keep i).flatMap f = [] :=
  List.flatMap_eq_nil_iff.2 fun s hs => hf s (isComment_of_mem_statementNotes hs)

@[simp] theorem filter_memberNotes : (memberNotes keep i).filter (!·.isComment) = [] :=
  List.filter_eq_nil_iff.2 fun m hm => by simp [isComment_of_mem_memberNotes hm]

@[simp] theorem filter_statementNotes : (statementNotes keep i).filter (!·.isComment) = [] :=
  List.filter_eq_nil_iff.2 fun s hs => by simp [isComment_of_mem_statementNotes hs]

end

/-! ### Forgetting comments -/

theorem Terminator.forget {closers : List Kind} {before : List Item}
    (h : Terminator keep closers before e v) : Terminator false closers before e v := by
  cases h with
  | mark hi => exact .mark hi
  | closer hn hk => exact .closer hn hk
  | lineBreak hl hn hline _ => exact .lineBreak hl hn hline nofun

/-- Only a comment is derived as one. -/
theorem Derives.isComment_eq_false {a : Member} (h : Derives keep .member w a) :
    a.isComment = false := by
  cases h <;> rfl

@[simp] theorem respelledAll_memberNotes (f : String → String) :
    Member.respelledAll f (memberNotes keep i) = [] := by
  cases keep with
  | true => exact Member.respelledAll_commentMembers f _
  | false => rfl

/-- What is derived is derived without its comments. -/
theorem Derives.forget {a : c.Value} (h : Derives keep c w a) :
    Derives false c w (c.respelled id a) := by
  induction h with
  | union hl _ _ hu ihw ihv =>
    obtain rfl := joined_iff.1 hu
    simp only [Symbol.respelled, TypeExpr.respelled_combined_union, List.map_cons]
    exact .union hl ihw ihv joined_combined
  | noAlternative => exact .noAlternative
  | alternative hi _ _ ihw ihv => exact .alternative hi ihw ihv
  | intersection hl _ _ hu ihw ihv =>
    obtain rfl := joined_iff.1 hu
    simp only [Symbol.respelled, TypeExpr.respelled_combined_intersection, List.map_cons]
    exact .intersection hl ihw ihv joined_combined
  | noFactor => exact .noFactor
  | factor hi _ _ ihw ihv => exact .factor hi ihw ihv
  | array _ hb ih =>
    simp only [Symbol.respelled, TypeExpr.respelled_iterate_array]
    exact .array ih hb
  | reference hi hp => exact .reference hi hp
  | literal hi => exact .literal hi
  | object hi _ ih => exact .object hi ih
  | parentheses hi _ hj ih => exact .parentheses hi ih hj
  | parameter hn hq hc _ ih => exact .parameter hn hq hc ih
  | noParameter hi => exact .noParameter hi
  | lastParameter _ hi ih => exact .lastParameter ih hi
  | nextParameter _ hi _ ihw ihv => exact .nextParameter ihw hi ihv
  | call hi _ hc _ ihv ihw =>
    simp only [Symbol.respelled, Member.respelled, Parameter.respelledAll_eq_map]
    exact .call hi ihv hc ihw
  | index hi hn hc _ hj hd _ ihv ihw => exact .index hi hn hc ihv hj hd ihw
  | property hr hk hq hc _ ih => exact .property hr hk hq hc ih
  | method hk hq hi _ hc _ ihv ihw =>
    simp only [Symbol.respelled, Member.respelled, Parameter.respelledAll_eq_map]
    exact .method hk hq hi ihv hc ihw
  | noMember hi =>
    simp only [Symbol.respelled, respelledAll_memberNotes]
    exact .noMember hi
  | nextMember hd he _ ihw ihv =>
    simp only [Symbol.respelled, Member.respelledAll_append, respelledAll_memberNotes,
      List.nil_append, Member.respelledAll_cons id hd.isComment_eq_false]
    exact .nextMember ihw he.forget ihv

/-! ### Recalling comments -/

/-- Any items can be passed on some stream. -/
theorem exists_stream (w : List Item) : ∃ s s' : Stream, s.Passes w s' :=
  ⟨{ Stream.ofTokens [] with items := w }, Stream.exists_passes (List.append_nil w).symm⟩

/-- Members do not begin with a mark, whatever comes before them. -/
theorem Derives.head_members {ms : List Member} (h : Derives keep .members w ms) {n : Item}
    (hn : n ∈ w.head?) : ¬EndMark n.token := by
  cases h with
  | noMember hi =>
    obtain rfl : _ = n := Option.some_inj.1 hn
    simp [EndMark, hi]
  | @nextMember i w e v m ms hd _ _ =>
    obtain rfl : i = n := Option.some_inj.1 hn
    obtain ⟨s, s', hs⟩ := exists_stream (i.bare :: w)
    have hne := starts_member hd hs
    rw [hs.ahead_zero, Item.token_bare] at hne
    rintro (hk | hk) <;> rw [hk] at hne <;> simp [Kind.keys, Kind.names] at hne

/-- An end that could be left out may be left out where no mark comes next. -/
theorem Terminator.recall {closers : List Kind} {before : List Item}
    (h : Terminator false closers before e v) (hv : ∀ n ∈ v.head?, ¬EndMark n.token) :
    Terminator true closers before e v := by
  cases h with
  | mark hi => exact .mark hi
  | closer hn hk => exact .closer hn hk
  | lineBreak hl hn hline _ => exact .lineBreak hl hn hline fun _ => hv _ hn

/-- What is derived without comments is derived with them. -/
theorem Derives.recall {b : c.Value} (h : Derives false c w b) :
    ∃ a, Derives true c w a ∧ c.respelled id a = b := by
  induction h with
  | union hl _ _ hu ihw ihv =>
    obtain ⟨t, hw, rfl⟩ := ihw
    obtain ⟨ts, hv, rfl⟩ := ihv
    obtain rfl := joined_iff.1 hu
    exact ⟨_, .union hl hw hv joined_combined, TypeExpr.respelled_combined_union id (t :: ts)⟩
  | noAlternative => exact ⟨_, .noAlternative, rfl⟩
  | alternative hi _ _ ihw ihv =>
    obtain ⟨t, hw, rfl⟩ := ihw
    obtain ⟨ts, hv, rfl⟩ := ihv
    exact ⟨_, .alternative hi hw hv, rfl⟩
  | intersection hl _ _ hu ihw ihv =>
    obtain ⟨t, hw, rfl⟩ := ihw
    obtain ⟨ts, hv, rfl⟩ := ihv
    obtain rfl := joined_iff.1 hu
    exact ⟨_, .intersection hl hw hv joined_combined,
      TypeExpr.respelled_combined_intersection id (t :: ts)⟩
  | noFactor => exact ⟨_, .noFactor, rfl⟩
  | factor hi _ _ ihw ihv =>
    obtain ⟨t, hw, rfl⟩ := ihw
    obtain ⟨ts, hv, rfl⟩ := ihv
    exact ⟨_, .factor hi hw hv, rfl⟩
  | array _ hb ih =>
    obtain ⟨t, hw, rfl⟩ := ih
    exact ⟨_, .array hw hb, TypeExpr.respelled_iterate_array id _ t⟩
  | reference hi hp => exact ⟨_, .reference hi hp, rfl⟩
  | literal hi => exact ⟨_, .literal hi, rfl⟩
  | object hi _ ih =>
    obtain ⟨ms, hw, rfl⟩ := ih
    exact ⟨_, .object hi hw, rfl⟩
  | parentheses hi _ hj ih =>
    obtain ⟨t, hw, rfl⟩ := ih
    exact ⟨_, .parentheses hi hw hj, rfl⟩
  | parameter hn hq hc _ ih =>
    obtain ⟨t, hw, rfl⟩ := ih
    exact ⟨_, .parameter hn hq hc hw, rfl⟩
  | noParameter hi => exact ⟨_, .noParameter hi, rfl⟩
  | lastParameter _ hi ih =>
    obtain ⟨p, hw, rfl⟩ := ih
    exact ⟨_, .lastParameter hw hi, rfl⟩
  | nextParameter _ hi _ ihw ihv =>
    obtain ⟨p, hw, rfl⟩ := ihw
    obtain ⟨ps, hv, rfl⟩ := ihv
    exact ⟨_, .nextParameter hw hi hv, rfl⟩
  | call hi _ hc _ ihv ihw =>
    obtain ⟨ps, hv, rfl⟩ := ihv
    obtain ⟨t, hw, rfl⟩ := ihw
    exact ⟨_, .call hi hv hc hw, congrArg (Member.call · _) (Parameter.respelledAll_eq_map id ps)⟩
  | index hi hn hc _ hj hd _ ihv ihw =>
    obtain ⟨k, hv, rfl⟩ := ihv
    obtain ⟨t, hw, rfl⟩ := ihw
    exact ⟨_, .index hi hn hc hv hj hd hw, rfl⟩
  | property hr hk hq hc _ ih =>
    obtain ⟨t, hw, rfl⟩ := ih
    exact ⟨_, .property hr hk hq hc hw, rfl⟩
  | method hk hq hi _ hc _ ihv ihw =>
    obtain ⟨ps, hv, rfl⟩ := ihv
    obtain ⟨t, hw, rfl⟩ := ihw
    exact ⟨_, .method hk hq hi hv hc hw,
      congrArg (Member.method _ · _ _) (Parameter.respelledAll_eq_map id ps)⟩
  | noMember hi => exact ⟨_, .noMember hi, respelledAll_memberNotes id⟩
  | nextMember _ he hd ihw ihv =>
    obtain ⟨m, hw, rfl⟩ := ihw
    obtain ⟨ms, hv, rfl⟩ := ihv
    -- The next member begins with no mark, so that the end of this one may still be left out.
    refine ⟨_, .nextMember hw (he.recall fun _ => hd.head_members) hv, ?_⟩
    refine (Member.respelledAll_append id _ (m :: ms)).trans ?_
    rw [respelledAll_memberNotes]
    exact Member.respelledAll_cons id hw.isComment_eq_false ms

/-! ### Statements and files -/

@[simp] theorem withoutComments_statementNotes :
    Statement.withoutComments (statementNotes keep i) = [] := by
  rw [Statement.withoutComments, filter_statementNotes, List.map_nil]

theorem DerivesStatement.isComment_eq_false {a : Statement} (h : DerivesStatement keep v w a) :
    a.isComment = false := by
  cases h <;> rfl

theorem DerivesStatement.forget {a : Statement} (h : DerivesStatement keep v w a) :
    DerivesStatement false v w a.uncommented := by
  cases h with
  | exportDefault hu hi hd hn he => exact .exportDefault hu hi hd hn he.forget
  | typeAlias hu hi hn hq hd he => exact .typeAlias hu hi hn hq hd.forget he.forget
  | interfaceDecl hu hi hn hb hd => exact .interfaceDecl hu hi hn hb hd.forget
  | classDecl hu hi hn hb hd => exact .classDecl hu hi hn hb hd.forget
  | untyped hu hi hn he => exact .untyped hu hi hn he.forget
  | typed hu hi hn hc hd he => exact .typed hu hi hn hc hd.forget he.forget

theorem DerivesFile.forget {ss : List Statement} (h : DerivesFile keep w ss) :
    DerivesFile false w (Statement.withoutComments ss) := by
  induction h with
  | done hi =>
    rw [withoutComments_statementNotes]
    exact .done hi
  | empty hi _ ih =>
    rw [Statement.withoutComments_append, withoutComments_statementNotes]
    exact .empty hi ih
  | statement hd _ ih =>
    rw [Statement.withoutComments_append, withoutComments_statementNotes,
      Statement.withoutComments_cons hd.isComment_eq_false]
    exact .statement hd.forget ih

/-- That the items `v` derive the statements `ss` of a file, up to comments. -/
def Recalls (v : List Item) (ss : List Statement) : Prop :=
  ∃ ss', DerivesFile true v ss' ∧ Statement.withoutComments ss' = ss

/-- A mark that begins a file is a semicolon, and an empty statement. -/
theorem DerivesFile.of_endMark {ss : List Statement} (h : DerivesFile keep (i :: v) ss)
    (hi : EndMark i.token) : i.token.kind = .punct .semicolon ∧
      ∃ ss', DerivesFile keep v ss' ∧ ss = statementNotes keep i ++ ss' := by
  cases h with
  | done hk => exact absurd hk hi.ne_eof
  | empty hk hv => exact ⟨hk, _, hv, rfl⟩
  | statement hd _ =>
    obtain ⟨s, s', hs⟩ := exists_stream (i.bare :: _)
    obtain ⟨k, hk⟩ := starts_statement hd hs
    rw [hs.ahead_zero, Item.token_bare] at hk
    rcases hi with hi | hi <;> rw [hi] at hk <;> cases hk

/-- The end of a statement takes the semicolon that begins what comes after it. -/
theorem Terminator.recall_file {before : List Item} {ss : List Statement}
    (h : Terminator false [] before e v) (hv : Recalls v ss) :
    ∃ x v', v = x ++ v' ∧ Terminator true [] before (e ++ x) v' ∧ Recalls v' ss := by
  cases h with
  | mark hi => exact ⟨[], v, rfl, .mark hi, hv⟩
  | closer hn hk => exact ⟨[], v, rfl, .closer hn hk, hv⟩
  | @lineBreak l n _ hl hn hline _ =>
    -- The next line may begin with a semicolon. Without comments, this could be an empty statement;
    -- with them, it ends the statement before it.
    by_cases hmark : EndMark n.token
    · obtain ⟨v', rfl⟩ := List.head?_eq_some_iff.1 hn
      obtain ⟨ss', hd, rfl⟩ := hv
      obtain ⟨-, ss'', hd', rfl⟩ := hd.of_endMark hmark
      exact ⟨[n], v', rfl, .mark hmark, ss'', hd', by simp⟩
    · exact ⟨[], v, rfl, .lineBreak hl hn hline fun _ => hmark, hv⟩

/-- What is derived without comments is derived with them, but for the semicolon that
    begins what comes after it. -/
theorem DerivesStatement.recall {a : Statement} {ss : List Statement}
    (h : DerivesStatement false v w a) (hv : Recalls v ss) :
    ∃ x v' a', v = x ++ v' ∧ DerivesStatement true v' (w ++ x) a' ∧ a'.uncommented = a ∧
      Recalls v' ss := by
  cases h with
  -- Only statements without a body take a semicolon from the next line.
  | exportDefault hu hi hd hn he =>
    obtain ⟨x, v', hx, he, hv'⟩ := he.recall_file hv
    refine ⟨x, v', .exportDefault _, hx, ?_, rfl, hv'⟩
    simpa using DerivesStatement.exportDefault hu hi hd hn he
  | typeAlias hu hi hn hq hd he =>
    obtain ⟨x, v', hx, he, hv'⟩ := he.recall_file hv
    obtain ⟨t, ht, rfl⟩ := hd.recall
    refine ⟨x, v', .typeAlias _ t _, hx, ?_, rfl, hv'⟩
    simpa using DerivesStatement.typeAlias hu hi hn hq ht he
  | interfaceDecl hu hi hn hb hd =>
    obtain ⟨ms, hms, rfl⟩ := hd.recall
    refine ⟨[], v, .interfaceDecl _ ms _, rfl, ?_, rfl, hv⟩
    simpa using DerivesStatement.interfaceDecl hu hi hn hb hms
  | classDecl hu hi hn hb hd =>
    obtain ⟨ms, hms, rfl⟩ := hd.recall
    refine ⟨[], v, .classDecl _ ms _, rfl, ?_, rfl, hv⟩
    simpa using DerivesStatement.classDecl hu hi hn hb hms
  | untyped hu hi hn he =>
    obtain ⟨x, v', hx, he, hv'⟩ := he.recall_file hv
    refine ⟨x, v', .variableDecl _ _ none _, hx, ?_, rfl, hv'⟩
    simpa using DerivesStatement.untyped hu hi hn he
  | typed hu hi hn hc hd he =>
    obtain ⟨x, v', hx, he, hv'⟩ := he.recall_file hv
    obtain ⟨t, ht, rfl⟩ := hd.recall
    refine ⟨x, v', .variableDecl _ _ (some t) _, hx, ?_, rfl, hv'⟩
    simpa using DerivesStatement.typed hu hi hn hc ht he

theorem DerivesFile.recall {ss : List Statement} (h : DerivesFile false w ss) : Recalls w ss := by
  induction h with
  | done hi => exact ⟨_, .done hi, withoutComments_statementNotes⟩
  | @empty i v ss hi _ ih =>
    obtain ⟨ss', hv, rfl⟩ := ih
    refine ⟨_, .empty hi hv, ?_⟩
    rw [Statement.withoutComments_append, withoutComments_statementNotes]
    rfl
  | @statement i w v a ss hd _ ih =>
    obtain ⟨x, v', a', rfl, ha, rfl, ss', hv, rfl⟩ := hd.recall ih
    rw [← List.append_assoc]
    refine ⟨_, .statement ha hv, ?_⟩
    rw [Statement.withoutComments_append, withoutComments_statementNotes,
      Statement.withoutComments_cons ha.isComment_eq_false]
    rfl

/-! ### Reading a list of tokens -/

/-- Grouping keeps the only token for the end of the text the last one. -/
theorem closed_group {tokens : List Token} {e : Token} (he : e.kind = .eof)
    (hne : ∀ t ∈ tokens, t.kind ≠ .eof) : Closed (Item.group (tokens ++ [e])) := by
  induction tokens with
  | nil => simpa [Item.group, he] using Closed.last (i := ⟨[], e⟩) he
  | cons t tokens ih =>
    rw [List.forall_mem_cons] at hne
    replace ih := ih hne.2
    rw [List.cons_append, Item.group]
    split
    · generalize Item.group (tokens ++ [e]) = w at ih
      cases ih with
      | last hi => exact .last hi
      | cons hi hw => exact .cons hi hw
    · exact .cons hne.1 ih

/-- A file is read from a list of tokens exactly if they derive it, up to comments. -/
theorem ofTokens?_iff_derives {tokens : List Token} {e : Token} (he : e.kind = .eof)
    (hne : ∀ t ∈ tokens, t.kind ≠ .eof) (ss : List Statement) :
    (∃ file, DeclFile.ofTokens? (tokens ++ [e]) = .ok file ∧
        Statement.withoutComments file.statements = ss) ↔
      DerivesFile false (Item.group (tokens ++ [e])) ss := by
  constructor
  · rintro ⟨f, hf, rfl⟩
    rw [DeclFile.ofTokens?] at hf
    split at hf
    · next hread =>
      cases hf
      exact (file_sound hread (closed_group he hne)).forget
    · cases hf
  · intro h
    obtain ⟨ss', hd, rfl⟩ := h.recall
    exact ⟨⟨ss'⟩, hd.ofTokens?, rfl⟩

/-- A statement may end where a new line begins, whatever comment stands before it. -/
theorem derives_alias_and_default :
    DerivesFile false
      (Item.group ([⟨.keyword .type, "type", 1, 1, 1⟩, ⟨.identifier, "A", 1, 6, 1⟩,
        ⟨.punct .equals, "=", 1, 8, 1⟩, ⟨.identifier, "B", 1, 10, 1⟩,
        ⟨.comment, "// end", 1, 12, 1⟩, ⟨.keyword .exportWord, "export", 2, 1, 2⟩,
        ⟨.keyword .default, "default", 2, 8, 2⟩, ⟨.identifier, "A", 2, 16, 2⟩] ++
        [⟨.eof, "", 2, 17, 2⟩]))
      [.typeAlias "A" (.reference "B") [], .exportDefault "A"] :=
  (ofTokens?_iff_derives rfl (by decide) _).1 ⟨_, by rfl, rfl⟩

end Grammar

end StyleDecl
