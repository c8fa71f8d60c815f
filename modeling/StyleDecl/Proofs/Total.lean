import StyleDecl.Formatter.Basic
import StyleDecl.Proofs.Grammar.Determined
import StyleDecl.Proofs.Grammar.Moved
import StyleDecl.Proofs.Cuts
import StyleDecl.Proofs.WellFormed

/-!
# Formatting is total

Every text is formatted or rejected, and it is rejected at one of its places: where a token
begins that is no comment, where no lexeme begins, or at the end (`Rejection.Within`).

Nothing goes wrong on the way. Reading comes to an end without the bounds that it is given, it
keeps to the tokens of the text (`DeclFile.KeepsWithin`), and what was read can be printed: nothing
in it is left open, and no key and no literal is empty, so there is a first character to tell by
whether it is quoted (`DeclFile.spellings`).

* `Rejection.Within`: the places of a text;
* `DeclFile.KeepsWithin`: reading that keeps to the tokens of a text;
* `format_total`: all of it.
-/

namespace StyleDecl

open Grammar Reader

/-! ### Places of rejections -/

/-- The rejection `r` stands behind the characters `before`. -/
def Rejection.StandsBehind (r : Rejection) (before : List Char) : Prop :=
  r.line = lineBehind before ∧ r.column = columnBehind before

/-- The rejection `r` stands at a place of the text `source`. -/
inductive Rejection.Within (source : String) (r : Rejection) : Prop
  /-- All of the text can be cut into lexemes, and one begins there that is no comment. -/
  | token {us : List Token} {before blanks cs rest : List Char} {l : Lexeme} :
    (∃ ts, Token.scan source = .ok ts) →
      Cuts [] source.toList us before (blanks ++ (cs ++ rest)) →
      (∀ b ∈ blanks, b.isWhitespace) → l.Longest cs (cs ++ rest) → l ≠ .comment →
      r.StandsBehind (before ++ blanks) → Within source r
  /-- No lexeme begins there. -/
  | lexeme {us : List Token} {before blanks rest : List Char} {c : Char} :
    Cuts [] source.toList us before (blanks ++ c :: rest) →
      (∀ b ∈ blanks, b.isWhitespace) → c.isWhitespace = false →
      (∀ ⦃l cs⦄, Lexeme.Forms l cs → ¬cs <+: c :: rest) →
      r.fault = .ofPlace c rest.head? → r.StandsBehind (before ++ blanks) → Within source r
  /-- All of the text can be cut into lexemes, and this is its end. -/
  | ending : (∃ ts, Token.scan source = .ok ts) → r.StandsBehind source.toList → Within source r

section

variable {source : String} {before rest : List Char} {t : Token}
  {us vs : List Token} {r : Rejection}

/-- A rejection at a token stands where the token does. -/
theorem Rejection.StandsAt.within {ts : List Token} (hr : r.StandsAt t)
    (hscan : Token.scan source = .ok ts) (ht : t ∈ ts) (hkind : t.kind ≠ .comment) :
    r.Within source := by
  obtain ⟨us, before, blanks, hcuts, -, hok⟩ | ⟨_, _, _, _, _, _, _, _, _, herror⟩ :=
    Token.exists_cuts source
  swap
  · rw [hscan] at herror
    cases herror
  obtain rfl := Except.ok.inj (hscan.symm.trans hok)
  rcases List.mem_append.1 ht with ht | ht
  · obtain ⟨us, vs, rfl⟩ := List.append_of_mem ht
    obtain ⟨l, m, blanks, cs, more, hbefore, hblanks, hl, rfl⟩ := hcuts.exists_of_append
    have hcomment : l ≠ .comment := by
      rintro rfl
      exact hkind rfl
    exact .token ⟨_, hscan⟩ hbefore hblanks hl hcomment hr
  · obtain rfl := List.mem_singleton.1 ht
    exact .ending ⟨_, hscan⟩ hr

/-- A text that is rejected is rejected at one of its places. -/
theorem DeclFile.within_of_ofText? (h : ofText? source = .error r) : r.Within source := by
  rw [ofText?] at h
  split at h
  · next tokens hscan =>
    obtain ⟨ts, e, rfl, he, hts⟩ := Token.exists_of_scan_eq_ok hscan
    obtain ⟨s', hs'⟩ := file_of_error h
    have hclosed := closed_group he fun t ht => (hts t ht).1
    obtain ⟨w, j, rest, hw, hj, hr, -⟩ := Grammar.exists_of_rejected hs' hclosed
    have hmem : j.token ∈ (Item.group (ts ++ [e])).map Item.token := by
      have htokens := hw.tokens
      rw [hj, List.map_cons] at htokens
      exact htokens ▸ List.mem_append_right _ (List.mem_cons_self ..)
    rw [Item.map_token_group, Token.mem_uncommented] at hmem
    exact hr.within hscan hmem.1 hmem.2
  · next hscan =>
    obtain ⟨_, _, _, _, _, hok⟩ |
           ⟨us, before, blanks, c, rest, hcuts, hblanks, hc, hnone, herror⟩ :=
      Token.exists_cuts source
    · rw [hscan] at hok
      cases hok
    · obtain rfl := Except.error.inj h
      obtain rfl := Except.error.inj (hscan.symm.trans herror)
      exact .lexeme hcuts hblanks hc hnone rfl ⟨rfl, rfl⟩

end

/-! ### The tokens of a text -/

/-- Reading the tokens `tokens` as a file keeps to them. It depends on nothing that is seen beyond
    their end or before their beginning. No token that was taken is ever put back, and so reading
    never was beyond the place where it ends: in front of the token that closes the text if this is
    read, and else in front of the token where it is rejected and perhaps of comments before it. -/
structure DeclFile.KeepsWithin (tokens : List Token) : Prop where
  unseen : ∀ s : Stream, s.items = Item.group tokens → outcome (file s) = ofTokens? tokens
  accepted : ∀ f s', file (.ofTokens tokens) = .ok f s' → ∃ e, e.kind = .eof ∧
    s'.items = [⟨[], e⟩] ∧ tokens.drop s'.consumed = [e]
  rejected : ∀ r s', file (.ofTokens tokens) = .error r s' → ∃ i rest, r.StandsAt i.token ∧
    s'.items = i :: rest ∧ tokens.drop s'.consumed = Item.spread (i :: rest)

section

variable {ts : List Token} {e : Token} {w : List Item} {s' : Stream}

/-- What is left of a list of tokens when a stream of them was read up to some place. -/
theorem Stream.Leads.drop_consumed (he : e.kind ≠ .comment)
    (h : (Stream.ofTokens (ts ++ [e])).Leads w s') :
    (ts ++ [e]).drop s'.consumed = Item.spread s'.items := by
  obtain ⟨read, htokens, hconsumed⟩ := h.consumed
  have hspread : Item.spread (Stream.ofTokens (ts ++ [e])).items = ts ++ [e] :=
    Item.spread_group he
  have hzero : (Stream.ofTokens (ts ++ [e])).consumed = 0 := rfl
  rw [hconsumed, hzero, Nat.zero_add, ← hspread, htokens, List.drop_left]

theorem DeclFile.keepsWithin (he : e.kind = .eof) (hne : ∀ t ∈ ts, t.kind ≠ .eof) :
    KeepsWithin (ts ++ [e]) := by
  have hclosed : Closed (Stream.ofTokens (ts ++ [e])).items := closed_group he hne
  have hcomment : e.kind ≠ .comment := by simp [he]
  refine ⟨fun s hs => ?_, fun f s' h => ?_, fun r s' h => ?_⟩
  · rw [ofTokens?, outcome_file (s := s) (t := .ofTokens (ts ++ [e])) hs (hs ▸ hclosed)]
    cases file (.ofTokens (ts ++ [e])) <;> rfl
  · obtain ⟨w, i, hw, hi, hcomments, heof⟩ := exists_of_file h hclosed
    obtain ⟨comments, e'⟩ := i
    obtain rfl := hcomments
    exact ⟨e', heof, hi, by rw [hw.drop_consumed hcomment, hi]; rfl⟩
  · obtain ⟨w, i, rest, hw, hi, hr, -⟩ := Grammar.exists_of_rejected h hclosed
    exact ⟨i, rest, hr, hi, by rw [hw.drop_consumed hcomment, hi]⟩

end

/-! ### What the printer looks into -/

mutual

/-- The literals and keys of a type. Their first characters tell how they are printed. -/
def TypeExpr.spellings : TypeExpr → List String
  | .hole => []
  | .reference _ => []
  | .literal raw => [raw]
  | .union members => TypeExpr.allSpellings members
  | .intersection members => TypeExpr.allSpellings members
  | .array element => element.spellings
  | .object members => Member.allSpellings members

/-- The literals and keys of types. -/
def TypeExpr.allSpellings : List TypeExpr → List String
  | [] => []
  | t :: ts => t.spellings ++ TypeExpr.allSpellings ts

/-- The literals and keys in the type of a parameter. -/
def Parameter.spellings : Parameter → List String
  | .mk _ type _ => type.spellings

/-- The literals and keys in the types of parameters. -/
def Parameter.allSpellings : List Parameter → List String
  | [] => []
  | p :: ps => p.spellings ++ Parameter.allSpellings ps

/-- The literals and keys of a member. -/
def Member.spellings : Member → List String
  | .hole => []
  | .property key type _ _ => key :: type.spellings
  | .method key parameters result _ =>
    key :: (Parameter.allSpellings parameters ++ result.spellings)
  | .call parameters result => Parameter.allSpellings parameters ++ result.spellings
  | .index parameter type => parameter.spellings ++ type.spellings
  | .comment _ => []

/-- The literals and keys of members. -/
def Member.allSpellings : List Member → List String
  | [] => []
  | m :: ms => m.spellings ++ Member.allSpellings ms

end

/-- The literals and keys of a statement. -/
def Statement.spellings : Statement → List String
  | .comment _ _ => []
  | .typeAlias _ type _ => type.spellings
  | .interfaceDecl _ members _ => Member.allSpellings members
  | .classDecl _ members _ => Member.allSpellings members
  | .variableDecl _ _ type _ => (type.map TypeExpr.spellings).getD []
  | .exportDefault _ => []

/-- The literals and keys of a file. -/
def DeclFile.spellings (file : DeclFile) : List String :=
  file.statements.flatMap Statement.spellings

theorem Kind.AnySpells.ne_empty {kinds : List Kind} {raw : String} (h : AnySpells kinds raw) :
    raw ≠ "" := by
  obtain ⟨k, -, hk⟩ := h
  obtain ⟨l, hl, -⟩ := Kind.spells_iff.1 hk
  obtain ⟨c, rest, hc, -⟩ := hl.starts
  rintro rfl
  cases hc

theorem TypeExpr.allSpellings_eq_flatMap (ts : List TypeExpr) :
    TypeExpr.allSpellings ts = ts.flatMap TypeExpr.spellings := by
  induction ts with
  | nil => rfl
  | cons t ts ih => rw [TypeExpr.allSpellings, ih, List.flatMap_cons]

theorem Parameter.allSpellings_eq_flatMap (ps : List Parameter) :
    Parameter.allSpellings ps = ps.flatMap Parameter.spellings := by
  induction ps with
  | nil => rfl
  | cons p ps ih => rw [Parameter.allSpellings, ih, List.flatMap_cons]

theorem Member.allSpellings_eq_flatMap (ms : List Member) :
    Member.allSpellings ms = ms.flatMap Member.spellings := by
  induction ms with
  | nil => rfl
  | cons m ms ih => rw [Member.allSpellings, ih, List.flatMap_cons]

mutual

/-- No literal and no key of a well-formed type is empty. -/
theorem TypeExpr.spellings_nonempty :
    {t : TypeExpr} → t.WellFormed → ∀ raw ∈ t.spellings, raw ≠ ""
  | .hole, h => h.elim
  | .reference _, _ => nofun
  | .literal _, h => List.forall_mem_singleton.2 h.ne_empty
  | .union ts, h => by
    have hts := TypeExpr.allWellFormed_iff.1 h.2
    rw [TypeExpr.spellings, TypeExpr.allSpellings_eq_flatMap, List.forall_mem_flatMap]
    exact fun t ht => TypeExpr.spellings_nonempty (hts t ht)
  | .intersection ts, h => by
    have hts := TypeExpr.allWellFormed_iff.1 h.2
    rw [TypeExpr.spellings, TypeExpr.allSpellings_eq_flatMap, List.forall_mem_flatMap]
    exact fun t ht => TypeExpr.spellings_nonempty (hts t ht)
  | .array t, h => TypeExpr.spellings_nonempty (t := t) h
  | .object ms, h => by
    have hms := Member.allWellFormed_iff.1 h
    rw [TypeExpr.spellings, Member.allSpellings_eq_flatMap, List.forall_mem_flatMap]
    exact fun m hm => Member.spellings_nonempty (hms m hm)

theorem Parameter.spellings_nonempty :
    {p : Parameter} → p.WellFormed → ∀ raw ∈ p.spellings, raw ≠ ""
  | .mk _ t _, h => TypeExpr.spellings_nonempty (t := t) h.2

theorem Member.spellings_nonempty :
    {m : Member} → m.WellFormed → ∀ raw ∈ m.spellings, raw ≠ ""
  | .hole, h => h.elim
  | .property _ t _ _, h =>
    List.forall_mem_cons.2 ⟨h.1.ne_empty, TypeExpr.spellings_nonempty (t := t) h.2⟩
  | .method _ ps t _, h => by
    rw [Member.spellings, List.forall_mem_cons, List.forall_mem_append,
      Parameter.allSpellings_eq_flatMap, List.forall_mem_flatMap]
    refine ⟨h.1.ne_empty, fun p hp => ?_, TypeExpr.spellings_nonempty h.2.2⟩
    have hlt := List.sizeOf_lt_of_mem hp
    exact Parameter.spellings_nonempty (Parameter.allWellFormed_iff.1 h.2.1 p hp)
  | .call ps t, h => by
    rw [Member.spellings, List.forall_mem_append, Parameter.allSpellings_eq_flatMap,
      List.forall_mem_flatMap]
    refine ⟨fun p hp => ?_, TypeExpr.spellings_nonempty h.2⟩
    have hlt := List.sizeOf_lt_of_mem hp
    exact Parameter.spellings_nonempty (Parameter.allWellFormed_iff.1 h.1 p hp)
  | .index p t, h =>
    List.forall_mem_append.2
      ⟨Parameter.spellings_nonempty (p := p) h.2.1, TypeExpr.spellings_nonempty (t := t) h.2.2⟩
  | .comment _, _ => nofun

end

theorem Statement.spellings_nonempty {s : Statement} (h : s.WellFormed) :
    ∀ raw ∈ s.spellings, raw ≠ "" := by
  have hbody : ∀ ms, Member.AllWellFormed ms → ∀ raw ∈ Member.allSpellings ms, raw ≠ "" := by
    intro ms hms
    rw [Member.allSpellings_eq_flatMap, List.forall_mem_flatMap]
    exact fun m hm => Member.spellings_nonempty (Member.allWellFormed_iff.1 hms m hm)
  cases s with
  | comment => nofun
  | typeAlias => exact TypeExpr.spellings_nonempty h.2.1
  | interfaceDecl => exact hbody _ h.2.1
  | classDecl => exact hbody _ h.2.1
  | variableDecl kind name type modifiers =>
    cases type with
    | none => nofun
    | some t => exact TypeExpr.spellings_nonempty (h.2.2.1 t rfl)
  | exportDefault => nofun

/-- No literal and no key of a well-formed file is empty. -/
theorem DeclFile.spellings_nonempty {file : DeclFile} (h : file.WellFormed) :
    ∀ raw ∈ file.spellings, raw ≠ "" :=
  List.forall_mem_flatMap.2 fun s hs => Statement.spellings_nonempty (h s hs)

/-! ### Formatting -/

/-- Formatting is total. Every text has a form or is rejected at one of its places. If it has
    tokens, reading them keeps to them. If it is read, it can be printed, and no literal or key is
    empty. Types and the loops over declarations are all that their equations say, whatever the
    bounds within which they are read. -/
theorem format_total (cfg : LayoutConfig) (source : String) :
    ((∃ text, format cfg source = .ok text) ∨
      ∃ r, format cfg source = .error r ∧ r.Within source) ∧
    (∀ tokens, Token.scan source = .ok tokens → DeclFile.KeepsWithin tokens) ∧
    (∀ file, DeclFile.ofText? source = .ok file →
      file.print cfg = .ok (file.text cfg) ∧ ∀ raw ∈ file.spellings, raw ≠ "") ∧
    (∀ type, type = union type ↔ type = typeExpr) ∧
    ∀ {α : Type} {round : Reader (Round α)}, IsLoop round →
      ∀ loop, loop = again round loop ↔ loop = gather round := by
  refine ⟨?_, fun tokens hscan => ?_, fun file hfile => ?_, fun type => eq_union_iff,
    fun hround loop => eq_again_iff hround.advances⟩
  · cases hfile : DeclFile.ofText? source with
    | ok file => exact .inl ⟨file.text cfg, by rw [format, hfile]; rfl⟩
    | error r =>
      exact .inr ⟨r, by rw [format, hfile]; rfl, DeclFile.within_of_ofText? hfile⟩
  · obtain ⟨ts, e, rfl, he, hts⟩ := Token.exists_of_scan_eq_ok hscan
    exact DeclFile.keepsWithin he fun t ht => (hts t ht).1
  · have hwf := DeclFile.wellFormed_of_ofText? hfile
    exact ⟨DeclFile.print_eq_ok hwf cfg, DeclFile.spellings_nonempty hwf⟩

end StyleDecl
