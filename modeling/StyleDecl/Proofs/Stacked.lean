import StyleDecl.Proofs.Grammar.Redrawn
import StyleDecl.Proofs.Cuts
import StyleDecl.Proofs.Located
import StyleDecl.Proofs.RoundTrip

/-!
# Formatting texts below each other

Two texts that can be formatted, and the first of which ends with a line feed, can be formatted
below each other, and each comes out as it does by itself: nothing of the second is read as a part
of the first, unless it begins with a semicolon. Between them comes the empty line that stands
between any two statements (`format_below`).

There is none if the first ends with a comment that is attached (`EndsAttached`). It is attached to
a semicolon on the line after it: what comes next is looked for among the tokens, where an empty
statement has one, and not among the statements.

* `Statement.listLines_append`: the lines of statements below each other;
* `Token.endLine_lt`: the tokens of a text end above the line after it;
* `Grammar.DerivesFile.stacked`: a file below another, with the comments of both.
-/

namespace StyleDecl

open Grammar

variable {cfg : LayoutConfig} {ss ss' : List Statement} {s s' : Statement}

/-! ### Lines -/

namespace Statement

/-- Whether the last of the statements is a comment that is attached. -/
def LastAttached (ss : List Statement) : Prop := ∃ s ∈ ss.getLast?, s.isAttached

instance (ss : List Statement) : Decidable (LastAttached ss) :=
  inferInstanceAs (Decidable (∃ s ∈ ss.getLast?, s.isAttached))

theorem isAttached_iff : s.isAttached ↔ ∃ text, s = .comment text true := by
  cases s <;> simp [isAttached]

theorem lastAttached_concat : LastAttached (ss ++ [s]) ↔ s.isAttached := by
  simp [LastAttached]

theorem lastAttached_cons_cons : LastAttached (s :: s' :: ss) ↔ LastAttached (s' :: ss) := by
  simp [LastAttached]

/-- The lines of statements and of others below them. -/
theorem listLines_append (h : ss ≠ []) (h' : ss' ≠ []) : listLines cfg (ss ++ ss') =
    listLines cfg ss ++ (if LastAttached ss then [] else [""]) ++ listLines cfg ss' := by
  induction ss with
  | nil => exact absurd rfl h
  | cons s ss ih =>
    cases ss with
    | nil =>
      obtain ⟨t, ss', rfl⟩ := List.exists_cons_of_ne_nil h'
      simp [listLines, LastAttached]
    | cons t ss =>
      have hgap : (if LastAttached (s :: t :: ss) then [] else [""]) =
          if LastAttached (t :: ss) then [] else [""] :=
        if_congr lastAttached_cons_cons rfl rfl
      rw [List.cons_append, List.cons_append, listLines, ← List.cons_append,
        ih (List.cons_ne_nil _ _), listLines, hgap]
      simp only [List.append_assoc]

/-- It makes no difference to the lines whether the last statement is attached. -/
theorem listLines_concat_congr (ss : List Statement) (h : s.lines cfg = s'.lines cfg) :
    listLines cfg (ss ++ [s]) = listLines cfg (ss ++ [s']) := by
  by_cases hss : ss = []
  · rwa [hss]
  · rw [listLines_append hss (List.cons_ne_nil _ _), listLines_append hss (List.cons_ne_nil _ _),
      listLines, listLines, h]

theorem lines_ne_nil (s : Statement) : s.lines cfg ≠ [] := by
  have hbody (opener : String) (ms : List Member) : Layout.bodyLines cfg opener ms ≠ [] := by
    cases ms <;> exact List.cons_ne_nil _ _
  cases s with
  | comment text =>
    obtain ⟨first, others, h⟩ := Layout.exists_lines text
    rw [lines, Layout.commentLines, h]
    exact List.cons_ne_nil _ _
  | interfaceDecl | classDecl => exact hbody _ _
  | _ => exact List.cons_ne_nil _ _

theorem listLines_eq_nil_iff : listLines cfg ss = [] ↔ ss = [] := by
  refine ⟨fun h => ?_, fun h => h ▸ rfl⟩
  rcases ss with - | ⟨s, - | ⟨t, ss⟩⟩
  · rfl
  · exact absurd h s.lines_ne_nil
  · simp only [listLines, List.append_eq_nil_iff] at h
    exact absurd h.1.1 s.lines_ne_nil

end Statement

theorem DeclFile.text_eq_empty_iff {file : DeclFile} :
    file.text cfg = "" ↔ file.statements = [] := by
  rw [← @Statement.listLines_eq_nil_iff cfg, DeclFile.text]
  cases Statement.listLines cfg file.statements with
  | nil => exact iff_of_true rfl rfl
  | cons line lines =>
    refine iff_of_false (fun h => ?_) (List.cons_ne_nil _ _)
    rw [List.map_cons, String.join_cons] at h
    simpa using congrArg String.toList h

/-- The text of a file of two parts, each with statements in it, has an empty line between these,
    unless the first part ends with an attached comment. -/
theorem DeclFile.text_append :
    (DeclFile.text cfg ⟨ss⟩ ≠ "" → DeclFile.text cfg ⟨ss'⟩ ≠ "" → ¬Statement.LastAttached ss →
      DeclFile.text cfg ⟨ss ++ ss'⟩ = DeclFile.text cfg ⟨ss⟩ ++ "\n" ++ DeclFile.text cfg ⟨ss'⟩) ∧
    (DeclFile.text cfg ⟨ss⟩ = "" ∨ DeclFile.text cfg ⟨ss'⟩ = "" ∨ Statement.LastAttached ss →
      DeclFile.text cfg ⟨ss ++ ss'⟩ = DeclFile.text cfg ⟨ss⟩ ++ DeclFile.text cfg ⟨ss'⟩) := by
  have htext (ss : List Statement) :
      DeclFile.text cfg ⟨ss⟩ = Layout.linesText (Statement.listLines cfg ss) := rfl
  rw [ne_eq, ne_eq, text_eq_empty_iff, text_eq_empty_iff]
  refine ⟨fun h h' hlast => ?_, fun h => ?_⟩
  · rw [htext, Statement.listLines_append h h', if_neg hlast, Layout.linesText_append,
      Layout.linesText_append, Layout.linesText_singleton, String.empty_append, htext, htext]
  · by_cases hnil : ss = []
    · rw [hnil, List.nil_append, text_eq_empty_iff.2 rfl, String.empty_append]
    by_cases hnil' : ss' = []
    · rw [hnil', List.append_nil, text_eq_empty_iff.2 rfl, String.append_empty]
    rw [htext, Statement.listLines_append hnil hnil',
      if_pos ((h.resolve_left hnil).resolve_left hnil'), List.append_nil, Layout.linesText_append,
      htext, htext]

/-! ### The end of a text -/

section

variable {before rest before' rest' cs : List Char} {ts us : List Token} {l : Lexeme} {e : Token}

/-- No lexeme ends with a line feed. -/
theorem Lexeme.Forms.exists_last (h : l.Forms cs) : ∃ ds c, cs = ds ++ [c] ∧ c ≠ '\n' := by
  -- What is written without a line feed does not end with one.
  have hplain {c : Char} {ds : List Char} (h : '\n' ∉ c :: ds) :
      ∃ ds' c', c :: ds = ds' ++ [c'] ∧ c' ≠ '\n' :=
    ⟨_, _, (List.dropLast_concat_getLast (List.cons_ne_nil c ds)).symm,
      ne_of_mem_of_not_mem (List.getLast_mem _) h⟩
  have hforms := h
  cases h with
  | lineComment hcs => exact hplain (by simp [hcs])
  | @blockComment cs hcs => exact ⟨'/' :: '*' :: cs ++ ['*'], '/', by simp, by decide⟩
  | string hq => exact ⟨_, _, rfl, by rcases hq with rfl | rfl <;> decide⟩
  | number | word | punct =>
    exact hplain (hforms.newline_not_mem (by simp) (by simp))

theorem lineBehind_append (before cs : List Char) :
    lineBehind (before ++ cs) = lineBehind before + cs.count '\n' := by
  rw [lineBehind, lineBehind, List.count_append, Nat.add_assoc]

/-- All tokens end in front of the place up to which lexemes are cut off, and this place is not at
    the beginning of a line. -/
theorem Cuts.endLine_le (h : Cuts before rest ts before' rest') :
    lineBehind before ≤ lineBehind before' ∧ ∀ t ∈ ts, t.endLine ≤ lineBehind before' ∧
      ∃ ds c, before' = ds ++ [c] ∧ c ≠ '\n' := by
  induction h with
  | nil => exact ⟨Nat.le_refl _, List.forall_mem_nil _⟩
  | @cons before blanks cs rest before' rest' l t ts _ hl ht hcuts ih =>
    have hle : lineBehind (before ++ blanks) ≤ lineBehind (before ++ blanks ++ cs) := by
      rw [lineBehind_append _ cs]
      exact Nat.le_add_right _ _
    refine ⟨?_, List.forall_mem_cons.2 ⟨⟨?_, ?_⟩, ih.2⟩⟩
    · rw [lineBehind_append before] at hle
      omega
    · rw [ht.endLine]
      split
      · exact ih.1
      · exact hle.trans ih.1
    · cases hcuts with
      | nil =>
        obtain ⟨ds, c, rfl, hc⟩ := hl.forms.exists_last
        exact ⟨before ++ blanks ++ ds, c, (List.append_assoc ..).symm, hc⟩
      | cons => exact (List.forall_mem_cons.1 ih.2).1.2

/-- The text is empty, or its last line is. -/
def EndsLine (text : String) : Prop := text = "" ∨ ∃ lines, text = lines ++ "\n"

/-- The tokens of a text whose last line is empty end above this line. -/
theorem Token.endLine_lt {text : String} (hend : EndsLine text)
    (h : Token.scan text = .ok (ts ++ [e])) : ∀ t ∈ ts, t.endLine < e.line := by
  obtain ⟨us, before, blanks, hcuts, -, hscan⟩ | ⟨_, _, _, _, _, _, _, _, _, hscan⟩ :=
    Token.exists_cuts text
  · rw [h] at hscan
    obtain ⟨rfl, he⟩ := List.append_inj' (Except.ok.inj hscan) rfl
    obtain rfl := List.singleton_inj.1 he
    intro t ht
    obtain ⟨hle, ds, c, rfl, hc⟩ := hcuts.endLine_le.2 t ht
    have htext : text.toList = ds ++ [c] ++ blanks := hcuts.text
    -- The line feed at the end of the text is among the blanks.
    obtain ⟨bs, rfl⟩ : ∃ bs, blanks = bs ++ ['\n'] := by
      obtain rfl | ⟨lines, rfl⟩ := hend
      · simp at htext
      · rw [String.toList_append] at htext
        obtain rfl | ⟨bs, b, rfl⟩ := List.eq_nil_or_concat' blanks
        · rw [List.append_nil] at htext
          exact absurd (List.singleton_inj.1 (List.append_inj' htext rfl).2).symm hc
        · rw [← List.append_assoc] at htext
          exact ⟨bs, congrArg (bs ++ ·) (List.append_inj' htext rfl).2.symm⟩
    have hline : (Token.closingOf text.toList).line =
        lineBehind (ds ++ [c]) + bs.count '\n' + 1 := by
      rw [Token.closingOf, htext, ← List.append_assoc, lineBehind_append, lineBehind_append]
      rfl
    omega
  · rw [h] at hscan
    cases hscan

end

/-! ### Items of texts below each other -/

section

variable {ts cs : List Token} {v : List Item} {j : Item}

/-- A list of tokens makes up items, up to the comments at its end. -/
theorem Groups.exists (ts : List Token) : ∃ us w cs, ts = us ++ cs ∧ Groups us w ∧
    (∀ t ∈ us.getLast?, t.kind ≠ .comment) ∧ ∀ c ∈ cs, c.kind = .comment := by
  induction ts with
  | nil => exact ⟨[], [], [], rfl, .nil, by simp, List.forall_mem_nil _⟩
  | cons t ts ih =>
    obtain ⟨us, w, cs, rfl, hgroups, hlast, hcs⟩ := ih
    by_cases ht : t.kind = .comment
    · cases us with
      | nil => exact ⟨[], [], t :: cs, rfl, .nil, by simp, List.forall_mem_cons.2 ⟨ht, hcs⟩⟩
      | cons u us =>
        obtain ⟨i, w, rfl⟩ : ∃ i v, w = i :: v := List.exists_cons_of_ne_nil fun hw =>
          List.cons_ne_nil _ _ ((hw ▸ hgroups).eq_spread)
        exact ⟨t :: u :: us, _, cs, rfl, hgroups.comment ht, by simpa using hlast, hcs⟩
    · refine ⟨t :: us, _, cs, rfl, (Groups.token ht).append hgroups, ?_, hcs⟩
      cases us with
      | nil => simpa using ht
      | cons u us => simpa using hlast

/-- Comments belong to the item after them. -/
theorem Item.group_comments (hcs : ∀ c ∈ cs, c.kind = .comment) (h : group ts = j :: v) :
    group (cs ++ ts) = ⟨cs ++ j.comments, j.token⟩ :: v := by
  induction cs with
  | nil => exact h
  | cons c cs ih =>
    rw [List.forall_mem_cons] at hcs
    rw [List.cons_append, group, if_pos hcs.1, ih hcs.2]
    rfl

/-- The items of a text, the last of which has the comments at its end, and the items of this text
    and more of it. -/
theorem Item.exists_group_append (ts : List Token) {e : Token} (he : e.kind ≠ .comment) :
    ∃ w cs, group (ts ++ [e]) = w ++ [⟨cs, e⟩] ∧ (∀ c ∈ cs, c ∈ ts) ∧
      (cs = [] ↔ ∀ t ∈ ts.getLast?, t.kind ≠ .comment) ∧
      ∀ us j v, group us = j :: v →
        group (ts ++ us) = w ++ { j with comments := cs ++ j.comments } :: v := by
  obtain ⟨us, w, cs, rfl, hgroups, hlast, hcs⟩ := Groups.exists ts
  have hmore (vs : List Token) (j : Item) (v : List Item) (h : group vs = j :: v) :
      group (us ++ cs ++ vs) = w ++ { j with comments := cs ++ j.comments } :: v := by
    rw [List.append_assoc, hgroups, group_comments hcs h]
  refine ⟨w, cs, ?_, fun c hc => List.mem_append_right us hc, ⟨?_, fun h => ?_⟩, hmore⟩
  · rw [hmore [e] ⟨[], e⟩ [] (by simp [group, he]), List.append_nil]
  · rintro rfl
    rwa [List.append_nil]
  · by_contra hne
    exact h _ (List.getLast?_append_of_ne_nil us hne ▸ List.getLast?_eq_some_getLast hne)
      (hcs _ (List.getLast_mem hne))

/-- The token of the first item is the first token. -/
theorem Item.find?_of_group (h : group ts = j :: v) :
    ts.find? (·.kind ≠ .comment) = some j.token := by
  have hhead : ts.find? (·.kind ≠ .comment) = (Token.uncommented ts).head? :=
    List.head?_filter.symm
  rw [hhead, ← map_token_group, h]
  rfl

end

namespace Grammar

variable {w v : List Item} {i j : Item}

/-! ### Comments between two files -/

/-- Only what the last comment is attached to depends on what comes next. -/
theorem exists_commentStatements_concat (cs : List Token) (c : Token) :
    ∃ notes, ∀ next, Reader.commentStatements (cs ++ [c]) next =
      notes ++ [Reader.commentStatement c next] := by
  induction cs with
  | nil => exact ⟨[], fun _ => rfl⟩
  | cons d cs ih =>
    obtain ⟨notes, h⟩ := ih
    obtain ⟨c', cs', hcs⟩ := List.exists_cons_of_ne_nil (List.concat_ne_nil c cs)
    refine ⟨Reader.commentStatement d c' :: notes, fun next => ?_⟩
    rw [List.cons_append, hcs, Reader.commentStatements, ← hcs, h, List.cons_append]

/-- Comments before the first token of a file belong to the file. -/
theorem DerivesFile.comments (h : DerivesFile true (i :: w) ss) (cs : List Token) :
    DerivesFile true ({ i with comments := cs ++ i.comments } :: w)
      (Reader.commentStatements cs i.first ++ ss) := by
  induction cs with
  | nil => exact h
  | cons c cs ih =>
    have hfile := ih.comment c
    cases cs with
    | nil => exact hfile
    | cons d cs => exact hfile

/-- A file below another one makes one file with it. Of the statements of the first, none changes
    but for a comment at the end of its text, which is not attached. -/
theorem DerivesFile.stacked (h : DerivesFile true (w ++ [i]) ss)
    (h' : DerivesFile true (j :: v) ss') (habove : Above w (j :: v))
    (hmark : j.token.kind ≠ .punct .semicolon)
    (hcs : ∀ c ∈ i.comments, c.endLine + 1 < j.first.line) : ∃ ss₁,
      DerivesFile true (w ++ { j with comments := i.comments ++ j.comments } :: v) (ss₁ ++ ss') ∧
      (∀ cfg, Statement.listLines cfg ss₁ = Statement.listLines cfg ss) ∧
      (Statement.LastAttached ss₁ ↔ i.comments = [] ∧ Statement.LastAttached ss) := by
  obtain ⟨front, k, hk, rfl, hbelow⟩ := h.exists_front
  obtain rfl : i = k := by simpa using hk
  have hnext : ¬EndMark j.token := fun hmark' => hmark (h'.of_endMark hmark').1
  rw [List.dropLast_concat] at hbelow
  have hfile := hbelow (h'.comments i.comments)
    (fun k hk n hn => Option.some_inj.1 hn ▸ habove k hk j rfl)
    fun _ n hn => Option.some_inj.1 hn ▸ hnext
  rw [← List.append_assoc] at hfile
  refine ⟨_, hfile, ?_⟩
  obtain hnil | ⟨cs, c, hconcat⟩ := List.eq_nil_or_concat' i.comments
  · have hnone (t : Token) : Reader.commentStatements i.comments t = [] := by rw [hnil]; rfl
    rw [statementNotes, if_pos rfl, hnone, hnone]
    exact ⟨fun _ => rfl, by simp [hnil]⟩
  · obtain ⟨notes, hnotes⟩ := exists_commentStatements_concat cs c
    have hloose : ¬(j.first.line = c.endLine + 1) := (hcs c (by simp [hconcat])).ne'
    rw [statementNotes, if_pos rfl, hconcat, hnotes, hnotes, ← List.append_assoc,
      ← List.append_assoc]
    refine ⟨fun cfg => Statement.listLines_concat_congr _ rfl, ?_⟩
    rw [Statement.lastAttached_concat]
    simp [Reader.commentStatement, Statement.isAttached, hloose]

end Grammar

/-! ### Formatting -/

/-- The text ends with a comment that is attached, and not to the end of the text: nothing but
    empty statements comes after it, and the first of them begins on the line below it. -/
def EndsAttached (source : String) : Prop :=
  ∃ ts e file text, Token.scan source = .ok (ts ++ [e]) ∧ (∀ t ∈ ts.getLast?, t.kind ≠ .comment) ∧
    DeclFile.ofText? source = .ok file ∧ file.statements.getLast? = some (.comment text true)

/-- The text begins with an empty statement. -/
def BeginsEmpty (source : String) : Prop :=
  ∃ ts t, Token.scan source = .ok ts ∧ ts.find? (·.kind ≠ .comment) = some t ∧
    t.kind = .punct .semicolon

section

variable {a b ta tb : String} {fa fb : DeclFile}

theorem endsAttached_iff {ts : List Token} {e : Token} (hscan : Token.scan a = .ok (ts ++ [e]))
    (ha : DeclFile.ofText? a = .ok fa) : EndsAttached a ↔
      (∀ t ∈ ts.getLast?, t.kind ≠ .comment) ∧ Statement.LastAttached fa.statements := by
  constructor
  · rintro ⟨ts', e', file, text, hscan', hlast, hread, htext⟩
    rw [ha] at hread
    rw [hscan] at hscan'
    obtain rfl := Except.ok.inj hread
    obtain ⟨rfl, -⟩ := List.append_inj' (Except.ok.inj hscan') rfl
    exact ⟨hlast, _, htext, rfl⟩
  · rintro ⟨hlast, s, hs, hattached⟩
    obtain ⟨text, rfl⟩ := Statement.isAttached_iff.1 hattached
    exact ⟨ts, e, fa, text, hscan, hlast, ha, hs⟩

/-- Files below each other are read as one file, and each of them has the text in it that it has by
    itself. -/
theorem DeclFile.ofText?_below (ha : DeclFile.ofText? a = .ok fa)
    (hb : DeclFile.ofText? b = .ok fb) (hend : EndsLine a) (hbegin : ¬BeginsEmpty b) :
    ∃ ss ss', DeclFile.ofText? (a ++ "\n" ++ b) = .ok ⟨ss ++ ss'⟩ ∧
      (∀ cfg, DeclFile.text cfg ⟨ss⟩ = fa.text cfg) ∧
      (∀ cfg, DeclFile.text cfg ⟨ss'⟩ = fb.text cfg) ∧
      (Statement.LastAttached ss ↔ EndsAttached a) := by
  obtain ⟨ts, e, hscan, he, -, hd, -⟩ := DeclFile.derives_of_ofText? ha
  obtain ⟨us, e', hscan', -, -, hd', -⟩ := DeclFile.derives_of_ofText? hb
  obtain ⟨vs, f, hboth, hmoved, hts, hvs⟩ := Token.scan_below hscan hscan'
  -- The second file is derived from its tokens in their new places.
  have hredrawn := Item.redrawn_group (hmoved.imp fun _ _ h => h.redrawn)
  obtain ⟨ss', hss', hcanonical⟩ := hd'.redrawn hredrawn
  obtain ⟨j, v, hj⟩ := List.exists_cons_of_ne_nil hss'.ne_nil
  rw [hj] at hss' hredrawn
  obtain ⟨i, v', hij, -, hi⟩ := List.forall₂_cons_right_iff.1 hredrawn
  have hmark : j.token.kind ≠ .punct .semicolon := by
    rw [hij.token.kind]
    exact fun hk => hbegin ⟨_, _, hscan', Item.find?_of_group hi, hk⟩
  -- Comments at the end of the first text go to the first item of the second.
  obtain ⟨w, cs, hfront, hcs, hnone, hmore⟩ := Item.exists_group_append ts (e := e) (by simp [he])
  have habove := above_group he hts hvs
  have hloose : ∀ c ∈ cs, c.endLine + 1 < j.first.line := by
    intro c hc
    have hline := hvs _ (List.mem_of_mem_head? (head?_of_group hj))
    have hlt := Token.endLine_lt hend hscan c (hcs c hc)
    omega
  rw [hfront, List.dropLast_concat, hj] at habove
  rw [hfront] at hd
  obtain ⟨ss, hfile, hlines, hattached⟩ := hd.stacked hss' habove hmark hloose
  have hread : DeclFile.ofText? (a ++ "\n" ++ b) = .ok ⟨ss ++ ss'⟩ := by
    rw [DeclFile.ofText?, hboth]
    exact DerivesFile.ofTokens? (hmore _ j v hj ▸ hfile)
  have hwf := DeclFile.wellFormed_of_ofText? hread
  refine ⟨ss, ss', hread, fun cfg => ?_, fun cfg => ?_, ?_⟩
  · rw [DeclFile.text, hlines, DeclFile.text]
  · exact DeclFile.text_congr (DeclFile.wellFormed_of_ofText? hb)
      (fun s hs => hwf s (List.mem_append_right ss hs)) (hcanonical cfg)
  · rw [endsAttached_iff hscan ha, ← hnone]
    exact hattached

/-- Two texts below each other, the first of which ends with a line feed, are formatted like each of
    them by itself, with an empty line in between if both have statements in them, unless the first
    ends with a comment that is attached to an empty statement. -/
theorem format_below (ha : format cfg a = .ok ta) (hb : format cfg b = .ok tb) (hend : EndsLine a)
    (hbegin : ¬BeginsEmpty b) :
    (ta ≠ "" → tb ≠ "" → ¬EndsAttached a →
      format cfg (a ++ "\n" ++ b) = .ok (ta ++ "\n" ++ tb)) ∧
    (ta = "" ∨ tb = "" ∨ EndsAttached a → format cfg (a ++ "\n" ++ b) = .ok (ta ++ tb)) := by
  obtain ⟨fa, hfa, rfl⟩ := format_eq_ok_iff_text.1 ha
  obtain ⟨fb, hfb, rfl⟩ := format_eq_ok_iff_text.1 hb
  obtain ⟨ss, ss', hboth, htext, htext', hlast⟩ := DeclFile.ofText?_below hfa hfb hend hbegin
  have hformat : format cfg (a ++ "\n" ++ b) = .ok (DeclFile.text cfg ⟨ss ++ ss'⟩) :=
    format_eq_ok_iff_text.2 ⟨_, hboth, rfl⟩
  rw [hformat, ← htext, ← htext', ← hlast]
  exact ⟨fun h h' hloose => congrArg _ (DeclFile.text_append.1 h h' hloose),
    fun h => congrArg _ (DeclFile.text_append.2 h)⟩

end

/-- A comment is followed by an empty line, and by none if a semicolon follows it. -/
theorem format_below_comment :
    format {} ("// a\n" ++ "\n" ++ "type B = c") = .ok ("// a\n" ++ "\n" ++ "type B = c;\n") ∧
      format {} ("// a\n;\n" ++ "\n" ++ "type B = c") = .ok ("// a\n" ++ "type B = c;\n") := by
  have hcomment : format {} "// a\n" = .ok "// a\n" := eq_ok_of_toOption (by decide +kernel)
  have hempty : format {} "// a\n;\n" = .ok "// a\n" := eq_ok_of_toOption (by decide +kernel)
  have htype : format {} "type B = c" = .ok "type B = c;\n" :=
    eq_ok_of_toOption (by decide +kernel)
  have hbegin : ¬BeginsEmpty "type B = c" := by
    rintro ⟨ts, t, hscan, ht, hk⟩
    have htokens : Token.scan "type B = c" = .ok
        [⟨.keyword .type, "type", 1, 1, 1⟩, ⟨.identifier, "B", 1, 6, 1⟩,
          ⟨.punct .equals, "=", 1, 8, 1⟩, ⟨.identifier, "c", 1, 10, 1⟩, ⟨.eof, "", 1, 11, 1⟩] :=
      eq_ok_of_toOption (by decide +kernel)
    rw [htokens] at hscan
    cases hscan
    cases ht
    cases hk
  have hscan : Token.scan "// a\n" = .ok ([⟨.comment, "// a", 1, 1, 1⟩] ++ [⟨.eof, "", 2, 1, 2⟩]) :=
    eq_ok_of_toOption (by decide +kernel)
  have hscan' : Token.scan "// a\n;\n" =
      .ok ([⟨.comment, "// a", 1, 1, 1⟩, ⟨.punct .semicolon, ";", 2, 1, 2⟩] ++
        [⟨.eof, "", 3, 1, 3⟩]) :=
    eq_ok_of_toOption (by decide +kernel)
  refine ⟨(format_below hcomment htype (.inr ⟨"// a", rfl⟩) hbegin).1 (by decide) (by decide) ?_,
    (format_below hempty htype (.inr ⟨"// a\n;", rfl⟩) hbegin).2 (.inr (.inr ?_))⟩
  · rintro ⟨ts, e, file, text, hts, hlast, -⟩
    rw [hscan] at hts
    obtain ⟨rfl, -⟩ := List.append_inj' (Except.ok.inj hts) rfl
    exact hlast _ rfl rfl
  · refine ⟨_, _, ⟨[.comment "// a" true]⟩, "// a", hscan', by simp, ?_, rfl⟩
    rw [DeclFile.ofText?, hscan']
    rfl

end StyleDecl
