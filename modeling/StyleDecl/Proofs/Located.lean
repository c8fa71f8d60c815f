import StyleDecl.Proofs.Seams
import StyleDecl.Proofs.Timeline.Files
import StyleDecl.Proofs.WellFormed

/-!
# Where a rejection is found

Texts that are files by themselves are one file when they stand below each other: no
comment, literal or statement of one of them goes on in the next (`IsFile.below`). So a
generated file that is rejected holds a declaration that is rejected by itself, and the
first of these is the one that is named (`generate_located`).

* `IsFile text ss`: the text is read as the statements `ss`, up to comments;
* `isFile_intercalate`: texts with a line feed between any two;
* `blame_builtIn`: what handing over declarations one by one comes to.
-/

namespace StyleDecl

open Grammar

variable {text text' : String} {ss ss' : List Statement} {ts us : List Token} {n : Nat}

/-! ### Texts below each other -/

/-- Items are moved exactly if their tokens are. -/
theorem Item.moved_iff_tokens {w v : List Item} :
    Moved n w v ↔ List.Forall₂ (Token.Moved n) (w.map Item.token) (v.map Item.token) :=
  relocated_iff_tokens

theorem Token.Moved.refl (t : Token) : t.Moved 0 t := ⟨rfl, rfl, rfl, rfl⟩

theorem Item.moved_of_tokens_eq {w v : List Item} (h : w.map Item.token = v.map Item.token) :
    Moved 0 w v := by
  rw [moved_iff_tokens, h]
  exact List.forall₂_same.2 fun t _ => .refl t

theorem Item.moved_group (h : List.Forall₂ (Token.Moved n) ts us) :
    Moved n (Item.group ts) (Item.group us) := by
  rw [moved_iff_tokens, map_token_group, map_token_group]
  exact List.rel_filter (fun t u htu => by simp [htu.kind]) h

/-- A scan that is not rejected goes on to the end of the text. -/
theorem Cursor.cursor_scan {cur : Cursor} (h : cur.scan.rejection = none) :
    cur.scan.cursor = ⟨[], cur.position.after cur.rest⟩ := by
  obtain ⟨ts, hfinds, -⟩ := Cursor.finds_more h (.nil _) (q := cur.position) (n := 0) rfl
  have hcursor := congrArg Cursor.Scan.cursor hfinds
  rwa [List.append_nil, Cursor.scan_nil] at hcursor

/-- The text is read as the statements `ss`, up to comments. -/
def IsFile (text : String) (ss : List Statement) : Prop :=
  ∃ file, DeclFile.ofText? text = .ok file ∧ Statement.withoutComments file.statements = ss

/-- What scanning a text from its beginning comes to, if it is not rejected. -/
theorem Token.scan_eq_ok (h : (Cursor.start text).scan.rejection = none) :
    Token.scan text = .ok ((Cursor.start text).scan.tokens ++
      [Cursor.eof ⟨[], Position.after .start text.toList⟩]) :=
  Token.scan_eq_ok_iff.2 ⟨h, by rw [Cursor.cursor_scan h]; rfl⟩

/-- A text is a file if its tokens derive one. -/
theorem isFile_of_derives (hscan : Token.scan text = .ok ts)
    (h : DerivesFile false (Item.group ts) ss) : IsFile text ss := by
  obtain ⟨ss', hd, rfl⟩ := h.recall
  refine ⟨⟨ss'⟩, ?_, rfl⟩
  rw [DeclFile.ofText?, hscan]
  exact hd.ofTokens?

theorem IsFile.derives (h : IsFile text ss) : ∃ ts e, Token.scan text = .ok (ts ++ [e]) ∧
    e.kind = .eof ∧ DerivesFile false (Item.group (ts ++ [e])) ss := by
  obtain ⟨file, hfile, rfl⟩ := h
  obtain ⟨ts, e, hscan, he, -, hd, -⟩ := DeclFile.derives_of_ofText? hfile
  exact ⟨ts, e, hscan, he, hd.forget⟩

/-- The items of two texts below each other are above each other. -/
theorem above_group {e e' : Token} {k : Nat} (he : e.kind = .eof)
    (hts : ∀ t ∈ ts, t.endLine ≤ k) (hus : ∀ u ∈ us ++ [e'], k < u.line) :
    Above (Item.group (ts ++ [e])).dropLast (Item.group (us ++ [e'])) := by
  intro i hi n hn
  have hitem : i.token ∈ ts := by
    have hmem := List.mem_map_of_mem (f := Item.token) hi
    rw [List.map_dropLast, Item.map_token_group, Token.uncommented_concat he,
      List.dropLast_concat] at hmem
    exact (Token.mem_uncommented.1 hmem).1
  have hnext : n.token ∈ us ++ [e'] := by
    have hmem := List.mem_map_of_mem (f := Item.token) (List.mem_of_mem_head? hn)
    rw [Item.map_token_group] at hmem
    exact (Token.mem_uncommented.1 hmem).1
  exact Nat.lt_of_le_of_lt (hts _ hitem) (hus _ hnext)

/-- The tokens of a text stay where they are when another text comes below it, and those of the
    other text move down. -/
theorem Cursor.scan_below (h : (Cursor.start text).scan.rejection = none)
    (h' : (Cursor.start text').scan.rejection = none) :
    ∃ us, (Cursor.start (text ++ "\n" ++ text')).scan =
        ⟨(Cursor.start text).scan.tokens ++ us, none,
          ⟨[], Position.after .start (text ++ "\n" ++ text').toList⟩⟩ ∧
      List.Forall₂ (Token.Moved (Position.after .start text.toList).line)
        (Cursor.start text').scan.tokens us := by
  have hline : ((Position.after .start text.toList).next '\n').line =
      Position.start.line + (Position.after .start text.toList).line := Nat.add_comm _ 1
  -- Nothing at the end of the first text goes on over the line feed.
  obtain ⟨ts, hts, -, hsame⟩ :=
    finds_more h (.newline _ text'.toList) (q := .start) (n := 0) rfl
  obtain ⟨us, hus, husm, -⟩ := finds_more h' (.nil _) hline
  obtain rfl := hsame rfl
  refine ⟨us, ?_, husm⟩
  rw [List.append_nil] at hus
  have hfinds := hts.trans ((finds_blank rfl).trans hus)
  have htext : (text ++ "\n" ++ text').toList = text.toList ++ '\n' :: text'.toList := by simp
  have hscan := hfinds.trans (.refl _)
  rw [Finds, scan_nil, List.nil_append, List.append_nil, List.append_nil] at hscan
  rw [start, htext, Position.after_append, Position.after_cons]
  exact hscan

/-- Of two texts below each other, the tokens of the second begin below the end of the first. -/
theorem Token.scan_below {e e' : Token} (h : Token.scan text = .ok (ts ++ [e]))
    (h' : Token.scan text' = .ok (us ++ [e'])) :
    ∃ vs f, Token.scan (text ++ "\n" ++ text') = .ok (ts ++ (vs ++ [f])) ∧
      List.Forall₂ (Token.Moved e.line) (us ++ [e']) (vs ++ [f]) ∧
      (∀ t ∈ ts, t.endLine ≤ e.line) ∧ ∀ u ∈ vs ++ [f], e.line < u.line := by
  obtain ⟨hok, hts⟩ := Token.scan_eq_ok_iff.1 h
  obtain ⟨hok', hus⟩ := Token.scan_eq_ok_iff.1 h'
  obtain ⟨rfl, he⟩ := List.append_inj' hts rfl
  obtain ⟨rfl, he'⟩ := List.append_inj' hus rfl
  rw [Cursor.cursor_scan hok, List.singleton_inj] at he
  rw [Cursor.cursor_scan hok', List.singleton_inj] at he'
  subst he he'
  obtain ⟨vs, hboth, hvs⟩ := Cursor.scan_below hok hok'
  have hend : (Position.after .start (text ++ "\n" ++ text').toList).line =
      (Position.after .start text'.toList).line + (Position.after .start text.toList).line := by
    simp only [Position.line_after, String.toList_append, List.count_append]
    have hfeed : "\n".toList.count '\n' = 1 := rfl
    have hline : Position.start.line = 1 := rfl
    omega
  have heof : (Cursor.eof ⟨[], Position.after .start text'.toList⟩).Moved
      (Position.after .start text.toList).line
      (Cursor.eof ⟨[], Position.after .start (text ++ "\n" ++ text').toList⟩) :=
    ⟨rfl, rfl, hend, hend⟩
  have hmoved := List.rel_append hvs (.cons heof .nil)
  refine ⟨vs, _, ?_, hmoved, fun t ht => (Cursor.lines_of_mem_scan ht).2, fun u hu => ?_⟩
  · rw [Token.scan_eq_ok (by rw [hboth]), hboth, List.append_assoc]
  · obtain ⟨u', hu', hmoved⟩ := exists_of_mem_right hmoved hu
    have hline : Position.start.line ≤ u'.line := by
      obtain hu' | hu' := List.mem_append.1 hu'
      · exact (Cursor.lines_of_mem_scan hu').1
      · rw [List.mem_singleton.1 hu', Cursor.eof, Position.line_after]
        exact Nat.le_add_right _ _
    rw [hmoved.line]
    exact Nat.lt_add_of_pos_left hline

/-- A file below another one makes one file with it. -/
theorem IsFile.below (h : IsFile text ss) (h' : IsFile text' ss') :
    IsFile (text ++ "\n" ++ text') (ss ++ ss') := by
  obtain ⟨ts, e, hscan, he, hd⟩ := h.derives
  obtain ⟨us, e', hscan', -, hd'⟩ := h'.derives
  obtain ⟨vs, f, hboth, hmoved, hts, hvs⟩ := Token.scan_below hscan hscan'
  have hsecond := hd'.moved (Item.moved_group hmoved)
  refine isFile_of_derives hboth ((hd.append hsecond (above_group he hts hvs)).moved
    (Item.moved_of_tokens_eq ?_))
  rw [List.map_append, List.map_dropLast, Item.map_token_group, Item.map_token_group,
    Item.map_token_group, Token.uncommented_concat he, List.dropLast_concat,
    ← Token.uncommented_append]

/-- Files with a line feed between any two make one file. -/
theorem isFile_intercalate {texts : List String} (h : ∀ text ∈ texts, ∃ ss, IsFile text ss)
    (hne : texts ≠ []) : ∃ ss, IsFile ("\n".intercalate texts) ss := by
  induction texts with
  | nil => exact absurd rfl hne
  | cons text texts ih =>
    rw [List.forall_mem_cons] at h
    obtain ⟨ss, hss⟩ := h.1
    cases texts with
    | nil => exact ⟨ss, by rwa [String.intercalate_singleton]⟩
    | cons text' texts =>
      obtain ⟨ss', hss'⟩ := ih h.2 (List.cons_ne_nil _ _)
      rw [String.intercalate_cons_cons]
      exact ⟨ss ++ ss', hss.below hss'⟩

/-! ### Formatting -/

/-- The formatter of this library accepts a text in the layout `cfg`. -/
def Accepted (cfg : LayoutConfig) (text : String) : Prop := ∃ text', format cfg text = .ok text'

variable {cfg : LayoutConfig}

/-- A text is accepted in any layout if it is a file. -/
theorem accepted_iff : Accepted cfg text ↔ ∃ ss, IsFile text ss := by
  unfold Accepted IsFile format
  cases DeclFile.ofText? text with
  | error r => exact ⟨nofun, nofun⟩
  | ok file => exact ⟨fun _ => ⟨_, file, rfl, rfl⟩, fun _ => ⟨_, rfl⟩⟩

theorem accepted_intercalate {texts : List String} (h : ∀ text ∈ texts, Accepted cfg text)
    (hne : texts ≠ []) : Accepted cfg ("\n".intercalate texts) :=
  accepted_iff.2 (isFile_intercalate (fun text ht => accepted_iff.1 (h text ht)) hne)

/-! ### Blaming a declaration -/

section

variable {σ ε : Type}

/-- Handing over declarations one by one finds the first that is rejected by itself. -/
theorem blame_builtIn (cfg : LayoutConfig) (root : String) (cause : Rejection)
    (blocks : List Block) (state : σ) :
    ((∀ b ∈ blocks, Accepted cfg b.text) ∧
      (blame (Formatter.builtIn cfg : Formatter σ ε) root cause blocks state).1 =
        .fileRejected root cause) ∨
    ∃ before block after detail, blocks = before ++ block :: after ∧
      (∀ b ∈ before, Accepted cfg b.text) ∧ format cfg block.text = .error detail ∧
      (blame (Formatter.builtIn cfg : Formatter σ ε) root cause blocks state).1 =
        .blockRejected block detail cause := by
  induction blocks with
  | nil => exact .inl ⟨List.forall_mem_nil _, rfl⟩
  | cons block blocks ih =>
    cases hformat : format cfg block.text with
    | error detail =>
      refine .inr ⟨[], block, blocks, detail, rfl, List.forall_mem_nil _, hformat, ?_⟩
      have hreply : (Formatter.builtIn cfg : Formatter σ ε) block.text state =
          (.rejected detail, state) := by rw [Formatter.builtIn, hformat]; rfl
      rw [blame, hreply]
    | ok text =>
      have hreply : (Formatter.builtIn cfg : Formatter σ ε) block.text state =
          (.accepted text, state) := by rw [Formatter.builtIn, hformat]; rfl
      have hrest : (blame (Formatter.builtIn cfg : Formatter σ ε) root cause (block :: blocks)
          state).1 = (blame (Formatter.builtIn cfg) root cause blocks state).1 := by
        rw [blame, hreply]
      rw [hrest]
      obtain ⟨hall, hb⟩ | ⟨before, b, after, detail, rfl, hbefore, hb, hblame⟩ := ih
      · exact .inl ⟨List.forall_mem_cons.2 ⟨⟨text, hformat⟩, hall⟩, hb⟩
      · exact .inr ⟨block :: before, b, after, detail, rfl,
          List.forall_mem_cons.2 ⟨⟨text, hformat⟩, hbefore⟩, hb, hblame⟩

/-- The declarations of a file are the preamble, those of its nodes, and the export. -/
theorem Node.stage_of_mem_blocks {o : Options} {root : Node} {b : Block}
    (h : b ∈ root.blocks o) :
    b.stage ∈ [Stage.preamble, .interfaceDecl, .classDecl, .exportDecl] := by
  simp only [blocks, List.cons_append, List.mem_cons, List.mem_append, List.mem_map,
    List.not_mem_nil, or_false] at h
  obtain rfl | ⟨p, -, rfl⟩ | rfl := h
  · exact List.mem_cons_self
  · cases p <;> simp [Part.block]
  · simp [Options.lastBlock]

/-- A file is made up of the declarations in its log. None of them is called an assembly. -/
theorem Node.rawFile_eq_ok {o : Options} {root : Node} {source : String} {s : EmitState}
    (h : root.rawFile o ⟨o.indentLevel, {}⟩ = .ok source s) :
    source = "\n".intercalate (s.log.blocks.map Block.text) ∧ s.log.blocks ≠ [] ∧
      ∀ b ∈ s.log.blocks, b.stage.name ≠ "assembly" := by
  obtain hgo | ⟨past, e, future, err, ht, hpast, he⟩ := Event.stops_or o root.rootTimeline
  · rw [Node.rawFile_of_go hgo] at h
    cases h
    refine ⟨rfl, List.cons_ne_nil _ _, fun b hb => ?_⟩
    have hnames : ∀ stage ∈ [Stage.preamble, .interfaceDecl, .classDecl, .exportDecl],
        stage.name ≠ "assembly" := by decide
    exact hnames _ (stage_of_mem_blocks hb)
  · rw [Node.rawFile_of_stop ht hpast he] at h
    cases h

/-- A file is accepted if all of the declarations that it is made up of are. -/
theorem Node.accepted_of_rawFile {o : Options} {root : Node} {source : String} {s : EmitState}
    (h : root.rawFile o ⟨o.indentLevel, {}⟩ = .ok source s)
    (hblocks : ∀ b ∈ s.log.blocks, Accepted cfg b.text) : Accepted cfg source := by
  obtain ⟨rfl, hne, -⟩ := Node.rawFile_eq_ok h
  exact accepted_intercalate (List.forall_mem_map.2 hblocks) fun hnil =>
    hne (List.map_eq_nil_iff.1 hnil)

/-- What generating a file with the formatter of this library comes to: the file is accepted, or
    the tree cannot be emitted, or the first declaration that is rejected by itself is named, with
    the part of the file that it belongs to. There is one whenever the file is rejected: if all
    declarations are accepted, so is the file. So it is never putting them together that is at
    fault. -/
theorem generate_located (o : Options) (cfg : LayoutConfig) (root : Node) (state : σ) :
    let run : Run σ ε := generate o (Formatter.builtIn cfg) root state
    ((∃ text, run.result = .ok text) ∨ (∃ e, run.result = .error (.emission e)) ∨
      ∃ error before block after detail cause,
        run.result = .error error ∧ error = .blockRejected block detail cause ∧
        error.place? = some (block.stage.name, block.node, cause) ∧
        block.stage.name ≠ "assembly" ∧
        run.log.blocks = before ++ block :: after ∧ (∀ b ∈ before, Accepted cfg b.text) ∧
        format cfg block.text = .error detail ∧
        format cfg ("\n".intercalate (run.log.blocks.map Block.text)) = .error cause) ∧
    ∀ source s, root.rawFile o ⟨o.indentLevel, {}⟩ = .ok source s →
      (∀ b ∈ s.log.blocks, Accepted cfg b.text) → Accepted cfg source := by
  intro run
  refine ⟨?_, fun source s hraw => Node.accepted_of_rawFile hraw⟩
  cases hraw : root.rawFile o ⟨o.indentLevel, {}⟩ with
  | error e s => exact .inr (.inl ⟨e, by simp only [run, generate, hraw]⟩)
  | ok source s =>
    cases hformat : format cfg source with
    | ok text =>
      refine .inl ⟨text, ?_⟩
      simp only [run, generate, hraw, Formatter.builtIn, hformat]
      rfl
    | error cause =>
      -- The declarations are handed over one by one.
      have hresult : run.result = .error (blame (Formatter.builtIn cfg : Formatter σ ε) root.name
          cause s.log.blocks state).1 ∧ run.log = s.log := by
        simp only [run, generate, hraw, Formatter.builtIn, hformat]
        exact ⟨rfl, rfl⟩
      obtain ⟨hsource, -, hstages⟩ := Node.rawFile_eq_ok hraw
      rw [hresult.1, hresult.2, ← hsource]
      obtain ⟨hall, -⟩ | ⟨before, block, after, detail, hsplit, hbefore, hblock, hblame⟩ :=
        blame_builtIn (ε := ε) cfg root.name cause s.log.blocks state
      · obtain ⟨text, htext⟩ := Node.accepted_of_rawFile hraw hall
        rw [hformat] at htext
        cases htext
      · have hstage := hstages block (by simp [hsplit])
        rw [hblame]
        exact .inr (.inr ⟨_, before, block, after, detail, cause, rfl, rfl, rfl, hstage, hsplit,
          hbefore, hblock, hformat⟩)

end

end StyleDecl
