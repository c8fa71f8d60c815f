import StyleDecl.Proofs.Pasted.Declarations

/-!
# What generated files declare

A name that is pasted into a file can stand for something else: with braces in it, it
declares several classes, and comments in it or blanks at its ends are no part of the name
that is declared. A type of a property that closes a brace which it did not open can begin
a class of its own (`generate_injected`), and one that leaves a comment open can hide what
comes after it. There are no other ways: if the file of a tree without such names and types
is accepted, it declares just the nodes of the tree (`generate_declared`).

* `Declaration.begins`: no name but an identifier begins a declaration;
* `FileTokens.declared_eq`: what a file with the tokens of a tree declares;
* `Reads text ds`: the text is read as a file that declares `ds`.
-/

namespace StyleDecl

open Grammar Literal

variable {o : Options} {text : String} {ts us : List Token}

/-! ### What begins a declaration -/

variable {d : Keyword × String} {ds ds' : List (Keyword × String)}

theorem Pasted.rise (h : Pasted text ts) (hp : PlainText text) : ∀ t ∈ ts, t.rise = 0 := by
  intro t ht
  obtain ⟨u, hu, hk, -⟩ := h.exists_of_mem ht
  rw [Token.rise, ← hk, ← Token.rise]
  exact (hp.plain u hu).2

/-- A plain text that makes up a single identifier is a name. -/
theorem Pasted.spells_of_single {n : Token} (h : Pasted text [n]) (hp : PlainText text)
    (hn : n.kind = .identifier) : Kind.identifier.Spells text ∧ n.text = text := by
  obtain ⟨m, ms, hm, hcontent, hms⟩ := List.map_eq_cons_iff.1 h.contents.symm
  obtain rfl := List.map_eq_nil_iff.1 hms
  have hkind : m.kind = .identifier := (Token.kind_of_content hcontent).trans hn
  have hne : m.kind ≠ .comment := by rw [hkind]; nofun
  have htext : m.text = text := String.toList_injective
    (Cursor.text_of_single h.accepted hm hne hp.head hp.last)
  have hspells : m.kind.Spells m.text :=
    Token.spells_of_mem_scan (hm ▸ List.mem_singleton_self m)
  rw [hkind, htext] at hspells
  exact ⟨hspells, (Token.text_of_content hcontent).symm.trans htext⟩

/-- A name makes up a single identifier wherever it is pasted. -/
theorem Pasted.calm (h : Pasted text ts) (hs : Kind.identifier.Spells text) : Calm ts := by
  obtain ⟨-, t, htokens, hk, -⟩ := hs.tokens
  have hcontents := h.contents
  rw [htokens] at hcontents
  obtain ⟨n, ns, rfl, hcontent, hns⟩ := List.map_eq_cons_iff.1 hcontents
  obtain rfl := List.map_eq_nil_iff.1 hns
  exact .token (by simp [Token.kind_of_content hcontent, hk])

theorem rise_of_forall (h : ∀ t ∈ ts, t.rise = 0) : rise ts = 0 := by
  induction ts with
  | nil => rfl
  | cons t ts ih =>
    rw [List.forall_mem_cons] at h
    rw [rise_cons, h.1, ih h.2, Int.add_zero]

/-- The braces that a declaration leaves open are those that its body does. -/
theorem rise_declaration {ws ns body : List Token} {i b j : Token} {k : Keyword} (hws : Calm ws)
    (hi : i.declares? = some k) (hns : ∀ t ∈ ns, t.rise = 0) (hb : b.kind = .punct .openBrace)
    (hj : j.kind = .punct .closeBrace) :
    rise (ws ++ i :: (ns ++ (b :: body ++ [j]))) = rise body := by
  have hb' : b.rise = 1 := if_pos hb
  have hj' : j.rise = -1 := by simp [Token.rise, hj]
  simp only [rise_append, rise_cons, rise_nil, hws.balanced.rise, rise_of_declares? hi,
    rise_of_forall hns, hb', hj']
  omega

theorem Declaration.rise_nonneg (h : Declaration d ts) (hp : PlainText d.2) : 0 ≤ rise ts := by
  obtain ⟨hws, hi, hns, hb, hbody, hj⟩ := h
  rw [rise_declaration hws hi (hns.rise hp) hb hj]
  simpa using hbody.le

theorem Declarations.rise_nonneg (h : Declarations ds ts) (hp : ∀ d ∈ ds, PlainText d.2) :
    0 ≤ rise ts := by
  induction h with
  | nil => exact Int.le_refl 0
  | cons hd _ ih =>
    rw [List.forall_mem_cons] at hp
    rw [rise_append]
    exact Int.add_nonneg (hd.rise_nonneg hp.1) (ih hp.2)

/-- What a declaration begins with is its own name, if it closes all of its braces. -/
theorem Declaration.begins (h : Declaration d ts) (hp : PlainText d.2) (hrise : rise ts ≤ 0)
    {rest : List Token} (hds : List.Forall₂ Begins (heads 0 (ts ++ rest)) ds') :
    ∃ ds, ds' = d :: ds ∧ Kind.identifier.Spells d.2 ∧ List.Forall₂ Begins (heads 0 rest) ds := by
  obtain @⟨ws, ns, body, i, b, j, hws, hi, hns, hb, hbody, hj⟩ := h
  have hbalanced : Balanced body := by
    rw [rise_declaration hws hi (hns.rise hp) hb hj] at hrise
    have hnonneg := hbody.le
    exact ⟨hbody, by omega⟩
  rw [List.append_assoc, hws.quiet, List.cons_append, heads_head hi] at hds
  obtain ⟨e, ds, hbegins, hothers, rfl⟩ := List.forall₂_cons_left_iff.1 hds
  obtain ⟨hk, n, b', htake, hn, htext, hb'⟩ := hbegins
  -- There is no brace in the name, so the name is all that stands before the brace.
  obtain rfl : ns = [n] := by
    match ns, hns.rise hp, htake with
    | [], _, htake =>
      obtain ⟨rfl, -⟩ := List.cons.inj htake
      cases hb.symm.trans hn
    | [m], _, htake => rw [(List.cons.inj htake).1]
    | m :: m' :: ns, hrises, htake =>
      obtain ⟨rfl, -⟩ := List.cons.inj (List.cons.inj htake).2
      have hzero := hrises m' (by simp)
      simp [Token.rise, hb'] at hzero
  obtain ⟨hname, hntext⟩ := hns.spells_of_single hp hn
  have hquiet : Quiet [n] := (Calm.token (by simp [hn])).quiet
  rw [hquiet.append (Quiet.braces hb hbalanced hj) rest] at hothers
  exact ⟨ds, congrArg (· :: ds) (Prod.ext hk.symm (htext.symm.trans hntext)), hname, hothers⟩

/-- Declarations begin with their own names, if they close all of their braces. -/
theorem Declarations.begins (h : Declarations ds ts) (hp : ∀ d ∈ ds, PlainText d.2)
    (hrise : rise ts ≤ 0) {rest : List Token}
    (hds : List.Forall₂ Begins (heads 0 (ts ++ rest)) ds') :
    ∃ others, ds' = ds ++ others ∧ (∀ d ∈ ds, Kind.identifier.Spells d.2) ∧
      List.Forall₂ Begins (heads 0 rest) others := by
  induction h generalizing ds' with
  | nil => exact ⟨ds', rfl, List.forall_mem_nil _, hds⟩
  | @cons d ds ts us hd h ih =>
    rw [List.forall_mem_cons] at hp
    rw [rise_append] at hrise
    have hfirst := hd.rise_nonneg hp.1
    have hothers := h.rise_nonneg hp.2
    rw [List.append_assoc] at hds
    obtain ⟨ds', rfl, hname, hds⟩ := hd.begins hp.1 (by omega) hds
    obtain ⟨others, rfl, hnames, hrest⟩ := ih hp.2 (by omega) hds
    exact ⟨others, rfl, List.forall_mem_cons.2 ⟨hname, hnames⟩, hrest⟩

/-! ### Files -/

/-- The root of a tree is declared last. -/
theorem Node.exists_declared_eq {root : Node} (h : root.Whole) :
    ∃ ds k, root.declared = ds ++ [(k, root.name)] := by
  cases root with
  | object s children => exact ⟨_, _, rfl⟩
  | callable name args => exact ⟨[], _, rfl⟩
  | bare name => exact absurd (List.mem_singleton_self _) (h _)

/-- A file with the tokens of the file of a tree declares just the tree. -/
theorem FileTokens.declared_eq {root : Node} (h : FileTokens root ts) (hwhole : root.Whole)
    (hp : ∀ d ∈ root.declared, PlainText d.2) {e : Token} (he : e.kind = .eof)
    (hds : Outlines (ts ++ [e]) ds) :
    ds = root.declared ∧ ∀ d ∈ root.declared, Kind.identifier.Spells d.2 := by
  obtain ⟨before, _, rfl, hbefore, us, _, rfl, hus, between, _, rfl, hbetween, ns, after, rfl, hns,
    hafter⟩ := h
  obtain ⟨others, k, hroot⟩ := Node.exists_declared_eq hwhole
  have hmem : (k, root.name) ∈ root.declared := by simp [hroot]
  have hend : Calm [e] := .token (by simp [he])
  -- There are no braces outside the declarations, so these close all of theirs.
  have hrise : rise us = 0 := by
    have hall := hds.rise
    simp only [rise_append, hbefore.rise, hbetween.rise, rise_of_forall (hns.rise (hp _ hmem)),
      hafter.rise, hend.balanced.rise] at hall
    omega
  obtain ⟨-, es, hes, hbegins⟩ := hds
  have hheads := hes []
  rw [heads, List.append_nil, List.append_nil, List.append_assoc, hbefore.quiet,
    List.append_assoc] at hheads
  obtain ⟨rest, rfl, hnames, hrest⟩ := hus.begins hp (Int.le_of_eq hrise) (hheads ▸ hbegins)
  -- The root is named by an identifier, so there is nothing to be seen after it.
  have hname := (hns.calm (hnames _ hmem)).quiet
  have hquiet := ((hbetween.quiet.append (hname.append hafter.quiet)).append hend.quiet) []
  rw [List.append_nil] at hquiet
  rw [hquiet, heads, List.forall₂_nil_left_iff] at hrest
  exact ⟨by rw [hrest, List.append_nil], hnames⟩

/-- A file that is made up of the texts of a tree declares just the tree. -/
theorem Node.declared_of_source (ho : o.WellFormed) {root : Node} (h : root.Contained)
    (hwhole : root.Whole) {file : DeclFile}
    (hfile : DeclFile.ofText? ("\n".intercalate ((root.blocks o).map Block.text)) = .ok file) :
    file.declared = root.declared ∧ ∀ d ∈ root.declared, Kind.identifier.Spells d.2 := by
  have hp : ∀ d ∈ root.declared, PlainText d.2 := by
    rw [declared_eq_map]
    exact List.forall_mem_map.2 fun p hp => (h p hp).plainText
  obtain ⟨others, k, hroot⟩ := exists_declared_eq hwhole
  have hname : PlainText root.name := hp (k, root.name) (by simp [hroot])
  obtain ⟨us, e, hscan, he, hderives⟩ := IsFile.derives ⟨file, hfile, rfl⟩
  obtain ⟨hok, htokens⟩ := Token.scan_eq_ok_iff.1 hscan
  obtain ⟨rfl, -⟩ := List.append_inj' htokens rfl
  obtain ⟨ts, hfinds, hts⟩ := yields_source ho h hname hwhole .start [] trivial
    (by rwa [List.append_nil])
  have htokens := congrArg Cursor.Scan.tokens hfinds
  simp only [List.append_nil, Cursor.scan_nil] at htokens
  have houtlines := hderives.outlined
  rw [Statement.declared?_withoutComments, Cursor.start, htokens, tokens,
    Item.map_token_group, Token.uncommented_concat he] at houtlines
  exact hts.declared_eq hwhole hp he houtlines

/-! ### Reading a file -/

/-- The text is read as a file that declares `ds`. -/
def Reads (text : String) (ds : List (Keyword × String)) : Prop :=
  (DeclFile.ofText? text).toOption.map DeclFile.declared = some ds
  deriving Decidable

theorem reads_iff :
    Reads text ds ↔ ∃ file, DeclFile.ofText? text = .ok file ∧ file.declared = ds := by
  unfold Reads
  cases DeclFile.ofText? text with
  | error r => exact ⟨nofun, nofun⟩
  | ok file =>
    refine ⟨fun h => ⟨file, rfl, Option.some_inj.1 h⟩, ?_⟩
    rintro ⟨_, ⟨⟩, rfl⟩
    rfl

theorem Statement.declared?_canonical (cfg : LayoutConfig) (s : Statement) :
    (s.canonical cfg).declared? = s.declared? := by
  cases s <;> rfl

theorem Statement.declared?_canonicalAll (cfg : LayoutConfig) (ss : List Statement) :
    (canonicalAll cfg ss).filterMap declared? = ss.filterMap declared? := by
  induction ss with
  | nil => rfl
  | cons s ss ih =>
    cases ss with
    | nil => cases s <;> rfl
    | cons t ss =>
      rw [canonicalAll_cons_cons, List.filterMap_cons, declared?_canonical, ih]
      exact List.filterMap_cons.symm

/-- Formatting does not change what a file declares. -/
theorem Reads.format {source : String} {cfg : LayoutConfig} (hr : Reads source ds)
    (h : format cfg source = .ok text) : Reads text ds := by
  obtain ⟨file, hfile, rfl⟩ := reads_iff.1 hr
  obtain ⟨file', hfile', hprint⟩ := format_eq_ok_iff.1 h
  obtain rfl := Except.ok.inj (hfile.symm.trans hfile')
  have hwf := DeclFile.wellFormed_of_ofText? hfile
  obtain rfl := Except.ok.inj (hprint.symm.trans (DeclFile.print_eq_ok hwf cfg))
  exact reads_iff.2 ⟨_, DeclFile.ofText?_text hwf cfg,
    Statement.declared?_canonicalAll cfg file.statements⟩

/-- Files below each other declare what each of them does. -/
theorem Reads.below {text' : String} (h : Reads text ds) (h' : Reads text' ds') :
    Reads (text ++ "\n" ++ text') (ds ++ ds') := by
  obtain ⟨file, hfile, rfl⟩ := reads_iff.1 h
  obtain ⟨file', hfile', rfl⟩ := reads_iff.1 h'
  have hfirst : IsFile text _ := ⟨file, hfile, rfl⟩
  obtain ⟨both, hboth, hss⟩ := hfirst.below ⟨file', hfile', rfl⟩
  refine reads_iff.2 ⟨both, hboth, ?_⟩
  rw [DeclFile.declared, ← Statement.declared?_withoutComments, hss, List.filterMap_append,
    Statement.declared?_withoutComments, Statement.declared?_withoutComments]
  rfl

theorem reads_intercalate {texts : List String} {dss : List (List (Keyword × String))}
    (h : List.Forall₂ Reads texts dss) (hne : texts ≠ []) :
    Reads ("\n".intercalate texts) dss.flatten := by
  induction h with
  | nil => exact absurd rfl hne
  | @cons text ds texts dss htext htexts ih =>
    cases htexts with
    | nil => simpa using htext
    | cons htext' htexts =>
      rw [String.intercalate_cons_cons, List.flatten_cons]
      exact htext.below (ih (List.cons_ne_nil _ _))

/-! ### Generated files -/

/-- The default options are well formed. -/
theorem Options.wellFormed_default : ({} : Options).WellFormed where
  styleType := spells_of_isName rfl rfl
  exportName := spells_of_isName rfl rfl
  headerTitle := by decide +kernel
  indentText := by simp

theorem Options.reads_preamble (ho : o.WellFormed) : Reads o.preamble [] := by
  have halias := ReadsFile.nil.newline.statement (renders_styleAlias ho)
  have hread : ReadsFile 0 o.preamble.toList (o.header ++ [o.styleAlias]) := by
    rw [preamble]
    simpa using readsFile_banner ho halias
  exact reads_iff.2 ⟨_, hread.ofText?, rfl⟩

theorem Options.reads_exportText (ho : o.WellFormed) {root : String}
    (hroot : Kind.identifier.Spells root) : Reads (o.exportText root) [] := by
  obtain ⟨n, hexport⟩ := declares_exportText ho hroot 0 [] [] ReadsFile.nil
  rw [List.append_nil] at hexport
  exact reads_iff.2 ⟨_, hexport.ofText?, rfl⟩

variable {σ ε : Type} {root : Node} {cfg : LayoutConfig} {state : σ}

theorem generate_eq_ok_iff (hgo : ∀ e ∈ root.rootTimeline, e.stop? o = none) :
    (generate o (Formatter.builtIn cfg : Formatter σ ε) root state).result = .ok text ↔
      format cfg ("\n".intercalate ((root.blocks o).map Block.text)) = .ok text := by
  rw [generate, Node.rawFile_of_go hgo]
  simp only [Formatter.builtIn]
  cases format cfg ("\n".intercalate ((root.blocks o).map Block.text)) with
  | ok text' => exact ⟨fun h => congrArg _ (Except.ok.inj h), fun h => congrArg _ (Except.ok.inj h)⟩
  | error r => constructor <;> intro h <;> cases h

/-- The file of a tree is accepted if its declarations are files, and it declares what each of
    these does. -/
theorem exists_generated (ho : o.WellFormed) (hgo : ∀ e ∈ root.rootTimeline, e.stop? o = none)
    (hname : Kind.identifier.Spells root.name) {dss : List (List (Keyword × String))}
    (h : List.Forall₂ (fun p ds => Reads (p.block o o.indentLevel).text ds)
      (Event.parts root.timeline) dss) :
    ∃ text, (generate o (Formatter.builtIn cfg : Formatter σ ε) root state).result = .ok text ∧
      Reads text dss.flatten := by
  have hblocks : List.Forall₂ Reads ((root.blocks o).map Block.text) ([] :: dss ++ [[]]) := by
    rw [Node.blocks, List.map_append, List.map_cons, List.map_map]
    refine List.rel_append (.cons (Options.reads_preamble ho) (List.forall₂_map_left_iff.2 h)) ?_
    exact .cons (Options.reads_exportText ho hname) .nil
  have hsource := reads_intercalate hblocks (List.cons_ne_nil _ _)
  obtain ⟨file, hfile, -⟩ := reads_iff.1 hsource
  have hprint := DeclFile.print_eq_ok (DeclFile.wellFormed_of_ofText? hfile) cfg
  have hformat := format_eq_ok_iff.2 ⟨file, hfile, hprint⟩
  refine ⟨_, (generate_eq_ok_iff hgo).2 hformat, ?_⟩
  simpa using hsource.format hformat

/-- If the names of a tree are plain and the types of its properties are closed, then its
    file, if it is accepted, declares just the nodes of the tree. In particular, all of
    them are named by identifiers then. -/
theorem generate_declared (ho : o.WellFormed) (h : root.Contained)
    (hresult : (generate o (Formatter.builtIn cfg : Formatter σ ε) root state).result = .ok text) :
    Reads text root.declared ∧ ∀ d ∈ root.declared, Kind.identifier.Spells d.2 := by
  obtain hgo | ⟨past, e, future, err, ht, hpast, he⟩ := Event.stops_or o root.rootTimeline
  · rw [generate_eq_ok_iff hgo] at hresult
    obtain ⟨file, hfile, -⟩ := format_eq_ok_iff.1 hresult
    obtain ⟨hdeclared, hnames⟩ := Node.declared_of_source ho h (Node.whole_of_root_go hgo) hfile
    exact ⟨(reads_iff.2 ⟨file, hfile, hdeclared⟩).format hresult, hnames⟩
  · rw [generate, Node.rawFile_of_stop ht hpast he] at hresult
    cases hresult

/-- Types with braces of their own, a comment, and slashes in a literal. -/
theorem generate_declared_braces :
    let root : Node := .object
      { name := "A", properties := ⟨[("p", ["\x7b b: C \x7d /* D */", "'//'"])], by decide⟩ }
      [.callable "B" []]
    ∃ text, (generate {} (Formatter.builtIn {} : Formatter Unit Unit) root ()).result = .ok text ∧
      Reads text [(.interface, "B"), (.classWord, "A")] := by
  intro root
  have hgo : ∀ e ∈ root.rootTimeline, e.stop? {} = none := by decide +kernel
  have hname : Kind.identifier.Spells "A" := spells_of_isName rfl rfl
  have hparts : Event.parts root.timeline = [.callable "B" none, .object
      { name := "A", properties := ⟨[("p", ["\x7b b: C \x7d /* D */", "'//'"])], by decide⟩ }] := by
    simp [root, Node.firstStates]
  have hreads : List.Forall₂ (fun p ds => Reads (p.block {} 0).text ds)
      (Event.parts root.timeline) [[(.interface, "B")], [(.classWord, "A")]] := by
    rw [hparts]
    refine .cons ?_ (.cons ?_ .nil) <;> decide +kernel
  have hnames : PlainText "A" ∧ PlainText "B" :=
    ⟨.of_spells hname, .of_spells (spells_of_isName rfl rfl)⟩
  have htypes : ClosedText "\x7b b: C \x7d /* D */ & '//'" :=
    ⟨.of_accepted (Option.isNone_iff_eq_none.1 (by decide +kernel)), by decide +kernel⟩
  have hroot : root.Contained := by
    rw [Node.Contained, hparts]
    refine List.forall_mem_cons.2 ⟨hnames.2, List.forall_mem_singleton.2 ⟨hnames.1, ?_⟩⟩
    exact List.forall_mem_singleton.2 htypes
  obtain ⟨text, hresult, -⟩ := exists_generated Options.wellFormed_default hgo hname hreads
  exact ⟨text, hresult, (generate_declared Options.wellFormed_default hroot hresult).1⟩

/-- Names with braces, comments or a blank at the end, and a type that closes a brace which it
    did not open, make a file that declares something else. -/
theorem generate_injected :
    let root : Node := .object { name := "Root" }
      [.object { name := "A \x7b\x7d class B" } [], .object { name := "C/**/" } [],
        .object { name := "D\n" } [], .object { name := "E", properties :=
          ⟨[("p", ["X; \x7d class F \x7b readonly q: Y"])], by decide⟩ } []]
    ∃ text, (generate {} (Formatter.builtIn {} : Formatter Unit Unit) root ()).result = .ok text ∧
      Reads text [(.classWord, "A"), (.classWord, "B"), (.classWord, "C"), (.classWord, "D"),
        (.classWord, "E"), (.classWord, "F"), (.classWord, "Root")] ∧
      ¬Reads text root.declared := by
  intro root
  have hgo : ∀ e ∈ root.rootTimeline, e.stop? {} = none := by decide +kernel
  have hname : Kind.identifier.Spells "Root" := spells_of_isName rfl rfl
  have hparts : List.Forall₂ (fun p ds => Reads (p.block {} 0).text ds)
      (Event.parts root.timeline) [[(.classWord, "A"), (.classWord, "B")], [(.classWord, "C")],
        [(.classWord, "D")], [(.classWord, "E"), (.classWord, "F")], [(.classWord, "Root")]] := by
    simp only [root, Node.parts_timeline_object, Node.parts_timelineAll_cons,
      Node.parts_timelineAll_nil, List.nil_append, List.append_nil, List.cons_append]
    refine .cons ?_ (.cons ?_ (.cons ?_ (.cons ?_ (.cons ?_ .nil)))) <;> decide +kernel
  obtain ⟨text, hresult, hreads⟩ := exists_generated Options.wellFormed_default hgo hname hparts
  exact ⟨text, hresult, hreads, fun h => absurd (hreads.symm.trans h) (by decide)⟩

end StyleDecl
