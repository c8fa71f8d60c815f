import StyleDecl.Proofs.Cuts
import StyleDecl.Proofs.Grammar.Outline

/-!
# Fragments of lines

A text that is pasted into a line may hold anything, and need not be scanned to its end by
itself. But if nothing after it on its line closes a literal, then a literal that is open
at its end is open at the end of the line, where it is rejected. So in a text that is not
rejected, a fragment that leaves no comment open is scanned as it is by itself. Only a
comment that goes on to the end of its line takes what comes after the fragment with it.

* `Trailing`: what comes after a fragment on its line;
* `ClosesComments`: no comment is open at the end of a text, and a slash there begins none;
* `Cursor.Fits`: a fragment that is scanned in a line as it is by itself;
* `Cursor.fits_of_rejection_eq_none`: the fragments of a text that is not rejected;
* `Cursor.text_of_single`: a name that is a single token.
-/

namespace StyleDecl

variable {cs ds rest more : List Char} {c q : Char} {l : Lexeme} {p : Position} {t : Token}

/-! ### Literals that are open -/

/-- What comes after a fragment up to the end of its line: it begins with a space, and it
    closes no literal. -/
structure Trailing (ds : List Char) : Prop where
  space : ds.head? = some ' '
  plain : ∀ d ∈ ds, Literal.isQuote d = false ∧ d ≠ '\\' ∧ d ≠ '\n'

theorem Trailing.head?_append (h : Trailing ds) (more : List Char) :
    (ds ++ more).head? = some ' ' := by
  rw [List.head?_append, h.space]
  rfl

theorem Trailing.ends (h : Trailing ds) (more : List Char) : Ends (ds ++ more) := by
  obtain ⟨ds, rfl⟩ := List.head?_eq_some_iff.1 h.space
  exact ends_cons (by decide)

/-- Whether a lexeme goes on is decided by the character after it. -/
theorem Lexeme.Stops.of_head? (h : l.Stops cs rest) (hhead : more.head? = rest.head?) :
    l.Stops cs more := by
  cases l with
  | comment => exact fun hslashes c hc => h hslashes c (hhead ▸ hc)
  | number | word => exact fun c hc => h c (hhead ▸ hc)
  | string | punct => trivial

namespace Reading

/-- A literal that nothing closes is still open at the end of the line. -/
theorem not_complete_stringTail (hq : Literal.isQuote q)
    (h : ∀ d ∈ ds, Literal.isQuote d = false ∧ d ≠ '\\' ∧ d ≠ '\n') (more : List Char) :
    (stringTail q (ds ++ '\n' :: more)).complete = false := by
  have hnewline : '\n' ≠ q := fun hn => absurd hq (hn ▸ by decide)
  induction ds with
  | nil => rw [List.nil_append, stringTail_newline hnewline]
  | cons d ds ih =>
    obtain ⟨⟨hd, hslash, hn⟩, hds⟩ := List.forall_mem_cons.1 h
    have hne : d ≠ q := fun hdq => by simp [hdq, hq] at hd
    rw [List.cons_append, stringTail_plain hne hn hslash]
    exact ih hds

/-- A literal that is open at the end of a fragment is open at the end of its line. -/
theorem not_complete_stringTail_append (hq : Literal.isQuote q)
    (h : (stringTail q cs).complete = false) (hds : Trailing ds) (more : List Char) :
    (stringTail q (cs ++ (ds ++ '\n' :: more))).complete = false := by
  have hnewline : '\n' ≠ q := fun hn => absurd hq (hn ▸ by decide)
  have hslash : '\\' ≠ q := fun hn => absurd hq (hn ▸ by decide)
  fun_induction stringTail q cs with
  | case1 => exact not_complete_stringTail hq hds.plain more
  | case2 => cases h
  | case3 => rw [List.cons_append, stringTail_newline hnewline]
  | case4 =>
    -- The backslash escapes the space after the fragment.
    obtain ⟨space, plain⟩ := hds
    obtain ⟨ds, rfl⟩ := List.head?_eq_some_iff.1 space
    rw [List.singleton_append, List.cons_append, stringTail_escape hslash]
    exact not_complete_stringTail hq (List.forall_mem_cons.1 plain).2 more
  | case5 d cs _ _ ih =>
    rw [List.cons_append, List.cons_append, stringTail_escape hslash]
    exact ih h
  | case6 c cs hc hn hb ih =>
    rw [List.cons_append, stringTail_plain hc hn hb]
    exact ih h

/-- A block comment that is open at the end of a text is open behind the next character, unless
    this is a slash. -/
theorem not_complete_blockTail_append (hc : c ≠ '/') (h : (blockTail cs).complete = false) :
    (blockTail (cs ++ [c])).complete = false := by
  fun_induction blockTail cs with
  | case1 =>
    rw [List.nil_append, blockTail_plain (by simp)]
    rfl
  | case2 => cases h
  | case3 d cs hend ih =>
    have hend' : ¬(d = '*' ∧ (cs ++ [c]).head? = some '/') := by
      cases cs with
      | nil => simp [hc]
      | cons => exact hend
    rw [List.cons_append, blockTail_plain hend']
    exact ih h

theorem not_complete_comment_append {d e : Char}
    (h : (comment (c :: d :: cs)).complete = false) (he : e ≠ '/') :
    (comment (c :: d :: cs ++ [e])).complete = false := by
  simp only [comment, List.cons_append] at h ⊢
  split at h
  · cases h
  · next hslashes =>
    rw [if_neg hslashes]
    exact not_complete_blockTail_append he h

end Reading

/-! ### What tokens are -/

namespace Token

variable {ts us : List Token}

/-- What the tokens are that are no comments, wherever they stand. -/
def contents (ts : List Token) : List (Kind × String) := (uncommented ts).map content

theorem contents_cons_congr {u : Token} (h : t.content = u.content)
    (hts : contents ts = contents us) : contents (t :: ts) = contents (u :: us) := by
  by_cases hk : u.kind = .comment
  · rwa [contents, contents, uncommented_cons_of_comment ((kind_of_content h).trans hk),
      uncommented_cons_of_comment hk]
  · rw [contents, contents, uncommented_cons (kind_of_content h ▸ hk), uncommented_cons hk]
    exact congrArg₂ List.cons h hts

theorem contents_comment (h : t.kind = .comment) : contents [t] = [] := by
  rw [contents, uncommented_cons_of_comment h]
  rfl

theorem contents_of_forall (h : ∀ t ∈ ts, t.kind ≠ .comment) : contents ts = ts.map content := by
  rw [contents, uncommented_eq_self h]

end Token

/-! ### Scanning a fragment -/

/-- No comment is open at the end of the text when it is scanned with a space after it. By itself, a
    slash at its end would begin a comment. -/
def ClosesComments (text : String) : Prop :=
  ∀ r ∈ (Cursor.start (text ++ " ")).scan.rejection, r.fault ≠ .unterminatedComment

theorem closesComments_iff {text : String} :
    ClosesComments text ↔
      ∀ r ∈ (Cursor.scan ⟨(Cursor.start text).rest ++ [' '], .start⟩).rejection,
        r.fault ≠ .unterminatedComment := by
  rw [ClosesComments, Cursor.start, String.toList_append]
  rfl

theorem ClosesComments.of_accepted {text : String}
    (h : (Cursor.start (text ++ " ")).scan.rejection = none) : ClosesComments text := by
  rw [ClosesComments, h]
  nofun

namespace Cursor

variable {cur next : Cursor} {r : Rejection} {ts : List Token} {p' : Position}

/-- A text is rejected where no lexeme begins, and where one does not come to its end. -/
theorem lexeme_of_rejected (h : cur.step = .rejected r next) :
    ∃ bs c tail, cur.rest = bs ++ c :: tail ∧ (∀ b ∈ bs, b.isWhitespace) ∧
      c.isWhitespace = false ∧ ∀ l : Lexeme, Lexeme.starting c tail.head? = some l →
        (l.read (c :: tail)).complete = false ∧ r.fault = l.fault := by
  have hblanks := Reading.span_append Char.isWhitespace cur.rest
  have hstops := Reading.stops_span Char.isWhitespace cur.rest
  rw [step, stepHere] at h
  split at h
  · cases h
  · next c tail hrest =>
    have hspan : (Reading.span Char.isWhitespace cur.rest).rest = c :: tail := hrest
    rw [hspan] at hblanks hstops
    refine ⟨_, c, tail, hblanks.symm, Reading.mem_span cur.rest, Reading.stops_cons_iff.1 hstops,
      fun l hl => ?_⟩
    rw [hl] at h
    simp only [take, hrest] at h
    split at h
    · cases h
    · next hc =>
      cases h
      exact ⟨Bool.eq_false_iff.2 hc, rfl⟩

theorem rejection_of_finds (h : cur.Finds ts next) : cur.scan.rejection = next.scan.rejection := by
  rw [h]

/-- Nothing after a fragment makes up for what is missing in it, but for comments. A slash at its
    end begins no comment, since a space comes after it. -/
theorem not_complete_append (hds : Trailing ds) (more : List Char) (h : ∀ l : Lexeme,
    Lexeme.starting c cs.head? = some l →
      (l.read (c :: cs)).complete = false ∧ (l = .comment → cs = []))
    (hl : Lexeme.starting c (cs ++ (ds ++ '\n' :: more)).head? = some l) :
    (l.read (c :: (cs ++ (ds ++ '\n' :: more)))).complete = false := by
  have hslash : c ≠ '/' := by
    rintro rfl
    obtain rfl := Lexeme.eq_comment_of_slash hl
    cases cs with
    | nil =>
      rw [List.nil_append, hds.head?_append] at hl
      exact absurd hl (by decide)
    | cons d cs => exact List.cons_ne_nil d cs ((h .comment hl).2 rfl)
  rw [Lexeme.starting_of_ne_slash hslash _ cs.head?] at hl
  obtain ⟨hread, -⟩ := h l hl
  obtain ⟨rfl, hc, -⟩ | ⟨rfl, hc⟩ | ⟨rfl, -⟩ | ⟨rfl, -⟩ | ⟨_, rfl, -⟩ := Lexeme.starting_eq_some hl
  · exact absurd hc hslash
  · exact Reading.not_complete_stringTail_append hc hread hds more
  all_goals cases hread

theorem scan_of_rest_eq_nil (h : cur.rest = []) : cur.scan = ⟨[], none, cur⟩ := by
  obtain ⟨rest, p⟩ := cur
  obtain rfl : rest = [] := h
  exact scan_nil

/-- A comment that begins with two slashes goes on to the end of its line. -/
theorem step_lineComment (cs : List Char) (p : Position) :
    step ⟨'/' :: '/' :: cs, p⟩ =
      .token (token ⟨[], p⟩ .comment ('/' :: '/' :: (Reading.span (· ≠ '\n') cs).text))
        ⟨(Reading.span (· ≠ '\n') cs).rest,
          p.after ('/' :: '/' :: (Reading.span (· ≠ '\n') cs).text)⟩ := by
  rw [step, skipBlanks_of_not_blank (by decide)]
  rfl

theorem finds_lineComment (hcs : ∀ c ∈ cs, c ≠ '\n') (more : List Char) (p : Position) :
    Finds ⟨'/' :: '/' :: (cs ++ '\n' :: more), p⟩ [token ⟨[], p⟩ .comment ('/' :: '/' :: cs)]
      ⟨'\n' :: more, p.after ('/' :: '/' :: cs)⟩ := by
  have hspan : Reading.span (· ≠ '\n') (cs ++ '\n' :: more) = { text := cs, rest := _ } :=
    Reading.span_of_stops (by simpa using hcs) (Reading.stops_cons_iff.2 rfl)
  have hstep := step_lineComment (cs ++ '\n' :: more) p
  rw [hspan] at hstep
  exact finds_of_step hstep

/-- What goes on after a fragment can only be such a comment. -/
theorem lineComment_of_not_stops {p' : Position}
    (h : step ⟨cs, p⟩ = .token (token ⟨[], p⟩ l cs) ⟨[], p'⟩) (hl : ¬l.Stops cs rest)
    (hr : Ends rest) :
    l = .comment ∧ ∃ tail, cs = '/' :: '/' :: tail ∧ ∀ c ∈ tail, c ≠ '\n' := by
  obtain rfl : l = .comment := by_contra fun hlc => hl (hr.stops hlc)
  obtain ⟨hslashes, -⟩ := Classical.not_imp.1 hl
  obtain ⟨tail, rfl⟩ := exists_of_slashes hslashes
  refine ⟨rfl, tail, rfl, fun c hc => ?_⟩
  rw [step_lineComment] at h
  have hnil : (Reading.span (· ≠ '\n') tail).rest = [] :=
    congrArg Cursor.rest (Step.token.inj h).2
  simpa using List.dropWhile_eq_nil_iff.1 hnil c hc

/-- A comment that is open at the end of a text is open behind the next space. -/
theorem fault_of_open {bs : List Char} (hrest : cur.rest = bs ++ c :: cs)
    (hbs : ∀ b ∈ bs, b.isWhitespace) (hl : Lexeme.starting c cs.head? = some .comment)
    (hread : (Lexeme.comment.read (c :: cs)).complete = false) (hne : cs ≠ []) :
    ∃ r ∈ (scan ⟨cur.rest ++ [' '], p⟩).rejection, r.fault = .unterminatedComment := by
  obtain ⟨d, ds, rfl⟩ := List.exists_cons_of_ne_nil hne
  have hspace : Lexeme.starting c (d :: ds ++ [' ']).head? = some .comment := hl
  obtain ⟨next, hstep⟩ := step_of_not_complete (p := p.after bs) hspace
    (Bool.eq_false_iff.1 (Reading.not_complete_comment_append hread (by decide)))
  rw [hrest, List.append_assoc, List.cons_append, rejection_of_finds (finds_blanks hbs),
    scan_of_rejected hstep]
  exact ⟨_, rfl, rfl⟩

/-- Where a fragment is rejected, a text that holds it is rejected, too. -/
theorem rejection_of_fragment (hstep : cur.step = .rejected r next)
    (hopen : ∀ r ∈ (scan ⟨cur.rest ++ [' '], p'⟩).rejection, r.fault ≠ .unterminatedComment)
    (hds : Trailing ds) (more : List Char) (p : Position) :
    (scan ⟨cur.rest ++ (ds ++ '\n' :: more), p⟩).rejection ≠ none := by
  obtain ⟨bs, c, tail, hrest, hbs, hc, hread⟩ := lexeme_of_rejected hstep
  have hlone : ∀ l : Lexeme, Lexeme.starting c tail.head? = some l → l = .comment → tail = [] := by
    rintro _ hl rfl
    by_contra hne
    obtain ⟨r, hr, hfault⟩ := fault_of_open hrest hbs hl (hread _ hl).1 hne
    exact hopen r hr hfault
  obtain ⟨next', hrejected⟩ := step_rejected (p := p.after bs) hc fun _ =>
    not_complete_append hds more fun l hl => ⟨(hread l hl).1, hlone l hl⟩
  rw [hrest, List.append_assoc, List.cons_append, rejection_of_finds (finds_blanks hbs),
    scan_of_rejected hrejected]
  nofun

/-- At the place `p` of a line that ends with `ds`, the text at the cursor is scanned as it is by
    itself, up to a comment at its end that goes on to the end of the line. -/
def Fits (cur : Cursor) (ds more : List Char) (p : Position) : Prop :=
  ∃ ts, Token.contents ts = Token.contents cur.scan.tokens ∧
    (Finds ⟨cur.rest ++ (ds ++ '\n' :: more), p⟩ ts ⟨ds ++ '\n' :: more, p.after cur.rest⟩ ∨
      (∃ t ∈ cur.scan.tokens, t.kind = .comment) ∧
        Finds ⟨cur.rest ++ (ds ++ '\n' :: more), p⟩ ts ⟨'\n' :: more, p.after (cur.rest ++ ds)⟩)

namespace Fits

variable {bs taken : List Char} {p' : Position}

/-- A lexeme behind blanks, and after it a text that fits. -/
theorem of_token (hstep : cur.step = .token (token ⟨[], p'⟩ l taken) next)
    (hrest : cur.rest = bs ++ (taken ++ next.rest)) (hbs : ∀ b ∈ bs, b.isWhitespace)
    (hlexeme : Finds ⟨taken ++ (next.rest ++ (ds ++ '\n' :: more)), p.after bs⟩
      [token ⟨[], p.after bs⟩ l taken]
      ⟨next.rest ++ (ds ++ '\n' :: more), (p.after bs).after taken⟩)
    (h : next.Fits ds more ((p.after bs).after taken)) : cur.Fits ds more p := by
  obtain ⟨ts, hcontents, hfinds⟩ := h
  have hfirst := (finds_blanks hbs).trans hlexeme
  refine ⟨token ⟨[], p.after bs⟩ l taken :: ts, ?_, ?_⟩
  · rw [scan_of_token hstep]
    exact Token.contents_cons_congr rfl hcontents
  · rw [scan_of_token hstep, hrest]
    simp only [List.append_assoc, Position.after_append] at hfinds ⊢
    refine hfinds.imp hfirst.trans fun ⟨⟨t, ht, hk⟩, hfinds⟩ => ?_
    exact ⟨⟨t, List.mem_cons_of_mem _ ht, hk⟩, hfirst.trans hfinds⟩

/-- A comment behind blanks that takes what is left of the line with it. -/
theorem of_lineComment
    (hstep : cur.step = .token (token ⟨[], p'⟩ .comment ('/' :: '/' :: cs)) next)
    (hnext : next.rest = []) (hrest : cur.rest = bs ++ '/' :: '/' :: cs)
    (hbs : ∀ b ∈ bs, b.isWhitespace) (hends : ∀ c ∈ cs ++ ds, c ≠ '\n') : cur.Fits ds more p := by
  have htokens : cur.scan.tokens = [token ⟨[], p'⟩ .comment ('/' :: '/' :: cs)] := by
    rw [scan_of_token hstep, scan_of_rest_eq_nil hnext]
  have hline := (finds_blanks (p := p) hbs).trans (finds_lineComment hends more (p.after bs))
  refine ⟨[token ⟨[], p.after bs⟩ .comment ('/' :: '/' :: (cs ++ ds))], ?_, .inr ⟨?_, ?_⟩⟩
  · rw [htokens]
    exact (Token.contents_comment rfl).trans (Token.contents_comment rfl).symm
  · exact ⟨_, htokens ▸ List.mem_singleton_self _, rfl⟩
  · rw [hrest]
    simpa [Position.after_append] using hline

end Fits

/-- A fragment of a text that is not rejected is not rejected either, and it fits. -/
theorem fits_of_rejection_eq_none
    (hopen : ∀ r ∈ (scan ⟨cur.rest ++ [' '], p'⟩).rejection, r.fault ≠ .unterminatedComment)
    (hds : Trailing ds)
    (h : (scan ⟨cur.rest ++ (ds ++ '\n' :: more), p⟩).rejection = none) :
    cur.scan.rejection = none ∧ cur.Fits ds more p := by
  induction hlen : cur.rest.length using Nat.strong_induction_on generalizing cur p p' with
  | _ n ih =>
    cases hstep : cur.step with
    | finished next =>
      rw [scan_of_finished hstep]
      refine ⟨rfl, [], ?_, .inl (finds_blanks (blank_of_step hstep))⟩
      rw [scan_of_finished hstep]
    | rejected r next =>
      exact absurd h (rejection_of_fragment hstep hopen hds more p)
    | token t next =>
      have hlt := length_rest_lt_of_step hstep
      obtain ⟨bs, taken, l, hrest, hbs, rfl, -, hmore⟩ := lexeme_of_step hstep
      rw [scan_of_token hstep]
      by_cases hstops : next.rest = [] → l.Stops taken (ds ++ '\n' :: more)
      · -- The lexeme ends where it does by itself, and the rest of the fragment is shorter.
        have hlexeme := finds_of_step (hmore _ (p.after bs) hstops)
        have hspace := finds_of_step (hmore [' '] (p'.after bs) fun hnil =>
          (hstops hnil).of_head? (hds.head?_append _).symm)
        rw [hrest, List.append_assoc, List.append_assoc,
          rejection_of_finds ((finds_blanks hbs).trans hlexeme)] at h
        rw [hrest, List.append_assoc, List.append_assoc,
          rejection_of_finds ((finds_blanks hbs).trans hspace)] at hopen
        obtain ⟨hok, hfits⟩ := ih _ (hlen ▸ hlt) hopen h rfl
        exact ⟨hok, hfits.of_token hstep hrest hbs hlexeme⟩
      · -- It reaches the end of the fragment and goes on, so it is a comment.
        obtain ⟨hnil, hgoes⟩ := Classical.not_imp.1 hstops
        have htaken := hmore [] p fun _ => l.stops_nil taken
        rw [List.append_nil, hnil, List.append_nil] at htaken
        obtain ⟨rfl, tail, rfl, htail⟩ := lineComment_of_not_stops htaken hgoes (hds.ends _)
        rw [hnil, List.append_nil] at hrest
        refine ⟨by rw [scan_of_rest_eq_nil hnil], .of_lineComment hstep hnil hrest hbs ?_⟩
        exact List.forall_mem_append.2 ⟨htail, fun d hd => (hds.plain d hd).2.2⟩

/-! ### Names -/

/-- A text that is a single token and has no blanks at its ends is the text of this token. -/
theorem text_of_single (h : cur.scan.rejection = none) (ht : cur.scan.tokens = [t])
    (hk : t.kind ≠ .comment) (hhead : ∀ c ∈ cur.rest.head?, c.isWhitespace = false)
    (hlast : ∀ c ∈ cur.rest.getLast?, c.isWhitespace = false) : t.text.toList = cur.rest := by
  cases hs : cur.step with
  | finished => rw [scan_of_finished hs] at ht; cases ht
  | rejected => rw [scan_of_rejected hs] at ht; cases ht
  | token u next =>
    rw [scan_of_token hs] at h ht
    obtain ⟨rfl, hnone⟩ := List.cons.inj ht
    obtain ⟨bs, taken, l, hrest, hbs, hu, -⟩ := lexeme_of_step hs
    -- Only blanks are left around the token.
    have hafter : ∀ c ∈ next.rest, c.isWhitespace := by
      cases hs' : next.step with
      | finished => exact blank_of_step hs'
      | rejected => rw [scan_of_rejected hs'] at h; cases h
      | token => rw [scan_of_token hs'] at hnone; cases hnone
    have hbefore : bs = [] := by
      cases bs with
      | nil => rfl
      | cons b bs =>
        rw [hrest] at hhead
        exact absurd (hbs b List.mem_cons_self) (Bool.eq_false_iff.1 (hhead b rfl))
    have hnext : next.rest = [] := by
      cases hl : next.rest.getLast? with
      | none => exact List.getLast?_eq_none_iff.1 hl
      | some c =>
        have hc : c ∈ cur.rest.getLast? := by
          rw [hrest, List.getLast?_append, List.getLast?_append, hl]
          rfl
        exact absurd (hafter c (List.mem_of_getLast? hl)) (Bool.eq_false_iff.1 (hlast c hc))
    have htext : u.text.toList = l.text taken := by rw [hu, token, String.toList_ofList]
    rw [htext, hrest, hbefore, hnext, List.append_nil, List.nil_append]
    cases l with
    | comment => exact absurd (hu ▸ rfl) hk
    | _ => rfl

end Cursor

end StyleDecl
