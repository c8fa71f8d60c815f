import StyleDecl.Proofs.Unseen.Readers

/-!
# Files without their comments

What is made of a list of tokens is the same without its comments, up to comments, and a rejection
has the same cause and place. Where the tokens stand matters only for what is accepted: accepted
files with the same tokens are the same up to comments, wherever the tokens stand.

* `DeclFile.SameOutcome`: the same file up to comments, or the same rejection;
* `DeclFile.ofTokens?_uncommented`: what is made of a list of tokens without its comments.
-/

namespace StyleDecl

/-! ### Lists of tokens -/

/-- What is made of two lists of tokens is the same, up to comments: either both are read, and
    the files differ in their comments only, or both are rejected for the same cause and at the
    same place. -/
def DeclFile.SameOutcome : Except Rejection DeclFile → Except Rejection DeclFile → Prop
  | .ok f, .ok f' =>
    Statement.withoutComments f.statements = Statement.withoutComments f'.statements
  | .error r, .error r' => r = r'
  | _, _ => False

section

variable {ts us : List Token} {e e' : Token}

theorem Stream.alike_uncommented (ts : List Token) (he : e.kind = .eof) :
    (Stream.ofTokens (ts ++ [e])).Alike true
      (Stream.ofTokens (Token.uncommented (ts ++ [e]))) := by
  have hclosing : closing (Token.uncommented (ts ++ [e])) = closing (ts ++ [e]) := by
    simp [closing, Token.uncommented, he]
  refine ⟨?_, congrArg Subtype.val hclosing.symm, fun _ => congrArg Subtype.val hclosing.symm⟩
  change (Item.group _).map Item.token = (Item.group _).map Item.token
  rw [Item.map_token_group, Item.map_token_group,
    Token.uncommented_eq_self fun _ ht => (Token.mem_uncommented.1 ht).2]

/-- Tokens apart from each other: each begins below the line where any other ends. -/
def Token.apart (content : Kind × String) : Token := ⟨content.1, content.2, 1, 1, 0⟩

/-- Tokens apart are made of tokens that are no comments. -/
theorem Token.mem_apart {u : Token} (h : u ∈ ((uncommented ts).map content).map apart) :
    ∃ t ∈ ts, t.kind ≠ .comment ∧ u.kind = t.kind := by
  rw [List.map_map] at h
  obtain ⟨t, ht, rfl⟩ := List.mem_map.1 h
  exact ⟨t, (mem_uncommented.1 ht).1, (mem_uncommented.1 ht).2, rfl⟩

theorem Token.relocates_apart : Token.Relocates fun t u => u = Token.apart t.content where
  kind h := by rw [h, apart, content]
  text h := by rw [h, apart, content]
  below h h' _ := by
    rw [h, h']
    exact Nat.zero_lt_one

namespace Grammar

/-- What derives a file without comments derives no other file. -/
theorem DerivesFile.unique {ss ss' : List Statement} (he : e.kind = .eof)
    (hne : ∀ t ∈ ts, t.kind ≠ .eof) (h : DerivesFile false (Item.group (ts ++ [e])) ss)
    (h' : DerivesFile false (Item.group (ts ++ [e])) ss') : ss = ss' := by
  obtain ⟨f, hf, rfl⟩ := (ofTokens?_iff_derives he hne ss).2 h
  obtain ⟨f', hf', rfl⟩ := (ofTokens?_iff_derives he hne ss').2 h'
  rw [Except.ok.inj (hf.symm.trans hf')]

/-- What derives a file does so with its tokens apart, for which only their contents count. -/
theorem DerivesFile.apart {ss : List Statement} (h : DerivesFile false (Item.group ts) ss) :
    DerivesFile false
      (Item.group (((Token.uncommented ts).map Token.content).map Token.apart)) ss := by
  refine h.relocated Token.relocates_apart ?_
  have hkeep : ∀ u ∈ ((Token.uncommented ts).map Token.content).map Token.apart,
      u.kind ≠ .comment := by
    intro u hu
    obtain ⟨t, -, ht, hk⟩ := Token.mem_apart hu
    rwa [hk]
  rw [Item.relocated_iff_tokens, Item.map_token_group, Item.map_token_group,
    Token.uncommented_eq_self hkeep, List.map_map, List.forall₂_map_right_iff]
  exact List.forall₂_same.2 fun t _ => rfl

end Grammar

/-- Files are the same up to their comments if the tokens in them are, wherever these stand. -/
theorem DeclFile.withoutComments_eq_of_content (he : e.kind = .eof)
    (hne : ∀ t ∈ ts, t.kind ≠ .eof) (he' : e'.kind = .eof) (hne' : ∀ t ∈ us, t.kind ≠ .eof)
    (hcontent : (Token.uncommented (ts ++ [e])).map Token.content =
      (Token.uncommented (us ++ [e'])).map Token.content) {f f' : DeclFile}
    (h : ofTokens? (ts ++ [e]) = .ok f) (h' : ofTokens? (us ++ [e']) = .ok f') :
    Statement.withoutComments f.statements = Statement.withoutComments f'.statements := by
  have hd := ((Grammar.ofTokens?_iff_derives he hne _).1 ⟨f, h, rfl⟩).apart
  have hd' := ((Grammar.ofTokens?_iff_derives he' hne' _).1 ⟨f', h', rfl⟩).apart
  rw [← hcontent] at hd'
  rw [Token.uncommented_concat he, List.map_append, List.map_append] at hd hd'
  refine hd.unique (e := Token.apart e.content) he (fun u hu => ?_) hd'
  obtain ⟨t, ht, -, hk⟩ := Token.mem_apart hu
  rw [hk]
  exact hne t ht

/-- What is made of a list of tokens is the same without its comments, up to comments. And
    files of the same tokens are the same up to comments, wherever the tokens stand. -/
theorem DeclFile.ofTokens?_uncommented (he : e.kind = .eof) (hne : ∀ t ∈ ts, t.kind ≠ .eof) :
    SameOutcome (ofTokens? (ts ++ [e])) (ofTokens? (Token.uncommented (ts ++ [e]))) ∧
      ∀ us e', e'.kind = .eof → (∀ t ∈ us, t.kind ≠ .eof) →
        (Token.uncommented (ts ++ [e])).map Token.content =
          (Token.uncommented (us ++ [e'])).map Token.content →
        ∀ {f f'}, ofTokens? (ts ++ [e]) = .ok f → ofTokens? (us ++ [e']) = .ok f' →
          Statement.withoutComments f.statements = Statement.withoutComments f'.statements := by
  refine ⟨?_, fun us e' he' hne' hc f f' h h' =>
    withoutComments_eq_of_content he hne he' hne' hc h h'⟩
  have hagree := Reader.agrees_file.of_unsettled (Stream.alike_uncommented ts he)
  generalize hf : Reader.file (Stream.ofTokens (ts ++ [e])) = r,
    hf' : Reader.file (Stream.ofTokens (Token.uncommented (ts ++ [e]))) = r' at hagree
  -- The readers do not tell how the two files are related: this is seen from their derivations.
  cases hagree with
  | error => simp only [ofTokens?, hf, hf', SameOutcome]
  | @ok f f' s s' _ _ =>
    have h : ofTokens? (ts ++ [e]) = .ok f := by simp only [ofTokens?, hf]
    have h' : ofTokens? (Token.uncommented (ts ++ [e])) = .ok f' := by simp only [ofTokens?, hf']
    rw [h, h']
    rw [Token.uncommented_concat he] at h'
    refine withoutComments_eq_of_content he hne he
      (fun t ht => hne t (Token.mem_uncommented.1 ht).1) ?_ h h'
    simp [Token.uncommented]

/-- A comment after a type alias, and the same alias far above the default export. -/
theorem DeclFile.ofTokens?_uncommented_default :
    let ts : List Token := [⟨.keyword .type, "type", 1, 1, 1⟩, ⟨.identifier, "A", 1, 6, 1⟩,
      ⟨.punct .equals, "=", 1, 8, 1⟩, ⟨.identifier, "B", 1, 10, 1⟩,
      ⟨.comment, "// end", 1, 12, 1⟩, ⟨.keyword .exportWord, "export", 2, 1, 2⟩,
      ⟨.keyword .default, "default", 2, 8, 2⟩, ⟨.identifier, "A", 2, 16, 2⟩]
    let us : List Token := [⟨.keyword .type, "type", 3, 7, 3⟩, ⟨.identifier, "A", 1, 1, 4⟩,
      ⟨.punct .equals, "=", 2, 2, 2⟩, ⟨.identifier, "B", 1, 5, 0⟩,
      ⟨.keyword .exportWord, "export", 9, 1, 2⟩, ⟨.keyword .default, "default", 5, 8, 5⟩,
      ⟨.identifier, "A", 5, 5, 5⟩]
    let e : Token := ⟨.eof, "", 2, 17, 2⟩
    SameOutcome (ofTokens? (ts ++ [e])) (ofTokens? (Token.uncommented (ts ++ [e]))) ∧
      ∃ f f', ofTokens? (ts ++ [e]) = .ok f ∧ ofTokens? (us ++ [e]) = .ok f' ∧
        Statement.withoutComments f.statements = Statement.withoutComments f'.statements := by
  intro ts us e
  obtain ⟨hsame, hmoved⟩ := @ofTokens?_uncommented ts e rfl (by decide)
  obtain ⟨f, hf⟩ : ∃ f, ofTokens? (ts ++ [e]) = .ok f := ⟨_, rfl⟩
  obtain ⟨f', hf'⟩ : ∃ f', ofTokens? (us ++ [e]) = .ok f' := ⟨_, rfl⟩
  exact ⟨hsame, f, f', hf, hf', hmoved us e rfl (by decide) rfl hf hf'⟩

end

end StyleDecl
