import Mathlib.Algebra.Ring.Nat
import StyleDecl.Emit.Warning
import StyleDecl.Proofs.Reordered
import StyleDecl.Proofs.Tables

/-!
# The two reports on warnings

The short report counts warnings and the long one collects them, each in a table of its own that
is filled warning by warning. The tables stay in step: they have the same keys in the same order,
and each count is the number of the warnings collected at its key (`InStep`). And a table of
collected warnings holds, at each construct, the warnings about it as they came, so it loses none
and holds none twice.

* `Warning.tally_eq`: the counts of the short report are those of the long one;
* `Warning.grouped_groups`: how warnings are grouped;
* `Warning.reports_agree`: what the reports say after any history of notices.
-/

namespace StyleDecl

variable {α β : Type}

/-! ### Tables in step -/

namespace Table

variable {R : α → β → Prop} {es : List (String × α)} {fs : List (String × β)} {a : α} {b : β}

/-- Entries that correspond to each other still do after values that correspond are entered. -/
theorem forall₂_insertInto (h : List.Forall₂ (SameEntry R) es fs) (key : String) (hab : R a b) :
    List.Forall₂ (SameEntry R) (insertInto es key a) (insertInto fs key b) := by
  induction h with
  | nil => exact .cons ⟨rfl, hab⟩ .nil
  | @cons e f es fs hef hrest ih =>
    obtain ⟨k, v⟩ := e
    obtain ⟨k', w⟩ := f
    obtain ⟨rfl, hvw⟩ : k = k' ∧ R v w := hef
    rw [insertInto, insertInto]
    split
    · exact .cons ⟨rfl, hab⟩ hrest
    · exact .cons ⟨rfl, hvw⟩ ih

/-- Looking up a key finds values that correspond, or nothing on both sides. -/
theorem rel_lookup (h : List.Forall₂ (SameEntry R) es fs) (key : String) :
    Option.Rel R (es.lookup key) (fs.lookup key) := by
  induction h with
  | nil => exact .none
  | @cons e f es fs hef hrest ih =>
    obtain ⟨k, v⟩ := e
    obtain ⟨k', w⟩ := f
    obtain ⟨rfl, hvw⟩ : k = k' ∧ R v w := hef
    rw [List.lookup_cons, List.lookup_cons]
    split
    · exact .some hvw
    · exact ih

end Table

namespace Warning

variable {ws : List Warning}

/-- The counts are the numbers of the warnings that are collected at the same keys. -/
def InStep (counts : Table Nat) (groups : Table (List Warning)) : Prop :=
  List.Forall₂ (SameEntry fun n ws => n = ws.length) counts.entries groups.entries

/-- One more warning is counted where it is collected. -/
theorem InStep.step {counts : Table Nat} {groups : Table (List Warning)}
    (h : InStep counts groups) (w : Warning) : InStep (count counts w) (gather groups w) := by
  refine Table.forall₂_insertInto h w.construct.name ?_
  have hfound : Option.Rel _ (counts.get? w.construct.name) (groups.get? w.construct.name) :=
    Table.rel_lookup h w.construct.name
  generalize counts.get? w.construct.name = n, groups.get? w.construct.name = g at hfound
  cases hfound with
  | none => rfl
  | some hn => simp [hn]

theorem InStep.foldl {counts : Table Nat} {groups : Table (List Warning)}
    (h : InStep counts groups) (ws : List Warning) :
    InStep (ws.foldl count counts) (ws.foldl gather groups) := by
  induction ws generalizing counts groups with
  | nil => exact h
  | cons w ws ih => exact ih (h.step w)

/-- The short report counts what the long one collects. -/
theorem tally_eq (ws : List Warning) : tally ws = (groups ws).map fun g => (g.1, g.2.length) := by
  have hempty : InStep .empty .empty := List.Forall₂.nil
  have hstep := hempty.foldl ws
  have hsorted := Table.forall₂_sorted (.refl _) hstep
  rw [← List.map_id (tally ws), ← List.forall₂_eq_eq_eq, List.forall₂_map_left_iff,
    List.forall₂_map_right_iff]
  exact hsorted.imp fun _ _ h => Prod.ext h.1 h.2

/-! ### Warnings in groups -/

/-- The warnings about the construct with the name `name`. -/
def about (name : String) (ws : List Warning) : List Warning :=
  ws.filter fun w => w.construct.name = name

/-- The warnings `ws` in the groups `groups`, in ascending order of what they are about: each
    group holds all warnings about the same, as they came, and no warning is in several groups. -/
structure Grouped (ws : List Warning) (groups : List (String × List Warning)) : Prop where
  ascending : groups.Pairwise fun g h => g.1 < h.1
  group : ∀ g ∈ groups, g.2 ≠ [] ∧ g.2 = about g.1 ws
  perm : (groups.flatMap Prod.snd).Perm ws

/-- What is collected about a construct are the warnings about it, if there are any. -/
theorem get?_foldl_gather (ws : List Warning) (name : String) :
    (ws.foldl gather .empty).get? name =
      if about name ws = [] then none else some (about name ws) := by
  -- From the right, since the last warning is put behind those that are looked up.
  induction ws using List.reverseRecOn with
  | nil => rfl
  | append_singleton ws w ih =>
    have happend : about name (ws ++ [w]) = about name ws ++ about name [w] :=
      List.filter_append ..
    rw [List.foldl_append, List.foldl_cons, List.foldl_nil, gather, Table.get?_insert, happend]
    by_cases hname : name = w.construct.name
    · have hone : about name [w] = [w] := by simp [about, hname]
      have hsoFar : ((ws.foldl gather .empty).get? name).getD [] = about name ws := by
        rw [ih]
        split <;> simp_all
      rw [if_pos hname, ← hname, hsoFar, hone, if_neg (by simp)]
    · have hnone : about name [w] = [] := by simp [about, Ne.symm hname]
      rw [if_neg hname, ih, hnone, List.append_nil]

/-- A warning that is entered is added to those collected before. -/
theorem flatMap_insertInto (es : List (String × List Warning)) (name : String) (w : Warning) :
    ((Table.insertInto es name ((es.lookup name).getD [] ++ [w])).flatMap Prod.snd).Perm
      (es.flatMap Prod.snd ++ [w]) := by
  -- Groups behind the one that grows move past the new warning, so the order is not kept.
  induction es with
  | nil => exact .refl _
  | cons e es ih =>
    obtain ⟨k, v⟩ := e
    rw [Table.insertInto, List.lookup_cons]
    by_cases hk : k = name
    · subst hk
      simp only [if_true, beq_self_eq_true, List.flatMap_cons, Option.getD_some,
        List.append_assoc]
      exact List.perm_append_comm.append_left v
    · have hbeq : (name == k) = false := beq_false_of_ne (Ne.symm hk)
      simp only [if_neg hk, hbeq, List.flatMap_cons, List.append_assoc]
      exact ih.append_left v

theorem flatMap_foldl_gather (groups : Table (List Warning)) (ws : List Warning) :
    ((ws.foldl gather groups).entries.flatMap Prod.snd).Perm
      (groups.entries.flatMap Prod.snd ++ ws) := by
  induction ws generalizing groups with
  | nil => rw [List.append_nil]; exact .refl _
  | cons w ws ih =>
    refine (ih (gather groups w)).trans ?_
    rw [← List.singleton_append, ← List.append_assoc]
    exact (flatMap_insertInto groups.entries w.construct.name w).append_right ws

theorem grouped_groups (ws : List Warning) : Grouped ws (groups ws) where
  ascending := Table.pairwise_lt_sorted _
  group g hg := by
    have hentry := (Table.sorted_perm _).mem_iff.1 hg
    have hget := get?_foldl_gather ws g.1
    rw [Table.get?_eq_some_iff.2 hentry] at hget
    split at hget
    · cases hget
    · next hne =>
      obtain hsome := Option.some.inj hget
      exact ⟨hsome ▸ hne, hsome⟩
  perm := ((Table.sorted_perm _).flatMap_right _).trans (flatMap_foldl_gather .empty ws)

/-- The groups hold as many warnings as there are. -/
theorem Grouped.sum_length {groups : List (String × List Warning)} (h : Grouped ws groups) :
    (groups.map fun g => g.2.length).sum = ws.length := by
  rw [← h.perm.length_eq, List.length_flatMap]

/-! ### The reports -/

/-- The warnings that are reported are those raised since they were last dropped. -/
theorem exists_collected (history : List Notice) : ∃ before,
    (before = [] ∨ before.getLast? = some .cleared) ∧
      history = before ++ (collected history).map .raised := by
  induction history using List.reverseRecOn with
  | nil => exact ⟨[], .inl rfl, rfl⟩
  | append_singleton history notice ih =>
    have hstep : collected (history ++ [notice]) = notice.apply (collected history) :=
      List.foldl_concat ..
    rw [hstep]
    cases notice with
    | cleared => exact ⟨history ++ [.cleared], .inr (by simp), by simp [Notice.apply]⟩
    | raised w =>
      obtain ⟨before, hbefore, hhistory⟩ := ih
      refine ⟨before, hbefore, ?_⟩
      rw [Notice.apply, List.map_append, ← List.append_assoc, ← hhistory]
      rfl

/-- Without warnings nothing is printed, and nothing else is printed as nothing. -/
theorem report_eq_empty_iff (verbose : Bool) : report verbose ws = "" ↔ ws = [] := by
  cases ws with
  | nil => exact ⟨fun _ => rfl, fun _ => rfl⟩
  | cons w ws => simp [report, reportLines, String.join_cons]

theorem summary_eq_none_iff : summary ws = "No generator warnings." ↔ ws = [] := by
  cases ws with
  | nil => exact ⟨fun _ => rfl, fun _ => rfl⟩
  | cons w ws =>
    refine ⟨fun h => ?_, nofun⟩
    have hchars := congrArg String.toList h
    simp [summary] at hchars

/-- Whatever happened, both reports are about the warnings since they were last dropped. There is
    no long report exactly if the short one says that there are no warnings. Otherwise both go
    through the same groups with the same numbers of warnings, which add up to the number of all
    warnings, and the long one lists each warning in its group, if it lists them at all. -/
theorem reports_agree (history : List Notice) (verbose : Bool) :
    let ws := collected history
    (∃ before, (before = [] ∨ before.getLast? = some .cleared) ∧
        history = before ++ ws.map .raised) ∧
      (report verbose ws = "" ↔ summary ws = "No generator warnings.") ∧
      (summary ws = "No generator warnings." ↔ ws = []) ∧
      (ws ≠ [] → ∃ groups, Grouped ws groups ∧
        (groups.map fun g => g.2.length).sum = ws.length ∧
        summary ws = "Generator warnings: " ++
          ", ".intercalate (groups.map fun g => toString g.2.length ++ " " ++ g.1) ∧
        report verbose ws = String.join (List.map (· ++ "\n") <|
          "" :: ("Generator warnings (" ++ toString ws.length ++ "):") ::
            groups.flatMap fun g =>
              ("  " ++ g.1 ++ ": " ++ toString g.2.length ++ " occurrence(s)") ::
                if verbose then g.2.map fun w => "    " ++ w.text else [])) := by
  intro ws
  refine ⟨exists_collected history, ?_, summary_eq_none_iff, fun hne => ?_⟩
  · rw [report_eq_empty_iff, summary_eq_none_iff]
  have hempty : ¬ws.isEmpty := fun h => hne (List.isEmpty_iff.1 h)
  have hgroups := grouped_groups ws
  refine ⟨groups ws, hgroups, hgroups.sum_length, ?_, ?_⟩
  · rw [summary, if_neg hempty, tally_eq, List.map_map]
    rfl
  · rw [report, reportLines, if_neg hempty]
    rfl

/-- A warning that was dropped, and three that came after it. -/
theorem reports_agree_cleared :
    let history : List Notice := [.raised (.repeatedChild "A" "B"), .cleared,
      .raised (.noStates "A" "m"), .raised (.sharedKey "A" "k"), .raised (.noStates "A" "n")]
    let ws : List Warning := [.noStates "A" "m", .sharedKey "A" "k", .noStates "A" "n"]
    collected history = ws ∧ ws ≠ [] ∧ summary ws = "Generator warnings: 1 member, 2 state" ∧
      ∃ groups, Grouped ws groups ∧ (groups.map fun g => g.2.length).sum = 3 := by
  intro history ws
  obtain ⟨-, -, -, hreports⟩ := reports_agree history true
  have hne : ws ≠ [] := List.cons_ne_nil _ _
  obtain ⟨groups, hgroups, hsum, -⟩ := hreports hne
  have hcounts : ws.foldl count .empty = ⟨[("state", 2), ("member", 1)], by decide⟩ := rfl
  have htally : tally ws = [("member", 1), ("state", 2)] := by
    rw [tally, hcounts]
    simp [Table.sorted, List.mergeSort]
  have hsummary : summary ws = "Generator warnings: 1 member, 2 state" := by
    rw [summary, htally]
    rfl
  exact ⟨rfl, hne, hsummary, groups, hgroups, hsum⟩

end Warning

end StyleDecl
