import Mathlib.Logic.Function.Iterate
import StyleDecl.Decl.Reader.Types

/-!
# Declarations up to spelling

A text says more than a declaration means: a literal has several spellings, and
comments may stand anywhere. `TypeExpr.respelled` brings literals and quoted keys
into another spelling and leaves out the comments within object types, which have
no place in their text.

* `TypeExpr.respelled`, `Parameter.respelled`, `Member.respelled`;
* `Statement.mapped`: a statement with other types and another body;
* `Statement.withoutComments`: statements without any comments.
-/

namespace StyleDecl

/-! ### Types and members -/

mutual

/-- A type with literals and keys spelled by `f`, without the comments in it. -/
def TypeExpr.respelled (f : String → String) : TypeExpr → TypeExpr
  | .hole => .hole
  | .reference name => .reference name
  | .literal raw => .literal (f raw)
  | .union members => .union (TypeExpr.respelledAll f members)
  | .intersection members => .intersection (TypeExpr.respelledAll f members)
  | .array element => .array (element.respelled f)
  | .object members => .object (Member.respelledAll f members)

/-- Types with literals and keys spelled by `f`. -/
def TypeExpr.respelledAll (f : String → String) : List TypeExpr → List TypeExpr
  | [] => []
  | t :: ts => t.respelled f :: TypeExpr.respelledAll f ts

/-- A parameter with literals and keys in its type spelled by `f`. -/
def Parameter.respelled (f : String → String) : Parameter → Parameter
  | .mk name type optional => .mk name (type.respelled f) optional

/-- Parameters with literals and keys in their types spelled by `f`. -/
def Parameter.respelledAll (f : String → String) : List Parameter → List Parameter
  | [] => []
  | p :: ps => p.respelled f :: Parameter.respelledAll f ps

/-- A member with literals and keys spelled by `f`. A comment is left alone. -/
def Member.respelled (f : String → String) : Member → Member
  | .hole => .hole
  | .property key type readonly optional => .property (f key) (type.respelled f) readonly optional
  | .method key parameters result optional =>
    .method (f key) (Parameter.respelledAll f parameters) (result.respelled f) optional
  | .call parameters result => .call (Parameter.respelledAll f parameters) (result.respelled f)
  | .index parameter type => .index (parameter.respelled f) (type.respelled f)
  | .comment text => .comment text

/-- Members with literals and keys spelled by `f`, without the comments between them. -/
def Member.respelledAll (f : String → String) : List Member → List Member
  | [] => []
  | .comment _ :: ms => Member.respelledAll f ms
  | m :: ms => m.respelled f :: Member.respelledAll f ms

end

/-- Whether a member is a comment. -/
def Member.isComment : Member → Bool
  | .comment _ => true
  | _ => false

section

variable (f g : String → String)

@[simp] theorem TypeExpr.respelledAll_eq_map (ts : List TypeExpr) :
    TypeExpr.respelledAll f ts = ts.map (TypeExpr.respelled f) := by
  induction ts with
  | nil => rfl
  | cons t ts ih => rw [TypeExpr.respelledAll, ih, List.map_cons]

@[simp] theorem Parameter.respelledAll_eq_map (ps : List Parameter) :
    Parameter.respelledAll f ps = ps.map (Parameter.respelled f) := by
  induction ps with
  | nil => rfl
  | cons p ps ih => rw [Parameter.respelledAll, ih, List.map_cons]

theorem Member.respelledAll_cons {m : Member} (hm : m.isComment = false) (ms : List Member) :
    Member.respelledAll f (m :: ms) = m.respelled f :: Member.respelledAll f ms := by
  cases m <;> first | rfl | exact absurd hm nofun

@[simp] theorem Member.respelledAll_append (ms ms' : List Member) :
    Member.respelledAll f (ms ++ ms') = Member.respelledAll f ms ++ Member.respelledAll f ms' := by
  induction ms with
  | nil => rfl
  | cons m ms ih =>
    by_cases hm : m.isComment
    · cases m <;> first | exact ih | exact absurd hm nofun
    · rw [List.cons_append, Member.respelledAll_cons f (by simpa using hm),
        Member.respelledAll_cons f (by simpa using hm), ih, List.cons_append]

@[simp] theorem Member.respelledAll_commentMembers (cs : List Token) :
    Member.respelledAll f (Reader.commentMembers cs) = [] := by
  induction cs with
  | nil => rfl
  | cons c cs ih => exact ih

@[simp] theorem TypeExpr.respelled_combined_union (ts : List TypeExpr) :
    (Reader.combined .union ts).respelled f =
      Reader.combined .union (ts.map (TypeExpr.respelled f)) := by
  rcases ts with - | ⟨t, - | ⟨u, ts⟩⟩ <;> simp [Reader.combined, TypeExpr.respelled]

@[simp] theorem TypeExpr.respelled_combined_intersection (ts : List TypeExpr) :
    (Reader.combined .intersection ts).respelled f =
      Reader.combined .intersection (ts.map (TypeExpr.respelled f)) := by
  rcases ts with - | ⟨t, - | ⟨u, ts⟩⟩ <;> simp [Reader.combined, TypeExpr.respelled]

@[simp] theorem TypeExpr.respelled_iterate_array (n : Nat) (t : TypeExpr) :
    (TypeExpr.array^[n] t).respelled f = TypeExpr.array^[n] (t.respelled f) := by
  induction n generalizing t with
  | zero => rfl
  | succ n ih => rw [Function.iterate_succ_apply, ih, Function.iterate_succ_apply]; rfl

end

/-! ### One spelling after another -/

section

variable (f g : String → String)

mutual

/-- The comments that are left out the second time are those that are left. -/
theorem TypeExpr.respelled_respelled :
    (t : TypeExpr) → (t.respelled g).respelled f = t.respelled (f ∘ g)
  | .hole | .reference _ | .literal _ => rfl
  | .union ts => congrArg TypeExpr.union (TypeExpr.respelledAll_respelledAll ts)
  | .intersection ts => congrArg TypeExpr.intersection (TypeExpr.respelledAll_respelledAll ts)
  | .array t => congrArg TypeExpr.array (TypeExpr.respelled_respelled t)
  | .object ms => congrArg TypeExpr.object (Member.respelledAll_respelledAll ms)

theorem TypeExpr.respelledAll_respelledAll : (ts : List TypeExpr) →
    TypeExpr.respelledAll f (TypeExpr.respelledAll g ts) = TypeExpr.respelledAll (f ∘ g) ts
  | [] => rfl
  | t :: ts => congrArg₂ List.cons (TypeExpr.respelled_respelled t)
      (TypeExpr.respelledAll_respelledAll ts)

theorem Parameter.respelled_respelled :
    (p : Parameter) → (p.respelled g).respelled f = p.respelled (f ∘ g)
  | .mk name t optional => congrArg (Parameter.mk name · optional) (TypeExpr.respelled_respelled t)

theorem Parameter.respelledAll_respelledAll : (ps : List Parameter) →
    Parameter.respelledAll f (Parameter.respelledAll g ps) = Parameter.respelledAll (f ∘ g) ps
  | [] => rfl
  | p :: ps => congrArg₂ List.cons (Parameter.respelled_respelled p)
      (Parameter.respelledAll_respelledAll ps)

theorem Member.respelled_respelled :
    (m : Member) → (m.respelled g).respelled f = m.respelled (f ∘ g)
  | .hole | .comment _ => rfl
  | .property key t readonly optional =>
    congrArg (Member.property (f (g key)) · readonly optional) (TypeExpr.respelled_respelled t)
  | .method key ps t optional =>
    congrArg₂ (Member.method (f (g key)) · · optional) (Parameter.respelledAll_respelledAll ps)
      (TypeExpr.respelled_respelled t)
  | .call ps t =>
    congrArg₂ Member.call (Parameter.respelledAll_respelledAll ps) (TypeExpr.respelled_respelled t)
  | .index p t =>
    congrArg₂ Member.index (Parameter.respelled_respelled p) (TypeExpr.respelled_respelled t)

theorem Member.respelledAll_respelledAll : (ms : List Member) →
    Member.respelledAll f (Member.respelledAll g ms) = Member.respelledAll (f ∘ g) ms
  | [] => rfl
  | m :: ms => by
    have hms := Member.respelledAll_respelledAll ms
    cases m with
    | comment => exact hms
    | _ => exact congrArg₂ List.cons (Member.respelled_respelled _) hms

end

/-- Types that are the same but for the comments in them are the same in any spelling. -/
theorem TypeExpr.respelled_congr {t t' : TypeExpr} (h : t'.respelled id = t.respelled id) :
    t'.respelled f = t.respelled f := by
  have hf := congrArg (TypeExpr.respelled f) h
  rwa [TypeExpr.respelled_respelled, TypeExpr.respelled_respelled] at hf

theorem Member.respelled_congr {m m' : Member} (h : m'.respelled id = m.respelled id) :
    m'.respelled f = m.respelled f := by
  have hf := congrArg (Member.respelled f) h
  rwa [Member.respelled_respelled, Member.respelled_respelled] at hf

end

/-! ### Operands and elements -/

section

variable {α : Type} {f : TypeExpr → α} {g : List TypeExpr → α} {make : List TypeExpr → TypeExpr}

/-- What is said of unions or intersections by their operands is said of operands that are
    combined. -/
theorem TypeExpr.apply_combined (hmake : ∀ ts, f (make ts) = g ts) (hone : ∀ t, g [t] = f t)
    (t : TypeExpr) (ts : List TypeExpr) : f (Reader.combined make (t :: ts)) = g (t :: ts) := by
  cases ts with
  | nil => exact (hone t).symm
  | cons u ts => exact hmake _

/-- What is said of arrays by their elements is said of arrays of arrays. -/
theorem TypeExpr.apply_iterate_array (h : ∀ t, f (.array t) = f t) (n : Nat) (t : TypeExpr) :
    f (TypeExpr.array^[n] t) = f t := by
  induction n with
  | zero => rfl
  | succ n ih => rw [Function.iterate_succ_apply', h, ih]

end

/-! ### Statements -/

/-- A statement with its type changed by `type` and its body by `body`. -/
def Statement.mapped (type : TypeExpr → TypeExpr) (body : List Member → List Member) :
    Statement → Statement
  | .comment text attached => .comment text attached
  | .typeAlias name t modifiers => .typeAlias name (type t) modifiers
  | .interfaceDecl name members modifiers => .interfaceDecl name (body members) modifiers
  | .classDecl name members modifiers => .classDecl name (body members) modifiers
  | .variableDecl kind name t modifiers => .variableDecl kind name (t.map type) modifiers
  | .exportDefault name => .exportDefault name

/-- Whether a statement is a comment. -/
def Statement.isComment : Statement → Bool
  | .comment _ _ => true
  | _ => false

/-- A statement without the comments in it. -/
def Statement.uncommented : Statement → Statement :=
  Statement.mapped (TypeExpr.respelled id) (Member.respelledAll id)

/-- Statements without the comments between them and in them. -/
def Statement.withoutComments (ss : List Statement) : List Statement :=
  (ss.filter (!·.isComment)).map Statement.uncommented

section

variable {ss ss' : List Statement}

@[simp] theorem Statement.withoutComments_append :
    withoutComments (ss ++ ss') = withoutComments ss ++ withoutComments ss' := by
  rw [withoutComments, List.filter_append, List.map_append]
  rfl

theorem Statement.withoutComments_cons {s : Statement} (hs : s.isComment = false) :
    withoutComments (s :: ss) = s.uncommented :: withoutComments ss := by
  simp [withoutComments, hs]

end

end StyleDecl
