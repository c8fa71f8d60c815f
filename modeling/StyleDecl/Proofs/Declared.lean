import StyleDecl.Generate
import StyleDecl.Proofs.WellFormed

/-!
# What a style tree declares

The declarations of a style tree as a file, without regard to how they are written:
the banner, the style type, one class or interface for each node, the children of an
object ahead of it, and the variable that is exported by default.

* `Surface.members`: the members of a class, properties before methods, each of them
  in the order of the code points of their names;
* `Node.statements`: the declarations of a tree;
* `Node.file`: the file of a tree;
* `Node.WellFormed`, `Options.WellFormed`: what can be declared at all. Names have to
  be identifiers, while the names of members and the states may be any strings.
-/

namespace StyleDecl

open Literal Reader

/-! ### Members -/

namespace Options

variable (o : Options)

/-- The style type as a type. -/
def style : TypeExpr := .reference o.styleType

/-- The members, made by `make`, for a method or a call with the given states: one
    for these states, in the order of their code points, and one for any string.
    Without states it is a toggle. -/
def overloads (make : Parameter → TypeExpr → Member) : Option (List String) → List Member
  | none | some [] => [make (.mk "enabled" (.reference "any") true) o.style]
  | some states =>
    [make (.mk stateParameter
        (combined .union ((sorted states).map fun s => .literal (quote s))) false) o.style,
      make (.mk stateParameter (.reference fallbackType) false) o.style]

end Options

/-- The property with the name `name`: it has all of the types `types` and the style
    type. -/
def Surface.propertyMember (o : Options) (name : String) (types : List String) : Member :=
  .property (key name) (combined .intersection ((types ++ [o.styleType]).map .reference)) true false

/-- The members of an object. -/
def Surface.members (o : Options) (s : Surface) : List Member :=
  (s.properties.sorted.map fun p => Surface.propertyMember o p.1 p.2) ++
    s.methods.sorted.flatMap fun m =>
      o.overloads (fun parameter result => .method (key m.1) [parameter] result false) m.2

/-- Sorting by the code points of a key puts the keys in their order. -/
theorem pairwise_mergeSort_le {α : Type} (f : α → String) (as : List α) :
    (as.mergeSort fun a b => decide (f a ≤ f b)).Pairwise fun a b => f a ≤ f b := by
  refine (List.pairwise_mergeSort ?_ ?_ as).imp of_decide_eq_true
  · intro a b c hab hbc
    simp only [decide_eq_true_eq] at hab hbc ⊢
    exact String.le_trans hab hbc
  · intro a b
    simpa using String.le_total (f a) (f b)

section

variable {α : Type} (t : Table α) (strings : List String)

/-- The sorted entries are the entries of the table. -/
theorem Table.sorted_perm : t.sorted.Perm t.entries := List.mergeSort_perm _ _

/-- They are in the order of the code points of their keys. -/
theorem Table.pairwise_sorted : t.sorted.Pairwise fun e f => e.1 ≤ f.1 :=
  pairwise_mergeSort_le Prod.fst t.entries

theorem Literal.sorted_perm : (sorted strings).Perm strings := List.mergeSort_perm _ _

theorem Literal.pairwise_sorted : (sorted strings).Pairwise (· ≤ ·) :=
  pairwise_mergeSort_le id strings

end

/-! ### Declarations -/

namespace Node

mutual

/-- The declarations of a tree: a class for an object, after those of its children,
    and an interface for a callable. -/
def statements (o : Options) : Node → List Statement
  | .object s children =>
    statementsAll o children ++ [.classDecl s.name (s.members o) [Keyword.declare.text]]
  | .callable name args =>
    [.interfaceDecl name
      (o.overloads (fun parameter result => .call [parameter] result) (firstStates args)) []]
  | .bare _ => []

/-- The declarations of several trees. -/
def statementsAll (o : Options) : List Node → List Statement
  | [] => []
  | node :: nodes => statements o node ++ statementsAll o nodes

end

end Node

namespace Options

variable (o : Options)

/-- The line of stars above and below the title. -/
def border (title : String) : String :=
  "/" ++ String.ofList (List.replicate (title.length + 8) '*') ++ "/"

/-- The title of a file between two lines of stars, apart from what follows. -/
def header : List Statement :=
  [.comment (border o.headerTitle) true, .comment ("/*   " ++ o.headerTitle ++ "   */") true,
    .comment (border o.headerTitle) false]

/-- The declaration of the style type. -/
def styleAlias : Statement :=
  .typeAlias o.styleType
    (.intersection [.object [.index (.mk "str" (.reference "string") false) (.reference "boolean")],
      .reference "symbol"])
    [Keyword.declare.text]

/-- The variable for the root of a tree, and its export. -/
def exported (root : String) : List Statement :=
  [.variableDecl Keyword.letWord.text o.exportName (some (.intersection [.reference root, o.style]))
      [Keyword.declare.text],
    .exportDefault o.exportName]

end Options

/-- The declaration file of a tree. -/
def Node.file (o : Options) (root : Node) : DeclFile :=
  ⟨o.header ++ o.styleAlias :: root.statements o ++ o.exported root.name⟩

/-! ### What can be declared -/

/-- The names of an emission are identifiers, its title does not end a comment, and its
    indent is blank. -/
structure Options.WellFormed (o : Options) : Prop where
  styleType : Kind.identifier.Spells o.styleType
  exportName : Kind.identifier.Spells o.exportName
  headerTitle : ¬['*', '/'] <:+: o.headerTitle.toList
  indentText : ∀ c ∈ o.indentText.toList, c.isWhitespace

namespace Node

mutual

/-- The nodes of a tree are named by identifiers, and so are the types of properties,
    up to dots. -/
def WellFormed : Node → Prop
  | .object s children =>
    Kind.identifier.Spells s.name ∧
      (∀ p ∈ s.properties.entries, ∀ type ∈ p.2, DottedName type) ∧ AllWellFormed children
  | .callable name _ => Kind.identifier.Spells name
  | .bare _ => False

/-- All of the trees are well formed. -/
def AllWellFormed : List Node → Prop
  | [] => True
  | node :: nodes => WellFormed node ∧ AllWellFormed nodes

end

mutual

/-- No list of states in a tree is empty. -/
def HasStates : Node → Prop
  | .object s children => (∀ m ∈ s.methods.entries, m.2 ≠ some []) ∧ AllHaveStates children
  | .callable _ args => firstStates args ≠ some []
  | .bare _ => True

/-- No list of states in any of the trees is empty. -/
def AllHaveStates : List Node → Prop
  | [] => True
  | node :: nodes => HasStates node ∧ AllHaveStates nodes

end

end Node

end StyleDecl
