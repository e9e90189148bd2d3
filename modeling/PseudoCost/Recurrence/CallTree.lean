import PseudoCost.Recurrence

/-!
# Recursion trees

A relation expanded into a tree of calls, to be looked at. The root is a call on size `n`, and a
call on some size has one child for each call its terms make, on the size those terms leave. Sizes
are symbolic: divisors multiply, what is taken off adds up, and a split is shown as about half.

The tree is expanded level by level, until the depth asked for is reached, until no node goes on
(with a nominal size, a node that has come down to one), or until the next level would take the
whole tree over the node cap. The tree itself is grown to the number of levels so found.
-/

namespace PseudoCost.Recurrence

variable {R : Type} [Scalar R]

/-! ## Symbolic sizes -/

/-- The size `n / divisor - minus`, which is approximate below a split. -/
structure SymbolicSize (R : Type) where
  divisor : R
  minus : R
  approximate : Bool
deriving Repr, DecidableEq

namespace SymbolicSize

/-- The size of the whole input. -/
def whole : SymbolicSize R := ⟨Scalar.one, Scalar.zero, false⟩

/-- The size after a change. -/
def after (s : SymbolicSize R) (c : SizeChange R) : SymbolicSize R :=
  match c.kind with
  | .subtract => { s with minus := s.minus + c.amount }
  | .divide => { s with divisor := s.divisor * c.amount, minus := s.minus / c.amount }
  | .split => ⟨s.divisor * Scalar.two, s.minus / Scalar.two, true⟩
  | .same | .unknown => s

/-- The size in a label. -/
def label (s : SymbolicSize R) : Text :=
  (if s.approximate then "~n" else "n" : Text)
    ++ (if Scalar.one + Scalar.epsilon < s.divisor then "/" ++ Scalar.text s.divisor else [])
    ++ (if Scalar.epsilon < s.minus then "-" ++ Scalar.text s.minus else [])

/-- The size when the input has the given size. -/
def value (s : SymbolicSize R) (n : R) : R := n / s.divisor - s.minus

/-- The label of a call on the size. -/
def callLabel (s : SymbolicSize R) : Text := "T(" ++ s.label ++ ")"

/-- A growth with every letter `n` of its text replaced by the size. -/
def costText (f : Growth R) (s : SymbolicSize R) : Text :=
  if f.isConstant then "1"
  else
    let arg : Text := if s.label = "n" then s.label else "(" ++ s.label ++ ")"
    f.text.flatMap fun b => if b = Text.byte 'n' then arg else [b]

end SymbolicSize

/-- The sizes on which a call of some size calls. -/
def childSizes (terms : List (Term R)) (s : SymbolicSize R) : List (SymbolicSize R) :=
  terms.flatMap fun t => List.replicate t.multiplicity.toNat (s.after t.change)

/-! ## Nodes and levels -/

/-- A node of a recursion tree. -/
inductive TreeNode where
  | node (label cost : Text) (children : List TreeNode)

mutual

/-- The number of nodes of a tree. -/
def TreeNode.size : TreeNode → Nat
  | .node _ _ children => 1 + TreeNode.sizes children

/-- The number of nodes of some trees. -/
def TreeNode.sizes : List TreeNode → Nat
  | [] => 0
  | n :: ns => n.size + TreeNode.sizes ns

end

/-- What a level of a recursion tree holds. -/
structure TreeLevel (R : Type) where
  depth : Nat
  nodeCount : Nat
  /-- The distinct labels of the level, in the order in which they are met. -/
  labels : List Text
  nodeCost : Text
  levelCost : Text
  value : R
deriving Repr, DecidableEq

/-- How a tree is to be expanded: the relation, the nominal size if there is one, and how many
levels are wanted. -/
structure TreePlan (R : Type) where
  relation : Relation R
  nominal? : Option R := none
  maxDepth : Int := 6

namespace TreePlan

variable (plan : TreePlan R)

/-- The size at which levels are valued. -/
def nominal : R := plan.nominal?.getD (Scalar.ofNat 1024)

/-- Whether a call on a size makes calls. -/
def goesOn (s : SymbolicSize R) : Bool :=
  plan.nominal?.all fun n => !(s.value n ≤ Scalar.one : Bool)

/-- The largest number of nodes a tree may have. -/
def nodeCap : Nat := 1024

/-- The costs of the calls on some sizes, as texts. -/
def costTexts (sizes : List (SymbolicSize R)) : List Text :=
  sizes.map (SymbolicSize.costText plan.relation.localCost)

/-- The level made of calls on some sizes, of which the first has the given cost. -/
def levelWith (nodeCost : Text) (depth : Nat) (sizes : List (SymbolicSize R)) : TreeLevel R :=
  let f := plan.relation.localCost
  let labels := (sizes.map SymbolicSize.callLabel).eraseDups
  { depth := depth
    nodeCount := sizes.length
    labels := labels
    nodeCost := nodeCost
    levelCost :=
      if labels.length = 1 then
        if sizes.length = 1 then nodeCost else Text.ofNat sizes.length ++ "·" ++ nodeCost
      else Text.join " + " (plan.costTexts sizes)
    value := sizes.foldl (fun sum s =>
      sum + f.evaluate (Scalar.max (s.value plan.nominal) Scalar.one)) Scalar.zero }

/-- The level made of calls on some sizes. -/
def level (depth : Nat) (sizes : List (SymbolicSize R)) : TreeLevel R :=
  plan.levelWith ((plan.costTexts sizes).headD []) depth sizes

/-- The calls on the next level that the calls on some sizes make, by number. -/
def childCount (sizes : List (SymbolicSize R)) : Nat :=
  (sizes.filter plan.goesOn).length * (totalCalls plan.relation.terms).toNat

/-- The sizes on the next level. -/
def nextSizes (sizes : List (SymbolicSize R)) : List (SymbolicSize R) :=
  (sizes.filter plan.goesOn).flatMap (childSizes plan.relation.terms)

/-- The levels from a depth on, at most `further` below it, with `room` for that many more nodes,
and whether the lack of room ended them. -/
def levelsFrom : Nat → Nat → Nat → List (SymbolicSize R) → List (TreeLevel R) × Bool
  | 0, _, depth, sizes => ([plan.level depth sizes], false)
  | further + 1, room, depth, sizes =>
    let count := plan.childCount sizes
    if count = 0 then ([plan.level depth sizes], false)
    else if room < count then ([plan.level depth sizes], true)
    else
      let (below, truncated) := levelsFrom further (room - count) (depth + 1) (plan.nextSizes sizes)
      (plan.level depth sizes :: below, truncated)

/-- The levels of the tree, and whether the node cap ended them. -/
def levels : List (TreeLevel R) × Bool :=
  plan.levelsFrom (plan.maxDepth.toNat - 1) (nodeCap - 1) 0 [SymbolicSize.whole]

/-- The call on a size, with the calls it makes down to some levels below it. -/
def grow : Nat → SymbolicSize R → TreeNode
  | 0, s => .node s.callLabel (s.costText plan.relation.localCost) []
  | below + 1, s =>
    .node s.callLabel (s.costText plan.relation.localCost)
      (if plan.goesOn s then (childSizes plan.relation.terms s).map (grow below) else [])

end TreePlan

/-! ## Profiles -/

/-- A tree in a few words: the number of calls, how sizes shrink, its height and its shape. -/
structure TreeProfile where
  calls : Int
  divisor : Text
  height : Text
  shape : Text
deriving Repr, DecidableEq

/-- The smallest amount of some terms. -/
def smallestAmount : List (Term R) → R
  | [] => Scalar.one
  | t :: ts => ts.foldl (fun k u => Scalar.min k u.change.amount) t.change.amount

/-- How sizes shrink along a branch, and the height that follows. -/
def shrinkTexts (terms : List (Term R)) : Text × Text :=
  if allOf .divide terms then
    let b : Text := ((terms.map fun t => Scalar.text t.change.amount).head?).getD []
    (b, "log_" ++ b ++ " n")
  else if allOf .split terms then ("2 (split point assumed balanced)", "between log_2 n and n")
  else if allOf .subtract terms then
    let k := smallestAmount terms
    ("-" ++ Scalar.text k, if Scalar.near k Scalar.one then "n" else "n/" ++ Scalar.text k)
  else ("mixed", "unknown")

/-- Whether all branches of a tree are equally long. -/
def isBalanced (terms : List (Term R)) : Bool :=
  allOf .divide terms || allOf .split terms || (terms.length == 1 && allOf .subtract terms)

/-- The profile of the tree of some terms. -/
def profile (terms : List (Term R)) : TreeProfile :=
  let calls := totalCalls terms
  let (divisor, height) := shrinkTexts terms
  let shape : Text :=
    if calls ≤ 1 then "chain"
    else (if isBalanced terms then "balanced " else "unbalanced " : Text) ++ Text.ofInt calls
      ++ "-ary"
  ⟨calls, divisor, height, shape⟩

/-! ## Trees -/

/-- A recursion tree with its levels. -/
structure CallTree (R : Type) where
  root : TreeNode
  levels : List (TreeLevel R)
  total : Text
  /-- Whether the node cap ended the expansion. -/
  truncated : Bool
  profile : TreeProfile

/-- The total of some levels in a report. -/
def totalText (nominal : R) (levels : List (TreeLevel R)) : Text :=
  let sum := levels.foldl (fun sum l => sum + l.value) Scalar.zero
  Scalar.text (Scalar.round sum) ++ " for n = " ++ Scalar.text nominal ++ " over "
    ++ Text.ofNat levels.length ++ " levels"

/-- The tree of a plan. -/
def TreePlan.tree (plan : TreePlan R) : CallTree R :=
  let (levels, truncated) := plan.levels
  { root := plan.grow (levels.length - 1) SymbolicSize.whole
    levels := levels
    total := totalText plan.nominal levels
    truncated := truncated
    profile := Recurrence.profile plan.relation.terms }

end PseudoCost.Recurrence
