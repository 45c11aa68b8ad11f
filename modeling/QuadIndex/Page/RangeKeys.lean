import QuadIndex.Page.KeyOps

/-!
# Ranges as keys

The summary of some ranges is the range that covers them, and a range costs the length that the
summary has to gain. The ranges are ordered by their midpoints and cut into quartiles, where
ranges of one midpoint stay together.
-/

namespace QuadIndex

/-- The quadrant after another, and the last one after itself. -/
def Quadrant.next : Quadrant → Quadrant
  | northWest => northEast
  | northEast => southWest
  | southWest => southEast
  | southEast => southEast

variable {α : Type} [Scalar α]

/-- The least range that covers all of a list. -/
def Interval.hull? : List (Interval α) → Option (Interval α)
  | [] => none
  | i :: is => some (is.foldl Interval.join i)

/-- The quadrants of members in the order of their midpoints, from position `i` of `n` on. A
member goes to the next quadrant if it stands at the end of the present quartile or beyond, and
its midpoint is not that of the member before it. -/
def dealByMidpoint (n : Nat) :
    (i : Nat) → Quadrant → (last : Option α) → List (α × Nat) → List (Quadrant × Nat)
  | _, _, _, [] => []
  | i, q, last, (mid, number) :: rest =>
    let isTied := last.any (· == mid)
    let q := if (q.code + 1) * n / 4 ≤ i && !isTied then q.next else q
    (q, number) :: dealByMidpoint n (i + 1) q (some mid) rest

/-- The ranges, numbered from one, in groups of rising midpoints. -/
def rangeGroups (ranges : List (Interval α)) : Quadrants (List Nat) :=
  let numbered := ranges.zipIdx.map fun r => (r.1.midpoint, r.2 + 1)
  let ordered := numbered.mergeSort fun a b => (Scalar.totalOrder a.1 b.1).isLE
  let dealt := dealByMidpoint ranges.length 0 .northWest none ordered
  .ofFn fun q => ((dealt.filter fun d => d.1 = q).map (·.2)).mergeSort fun i j => i ≤ j

/-- The cost of a range under a summary: the length gained, if that is positive. -/
def rangeCost (summary r : Interval α) : α :=
  Scalar.greater ((summary.join r).length - summary.length) 0

/-- **The operations on ranges** as keys. -/
def rangeKeys (columns : Nat) : KeyOps α (Interval α) where
  columns := columns
  hull _ := Interval.hull?
  cost _ := rangeCost
  propose _ _ ranges _ :=
    let groups := rangeGroups ranges
    ⟨groups, groups.map fun g => Interval.hull? (keysAt ranges g), false⟩
  same _ a b := a == b
  check _ r := r.check

end QuadIndex
