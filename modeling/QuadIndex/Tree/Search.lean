import QuadIndex.Tree.Visit
import QuadIndex.Tree.Node

/-!
# Search

A search enters those children of each inner node that may hold a match, and keeps the entries
of the leaves whose boxes match, after the recheck that a match on a bounding box asks for.

* `Entry.answers`: whether an entry belongs to the answer.
* `Node.search`: the entries that do, in the order of the leaves.
-/

namespace QuadIndex

variable {α ν : Type} [Scalar α]

/-- **The entry belongs to the answer of a query.** -/
def Entry.answers (e : Entry α ν) (query : List (Condition α)) : Except (IndexError α) Bool :=
  (testBox e.box query).map fun m =>
    m.isMatch && (!m.needsRecheck || query.all fun c => c.isMet e.box)

/-- The entries that belong to the answer, unless a test fails. -/
def answersOf (query : List (Condition α)) :
    List (Entry α ν) → Except (IndexError α) (List (Entry α ν))
  | [] => .ok []
  | e :: es => do
    let kept ← e.answers query
    let rest ← answersOf query es
    return if kept then e :: rest else rest

/-- **The entries below a node that answer a query.** -/
def Node.search (query : List (Condition α)) :
    Node α ν → (range : Option (BoxRange α)) → Except (IndexError α) (List (Entry α ν))
  | .absent, _ => .ok []
  | .leaf es, _ => answersOf query es
  | .inner cell _ dealt children, range => do
    let visits ← childrenToVisit range cell dealt query
    let parts ← visits.mapM fun v => (children v.1).search query (some v.2)
    return parts.flatten

end QuadIndex
