import QuadIndex.Query.Condition

/-!
# Satisfaction

What the strategies mean, at three distances from the argument of a condition.

* `Strategy.mayHold`: some box in a range may satisfy the strategy. A search may drop a node
  if this fails, so it must never fail of a range that holds a match.
* `Strategy.holds`: a box satisfies the strategy against the bounding box of the argument.
* `Condition.isMet`: a box satisfies the strategy against the argument itself.
-/

namespace QuadIndex

variable {α : Type} [Scalar α]

namespace Bounds

/-- Some interval in the bounds may share a value with `q`. -/
def mayMeet (b : Bounds α) (q : Interval α) : Bool := q.low ≤ b.high.high && b.low.low ≤ q.high

/-- Some interval in the bounds may cover `q`. -/
def mayCover (b : Bounds α) (q : Interval α) : Bool := q.high ≤ b.high.high && b.low.low ≤ q.low

/-- Some interval in the bounds may lie in `q`. -/
def mayLieIn (b : Bounds α) (q : Interval α) : Bool := b.low.meets q && b.high.meets q

/-- Some interval in the bounds may end before `q` starts. -/
def mayEndBefore (b : Bounds α) (q : Interval α) : Bool := b.low.low < q.low && b.high.low < q.low

/-- Some interval in the bounds may end no later than `q` ends. -/
def mayEndBy (b : Bounds α) (q : Interval α) : Bool := b.low.low ≤ q.high && b.high.low ≤ q.high

/-- Some interval in the bounds may start after `q` ends. -/
def mayStartAfter (b : Bounds α) (q : Interval α) : Bool :=
  q.high < b.low.high && q.high < b.high.high

/-- Some interval in the bounds may start no sooner than `q` starts. -/
def mayStartFrom (b : Bounds α) (q : Interval α) : Bool :=
  q.low ≤ b.low.high && q.low ≤ b.high.high

end Bounds

namespace Strategy

/-- **Some box in the range may satisfy the strategy** against the query box. -/
def mayHold (s : Strategy) (r : BoxRange α) (query : Box α) : Bool :=
  match s with
  | overlap => r.x.mayMeet query.xRange && r.y.mayMeet query.yRange
  | contains => r.x.mayCover query.xRange && r.y.mayCover query.yRange
  | containedBy | same => r.x.mayLieIn query.xRange && r.y.mayLieIn query.yRange
  | left => r.x.mayEndBefore query.xRange
  | overLeft => r.x.mayEndBy query.xRange
  | right => r.x.mayStartAfter query.xRange
  | overRight => r.x.mayStartFrom query.xRange
  | below => r.y.mayEndBefore query.yRange
  | overBelow => r.y.mayEndBy query.yRange
  | above => r.y.mayStartAfter query.yRange
  | overAbove => r.y.mayStartFrom query.yRange

/-- **The stored box satisfies the strategy** against the query box. -/
def holds (s : Strategy) (stored query : Box α) : Bool :=
  match s with
  | left => stored.maxX < query.minX
  | overLeft => stored.maxX ≤ query.maxX
  | overlap => stored.meets query
  | overRight => query.minX ≤ stored.minX
  | right => query.maxX < stored.minX
  | same => stored == query
  | contains => stored.covers query
  | containedBy => query.covers stored
  | overBelow => stored.maxY ≤ query.maxY
  | below => stored.maxY < query.minY
  | above => query.maxY < stored.minY
  | overAbove => query.minY ≤ stored.minY

end Strategy

namespace Condition

/-- **The stored box satisfies the condition** with the shape of its argument. A directional
strategy is settled by the bounding box. -/
def isMet (c : Condition α) (stored : Box α) : Bool :=
  match c.strategy with
  | .overlap => c.argument.meets stored
  | .contains => c.argument.liesIn stored
  | .containedBy => c.argument.covers stored
  | .same => c.argument.covers stored && c.argument.liesIn stored
  | s =>
    match c.argument.boundingBox with
    | .ok query => s.holds stored query
    | .error _ => false

/-- `isMet`, where that is defined. -/
def isMet? (c : Condition α) (stored : Box α) : Option Bool :=
  match c.strategy with
  | .overlap => c.argument.meets? stored
  | _ => some (c.isMet stored)

end Condition
end QuadIndex
