import QuadIndex.Event
import QuadIndex.Grouping
import QuadIndex.Tree.Config

/-!
# Splitting a leaf

An overflowing leaf is split around a square: from the smaller of the median low sides of its
boxes to the larger of their median high sides. Each box goes to the quadrant of its center. If
all boxes go to one quadrant, the entries are dealt to the quadrants in turn instead, so that a
split always leaves less in each quadrant (`length_deal_lt`).
-/

namespace QuadIndex

/-- The split of a leaf: a square, and the positions of the boxes in each quadrant. -/
structure LeafCut (α : Type) where
  square : Box α
  groups : Quadrants (List Nat)
  deriving Repr, DecidableEq

variable {α : Type} [Scalar α]

/-- The middle one of the values in increasing order, the upper one of two. -/
def median (xs : List α) : α := (Scalar.sorted xs).getD (xs.length / 2) 0

/-- The square from the smaller median low side to the larger median high side. -/
def medianSquare (boxes : List (Box α)) : Box α :=
  let low := Scalar.lesser (median (boxes.map (·.minX))) (median (boxes.map (·.minY)))
  let high := Scalar.greater (median (boxes.map (·.maxX))) (median (boxes.map (·.maxY)))
  ⟨low, low, high, high⟩

namespace LeafCut

def sizes (s : LeafCut α) : Quadrants Nat := s.groups.sizes

/-- All boxes are in one quadrant. -/
def isLumped (s : LeafCut α) : Bool := s.groups.isConcentrated

/-- The split of a list of boxes around their median square. -/
def ofBoxes (boxes : List (Box α)) : LeafCut α :=
  let square := medianSquare boxes
  ⟨square, Quadrants.positionsBy square.quadrantOf boxes⟩

/-- **The split of a leaf**, whose boxes must be valid and which must have one. -/
def cutLeaf (boxes : List (Box α)) : Traced (Except (IndexError α) (LeafCut α)) :=
  if boxes.isEmpty then .silent (.error (.unusable .emptyLeaf))
  else
    match boxes.forM Box.check with
    | .error e => .silent (.error e)
    | .ok _ =>
      let cut := ofBoxes boxes
      ⟨.ok cut, [.leafCut boxes.length cut.sizes]⟩

/-- The entries of a split leaf by quadrant: by their boxes, or in turn if those all fall into
one quadrant. -/
def deal {β : Type} (s : LeafCut α) (box : β → Box α) (entries : List β) :
    Quadrants (List β) :=
  if s.isLumped then Quadrants.dealInTurn entries
  else Quadrants.groupBy (fun e => s.square.quadrantOf (box e)) entries

theorem eq_ofBoxes {boxes : List (Box α)} {s : LeafCut α}
    (h : (cutLeaf boxes).value = .ok s) : s = ofBoxes boxes := by
  unfold cutLeaf at h
  split at h
  · simp at h
  · split at h
    · simp at h
    · simpa using h.symm

theorem length_deal_le {β : Type} (s : LeafCut α) (box : β → Box α) (entries : List β)
    (q : Quadrant) : ((s.deal box entries).get q).length ≤ entries.length := by
  unfold deal
  split
  · exact Quadrants.length_dealInTurn_le entries q
  · exact Quadrants.length_groupBy_le _ entries q

/-- **A split leaves less in each quadrant** than the leaf had, if that was more than one. -/
theorem length_deal_lt {β : Type} {box : β → Box α} {entries : List β} {s : LeafCut α}
    (hs : s = ofBoxes (entries.map box)) (hn : 1 < entries.length) (q : Quadrant) :
    ((s.deal box entries).get q).length < entries.length := by
  unfold deal
  split
  · exact Quadrants.length_dealInTurn_lt hn q
  · next h =>
    subst hs
    have hlen : ∀ (f : Box α → Quadrant) (p : Quadrant),
        ((Quadrants.positionsBy (fun e => f (box e)) entries).get p).length =
          ((Quadrants.positionsBy f (entries.map box)).get p).length := by
      intro f p
      simp [Quadrants.length_positionsBy, List.filter_map, Function.comp_def]
    refine Quadrants.length_groupBy_lt_of_spread ?_ q
    rw [Quadrants.isConcentrated_congr (hlen _)]
    simpa [isLumped, ofBoxes] using h

/-- A group that overflows a leaf again is shorter than the leaf was. -/
theorem length_deal_lt_of_lt {β : Type} {box : β → Box α} {entries : List β} {s : LeafCut α}
    {capacity : Nat} {q : Quadrant} (hs : s = ofBoxes (entries.map box)) (hc : 0 < capacity)
    (hq : capacity < ((s.deal box entries).get q).length) :
    ((s.deal box entries).get q).length < entries.length :=
  length_deal_lt hs (by have := length_deal_le s box entries q; omega) q

end LeafCut
end QuadIndex
