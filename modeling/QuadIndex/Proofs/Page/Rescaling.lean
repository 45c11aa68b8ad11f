import QuadIndex.Page.BoxKeys
import QuadIndex.Page.RangeKeys
import QuadIndex.Proofs.Exact.Rescaling
import QuadIndex.Proofs.Success

/-!
# Pages on another scale

The numbers of a column can be rescaled, for boxes on either axis on its own. Sides, midpoints and
hulls of keys are rescaled along, lengths and areas change their scale, and all comparisons stay.
So operations on boxes and on ranges respect rescalings, and a page is split as before.

* `Box.rescale`, `Interval.rescale`: rescaled keys.
* `boxGroups_map_rescale`, `rangeGroups_map_rescale`: the suggested groups.
* `boxKeys_respects`, `rangeKeys_respects`: the operations on the keys.
* `splitPage_rescale`: the split of a page.
-/

namespace QuadIndex

open Exact Scalar

/-! ## Ranges -/

namespace Interval

/-- The range with rescaled ends. -/
noncomputable def rescale (r : Rescaling) (i : Interval Exact) : Interval Exact :=
  ⟨r.apply i.low, r.apply i.high⟩

variable (r : Rescaling) (i j : Interval Exact)

theorem isValid_rescale : (i.rescale r).isValid = i.isValid :=
  decide_eq_decide.2 r.keepsOrder.le_iff

theorem beq_rescale : (i.rescale r == j.rescale r) = (i == j) :=
  congrArg₂ and r.keepsOrder.beq_eq r.keepsOrder.beq_eq

theorem join_rescale : (i.rescale r).join (j.rescale r) = (i.join j).rescale r := by
  simp only [join, rescale, r.keepsOrder.map_lesser, r.keepsOrder.map_greater]

theorem hull?_map_rescale (is : List (Interval Exact)) :
    hull? (is.map (rescale r)) = (hull? is).map (rescale r) := by
  cases is with
  | nil => rfl
  | cons i is =>
    simp only [List.map_cons, hull?, Option.map_some, List.foldl_map]
    exact congrArg some (List.foldl_hom (rescale r) fun i j => join_rescale r i j)

theorem length_rescale : (i.rescale r).length = real r.factor * i.length :=
  r.apply_sub_apply i.high i.low

theorem midpoint_rescale : (i.rescale r).midpoint = r.apply i.midpoint := r.middle i.low i.high

end Interval

theorem rangeCost_rescale (r : Rescaling) (i j : Interval Exact) :
    rangeCost (i.rescale r) (j.rescale r) = real r.factor * rangeCost i j := by
  rw [rangeCost, rangeCost, Interval.join_rescale, Interval.length_rescale,
    Interval.length_rescale, ← real_mul_sub r.pos, real_mul_greater_zero r.pos]

/-- Members are dealt by how their midpoints compare. -/
theorem dealByMidpoint_map {f : Exact → Exact} (h : KeepsOrder f) (n i : Nat) (q : Quadrant)
    (last : Option Exact) (members : List (Exact × Nat)) :
    dealByMidpoint n i q (last.map f) (members.map (Prod.map f id)) =
      dealByMidpoint n i q last members := by
  induction members generalizing i q last with
  | nil => rfl
  | cons member members ih =>
    have htied : (last.map f).any (· == f member.1) = last.any (· == member.1) := by
      simp only [Option.any_map, h.beq_eq]
    simp only [List.map_cons, Prod.map, dealByMidpoint, htied, id]
    rw [← ih _ _ (some member.1)]
    rfl

theorem rangeGroups_map_rescale (r : Rescaling) (ranges : List (Interval Exact)) :
    rangeGroups (ranges.map (Interval.rescale r)) = rangeGroups ranges := by
  have hnumbered : (ranges.map (Interval.rescale r)).zipIdx.map
      (fun k => (k.1.midpoint, k.2 + 1)) =
        (ranges.zipIdx.map fun k => (k.1.midpoint, k.2 + 1)).map (Prod.map r.apply id) := by
    rw [List.zipIdx_map, List.map_map, List.map_map]
    exact List.map_congr_left fun k _ => congrArg (·, k.2 + 1) (k.1.midpoint_rescale r)
  have hordered := List.map_mergeSort (f := Prod.map r.apply id)
    (l := ranges.zipIdx.map fun k => (k.1.midpoint, k.2 + 1))
    (r := fun a b => (totalOrder a.1 b.1).isLE) (s := fun a b => (totalOrder a.1 b.1).isLE)
    fun a _ b _ => (r.keepsOrder.rank_eq (x := a.1) (y := b.1)).symm
  have hdealt : ∀ members, dealByMidpoint ranges.length 0 .northWest none
      (members.map (Prod.map r.apply id)) =
        dealByMidpoint ranges.length 0 .northWest none members :=
    dealByMidpoint_map r.keepsOrder ranges.length 0 .northWest none
  simp only [rangeGroups, List.length_map, hnumbered, ← hordered, hdealt]

/-- **Operations on ranges respect rescalings** of the columns. -/
theorem rangeKeys_respects (columns : Nat) (r : Nat → Rescaling) :
    (rangeKeys columns).Respects fun column => Interval.rescale (r column) where
  hull column keys := Interval.hull?_map_rescale (r column) keys
  cost column := ⟨_, keepsCosts_mul (r column).pos, rangeCost_rescale (r column)⟩
  propose asked column keys prior := by
    simp only [rangeKeys, Proposal.mapKeys, rangeGroups_map_rescale,
      hulls_map (Interval.hull?_map_rescale (r column))]
  same column a b := Interval.beq_rescale (r column) a b
  check column key hkey := by
    rw [rangeKeys, Interval.check_eq_ok_iff] at hkey ⊢
    rwa [Interval.isValid_rescale]

/-! ## Boxes -/

namespace Box

/-- The box with its sides rescaled, on either axis on its own. -/
noncomputable def rescale (rx ry : Rescaling) (b : Box Exact) : Box Exact :=
  ⟨rx.apply b.minX, ry.apply b.minY, rx.apply b.maxX, ry.apply b.maxY⟩

variable (rx ry : Rescaling) (b c : Box Exact)

theorem isValid_rescale : (b.rescale rx ry).isValid = b.isValid :=
  congrArg₂ and (decide_eq_decide.2 rx.keepsOrder.le_iff)
    (decide_eq_decide.2 ry.keepsOrder.le_iff)

theorem beq_rescale : (b.rescale rx ry == c.rescale rx ry) = (b == c) :=
  congrArg₂ and rx.keepsOrder.beq_eq (congrArg₂ and ry.keepsOrder.beq_eq
    (congrArg₂ and rx.keepsOrder.beq_eq ry.keepsOrder.beq_eq))

theorem join_rescale :
    (b.rescale rx ry).join (c.rescale rx ry) = (b.join c).rescale rx ry := by
  simp only [join, rescale, rx.keepsOrder.map_lesser, ry.keepsOrder.map_lesser,
    rx.keepsOrder.map_greater, ry.keepsOrder.map_greater]

theorem hull?_map_rescale (bs : List (Box Exact)) :
    hull? (bs.map (rescale rx ry)) = (hull? bs).map (rescale rx ry) := by
  cases bs with
  | nil => rfl
  | cons b bs =>
    simp only [List.map_cons, hull?, Option.map_some, List.foldl_map]
    exact congrArg some (List.foldl_hom (rescale rx ry) fun b c => join_rescale rx ry b c)

theorem area_rescale : (b.rescale rx ry).area = real (rx.factor * ry.factor) * b.area := by
  rw [area, area, width, height, width, height, ← real_mul_mul_real_mul rx.pos ry.pos]
  exact congrArg₂ (· * ·) (rx.apply_sub_apply _ _) (ry.apply_sub_apply _ _)

theorem center_rescale :
    (b.rescale rx ry).center = ⟨rx.apply b.center.x, ry.apply b.center.y⟩ :=
  congrArg₂ Point.mk (rx.middle b.minX b.maxX) (ry.middle b.minY b.maxY)

end Box

/-- A rescaled point is in the same quadrant of the rescaled center. -/
theorem Quadrant.around_rescale (rx ry : Rescaling) (center p : Point Exact) :
    Quadrant.around ⟨rx.apply center.x, ry.apply center.y⟩ ⟨rx.apply p.x, ry.apply p.y⟩ =
      Quadrant.around center p := by
  simp only [Quadrant.around, rx.keepsOrder.le_iff, ry.keepsOrder.lt_iff]

theorem boxCost_rescale (rx ry : Rescaling) (b c : Box Exact) :
    boxCost (b.rescale rx ry) (c.rescale rx ry) =
      real (rx.factor * ry.factor) * boxCost b c := by
  have hpos := mul_pos rx.pos ry.pos
  rw [boxCost, boxCost, Box.growth, Box.growth, Box.join_rescale, Box.area_rescale,
    Box.area_rescale, ← real_mul_sub hpos, real_mul_greater_zero hpos]

theorem Quadrants.positionsBy_map {β γ : Type} (f : γ → Quadrant) (g : β → γ) (xs : List β) :
    positionsBy f (xs.map g) = positionsBy (f ∘ g) xs := by
  ext q : 1
  simp only [positionsBy, get_map, get_groupBy, List.zipIdx_map, List.filter_map, List.map_map]
  rfl

/-- Boxes stay in their quadrants of the median center. -/
theorem boxGroups_map_rescale (rx ry : Rescaling) (boxes : List (Box Exact)) :
    boxGroups (boxes.map (Box.rescale rx ry)) = boxGroups boxes := by
  -- the centers on either axis are sorted as before
  have hsorted : ∀ (r : Rescaling) (side : Box Exact → Exact),
      (∀ b, side (b.rescale rx ry) = r.apply (side b)) →
      sorted ((boxes.map (Box.rescale rx ry)).map side) =
        (sorted (boxes.map side)).map r.apply := by
    intro r side hside
    rw [← r.keepsOrder.sorted_map, List.map_map, List.map_map]
    exact congrArg sorted (List.map_congr_left fun b _ => hside b)
  have hxs := hsorted rx (fun b => b.center.x) fun b => congrArg Point.x (b.center_rescale rx ry)
  have hys := hsorted ry (fun b => b.center.y) fun b => congrArg Point.y (b.center_rescale rx ry)
  have haround : ∀ (x y : Exact) (b : Box Exact),
      Quadrant.around ⟨rx.apply x, ry.apply y⟩ (b.rescale rx ry).center =
        Quadrant.around ⟨x, y⟩ b.center := by
    intro x y b
    rw [Box.center_rescale]
    exact Quadrant.around_rescale rx ry ⟨x, y⟩ b.center
  simp only [boxGroups, hxs, hys, List.length_map, List.getElem?_map]
  cases (sorted (boxes.map fun b => b.center.x))[boxes.length / 2]? with
  | none => rfl
  | some x =>
    cases (sorted (boxes.map fun b => b.center.y))[boxes.length / 2]? with
    | none => rfl
    | some y => simp only [Option.map_some, Quadrants.positionsBy_map, Function.comp_def, haround]

/-- **Operations on boxes respect rescalings** of the axes of the columns. -/
theorem boxKeys_respects (columns : Nat) (rx ry : Nat → Rescaling) :
    (boxKeys columns).Respects fun column => Box.rescale (rx column) (ry column) where
  hull column keys := Box.hull?_map_rescale (rx column) (ry column) keys
  cost column := ⟨_, keepsCosts_mul (mul_pos (rx column).pos (ry column).pos),
    boxCost_rescale (rx column) (ry column)⟩
  propose asked column keys prior := by
    simp only [boxKeys, Proposal.mapKeys, boxGroups_map_rescale,
      hulls_map (Box.hull?_map_rescale (rx column) (ry column))]
  same column a b := Box.beq_rescale (rx column) (ry column) a b
  check column key hkey := by
    rw [boxKeys, Box.check_eq_ok_iff] at hkey ⊢
    rwa [Box.isValid_rescale]

/-! ## The page -/

/-- **A split does not depend on the scale of the keys**: if the numbers of each column are
rescaled, for boxes on either axis on its own, then the groups and the events stay the same, and the
summaries are rescaled. -/
theorem splitPage_rescale (columns : Nat) (config : PageConfig) :
    (∀ (rx ry : Nat → Rescaling) (rows : List (Row (Box Exact)))
      (o : Outcome (Box Exact) (SplitPage (Box Exact))),
      splitPage (boxKeys columns) config rows = .ok o →
      ∃ o', splitPage (boxKeys columns) config
          (rows.map (Row.mapKeys fun column => Box.rescale (rx column) (ry column))) = .ok o' ∧
        o.MovesTo (fun column => Box.rescale (rx column) (ry column)) o') ∧
    (∀ (r : Nat → Rescaling) (rows : List (Row (Interval Exact)))
      (o : Outcome (Interval Exact) (SplitPage (Interval Exact))),
      splitPage (rangeKeys columns) config rows = .ok o →
      ∃ o', splitPage (rangeKeys columns) config
          (rows.map (Row.mapKeys fun column => Interval.rescale (r column))) = .ok o' ∧
        o.MovesTo (fun column => Interval.rescale (r column)) o') :=
  ⟨fun rx ry _ _ => splitPage_map (boxKeys_respects columns rx ry),
    fun r _ _ => splitPage_map (rangeKeys_respects columns r)⟩

noncomputable section

/-- A strip without an end, and the unit square, which has a second key. -/
def stripPage : List (Row (Box Exact)) :=
  [[some ⟨real 0, real 0, posInf, real 1⟩, none],
    [some ⟨real 0, real 0, real 1, real 1⟩, some ⟨real 0, real 1, real 0, real 1⟩]]

/-- A range without an end, and a short one. -/
def rayPage : List (Row (Interval Exact)) :=
  [[some ⟨real 0, posInf⟩], [some ⟨real (-1), real 1⟩]]

/-- Degrees Celsius as degrees Fahrenheit. -/
def fahrenheit : Rescaling := ⟨9 / 5, 32, by norm_num⟩

/-- Each column in a smaller unit than the one before it. -/
def finerUnits (column : Nat) : Rescaling := ⟨10 ^ column, 0, by positivity⟩

end

theorem splitPage_rescale_infinite :
    (∃ o o', splitPage (boxKeys 2) {} stripPage = .ok o ∧
      splitPage (boxKeys 2) {} (stripPage.map
        (Row.mapKeys fun column => Box.rescale (finerUnits column) fahrenheit)) = .ok o' ∧
      o.MovesTo (fun column => Box.rescale (finerUnits column) fahrenheit) o') ∧
    ∃ o o', splitPage (rangeKeys 1) {} rayPage = .ok o ∧
      splitPage (rangeKeys 1) {} (rayPage.map
        (Row.mapKeys fun _ => Interval.rescale fahrenheit)) = .ok o' ∧
      o.MovesTo (fun _ => Interval.rescale fahrenheit) o' := by
  have hboxes : ∃ o, splitPage (boxKeys 2) {} stripPage = .ok o := by
    refine ⟨_, (splitPage_eq_ok_iff _).2 ⟨⟨by decide, by simp [stripPage], ?_⟩, rfl⟩⟩
    simp only [checkRows, forM_eq_ok_iff]
    simp [stripPage, boxKeys, List.range_succ, Row.key?, Box.check, Box.isValid]
  have hranges : ∃ o, splitPage (rangeKeys 1) {} rayPage = .ok o := by
    refine ⟨_, (splitPage_eq_ok_iff _).2 ⟨⟨by decide, by simp [rayPage], ?_⟩, rfl⟩⟩
    simp only [checkRows, forM_eq_ok_iff]
    simp [rayPage, rangeKeys, List.range_succ, Row.key?, Interval.check, Interval.isValid]
  obtain ⟨o₁, h₁⟩ := hboxes
  obtain ⟨o₂, h₂⟩ := hranges
  obtain ⟨o₁', h₁', hmoves₁⟩ :=
    (splitPage_rescale 2 {}).1 finerUnits (fun _ => fahrenheit) stripPage o₁ h₁
  obtain ⟨o₂', h₂', hmoves₂⟩ := (splitPage_rescale 1 {}).2 (fun _ => fahrenheit) rayPage o₂ h₂
  exact ⟨⟨o₁, o₁', h₁, h₁', hmoves₁⟩, o₂, o₂', h₂, h₂', hmoves₂⟩

end QuadIndex
