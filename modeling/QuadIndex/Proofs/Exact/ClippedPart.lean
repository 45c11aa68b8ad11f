import QuadIndex.Proofs.Exact.Clip

/-!
# The part of a segment in a box

Clipping gives up a segment, or returns a range of parameters. In exact arithmetic, it gives up just
the segments without a point in the box, and the parameters in a returned range are just those of the
points in the box. A cut divides by its slope only if that is not zero, so it is of no account what a
division by zero would yield.

* `Segment.clip?_dividing`: clipping does not depend on divisions by zero.
* `Segment.paramsIn_eq_Icc`: the range that is returned.
* `Segment.clipsExactly_of_isFinite`: what clipping finds out about a segment and a box.
-/

namespace QuadIndex

open Exact

/-! ## Divisions by zero -/

/-- Exact numbers, except that a division by zero yields what `f` makes of the dividend. -/
@[reducible] noncomputable def Exact.dividing (f : Exact → Exact) : Scalar Exact :=
  { (inferInstance : Scalar Exact) with div := fun x y => if y == 0 then f x else x / y }

namespace Segment

variable {f : Exact → Exact} {s : Segment Exact} {box : Box Exact}

/-- Clipping with other divisions by zero. -/
noncomputable def clipDividing (f : Exact → Exact) (s : Segment Exact) (box : Box Exact) :
    Option (Exact × Exact) :=
  @clip? Exact (Exact.dividing f) s box

/-- The test of the inside with other divisions by zero. -/
noncomputable def entersDividing (f : Exact → Exact) (s : Segment Exact) (box : Box Exact) : Bool :=
  @entersInside Exact (Exact.dividing f) s box

/-- **A cut does not divide by zero**: a slope of zero is a case of its own. -/
theorem cut_dividing : @cut Exact (Exact.dividing f) = cut := by
  funext p q range
  unfold cut
  by_cases hzero : (p == 0) = true
  · exact (if_pos hzero).trans (if_pos hzero).symm
  · -- past the test of the slope, the two cuts differ in their quotients alone
    have hquotient : (if p == 0 then f q else q / p) = q / p := if_neg hzero
    refine (if_neg hzero).trans (Eq.trans ?_ (if_neg hzero).symm)
    change (let kept := if p < 0 then
        (Scalar.greater range.1 (if p == 0 then f q else q / p), range.2)
      else (range.1, Scalar.lesser range.2 (if p == 0 then f q else q / p))
      if kept.2 < kept.1 then none else some kept) = _
    rw [hquotient]

/-- **Clipping does not depend on divisions by zero.** -/
theorem clip?_dividing : clipDividing f s box = s.clip? box := by
  unfold clipDividing clip?
  rw [cut_dividing]

theorem entersInside_dividing : entersDividing f s box = s.entersInside box := by
  have hclip : @clip? Exact (Exact.dividing f) s box = s.clip? box := clip?_dividing
  unfold entersDividing entersInside
  rw [hclip]
  rfl

/-! ## The part that is left -/

/-- The parameters of the points of a segment that are in a box. -/
def paramsIn (s : Segment Exact) (box : Box Exact) : Set ℝ :=
  {t | (0 ≤ t ∧ t ≤ 1) ∧ box.hasPoint (s.pointAt (real t)) = true}

theorem keeps_real_iff {t u w : ℝ} : Keeps (real t, real u) w ↔ w ∈ Set.Icc t u := by
  rw [Keeps, real_le_real, real_le_real, Set.mem_Icc]

/-- **A range that is returned** is that of the parameters of the points in the box. -/
theorem paramsIn_eq_Icc (hs : s.IsFinite) (hbox : box.isValid = true) {first last : Exact}
    (hclip : s.clip? box = some (first, last)) :
    ∃ t u : ℝ, first = real t ∧ last = real u ∧ t ≤ u ∧ s.paramsIn box = Set.Icc t u := by
  have hleaves := clip?_leaves hs hbox
  obtain ⟨t, u, hrange, -, htu, -⟩ := (hleaves.isPart _ hclip).exists_real
  obtain ⟨rfl, rfl⟩ := Prod.mk.inj hrange
  refine ⟨t, u, rfl, rfl, htu, Set.ext fun w => ?_⟩
  have hkept : (∃ range ∈ s.clip? box, Keeps range w) ↔ w ∈ Set.Icc t u := by
    simp only [hclip, Option.mem_def, Option.some.injEq, exists_eq_left', keeps_real_iff]
  rw [← hkept]
  exact (hleaves.iff w).symm

/-- **A segment is given up** if and only if it has no point in the box. -/
theorem isSome_clip?_iff (hs : s.IsFinite) (hbox : box.isValid = true) :
    (s.clip? box).isSome = true ↔ (s.paramsIn box).Nonempty := by
  constructor
  · intro hsome
    obtain ⟨⟨first, last⟩, hclip⟩ := Option.isSome_iff_exists.1 hsome
    obtain ⟨t, u, -, -, htu, hparams⟩ := paramsIn_eq_Icc hs hbox hclip
    rw [hparams]
    exact Set.nonempty_Icc.2 htu
  · rintro ⟨t, ht⟩
    obtain ⟨range, hclip, -⟩ := ((clip?_leaves hs hbox).iff t).2 ht
    exact Option.isSome_iff_exists.2 ⟨range, hclip⟩

/-- **What clipping finds out** about a segment and a box: whether they share a point, the
parameters of all shared points, and whether one of these is inside the box. No division by zero
has a part in it. -/
structure ClipsExactly (s : Segment Exact) (box : Box Exact) : Prop where
  isSome_iff : (s.clip? box).isSome = true ↔ (s.paramsIn box).Nonempty
  ends {first last : Exact} : s.clip? box = some (first, last) →
    ∃ t u : ℝ, first = real t ∧ last = real u ∧ t ≤ u ∧ s.paramsIn box = Set.Icc t u
  inside_iff : s.entersInside box = true ↔
    ∃ t : ℝ, (0 ≤ t ∧ t ≤ 1) ∧ box.surrounds (s.pointAt (real t)) = true
  dividing (f : Exact → Exact) : clipDividing f s box = s.clip? box ∧
    entersDividing f s box = s.entersInside box

/-- **Clipping is exact** for every segment between finite points and every valid box, which may
have infinite sides. -/
theorem clipsExactly_of_isFinite (s : Segment Exact) (box : Box Exact) (hs : s.IsFinite)
    (hbox : box.isValid = true) : s.ClipsExactly box := by
  constructor
  case isSome_iff => exact isSome_clip?_iff hs hbox
  case ends => exact paramsIn_eq_Icc hs hbox
  case inside_iff =>
    rw [entersInside_iff hs hbox]
    constructor
    · rintro ⟨p, hinside, hhas⟩
      obtain ⟨t, h0, h1, rfl⟩ := (has_iff hs).1 hhas
      exact ⟨t, ⟨h0, h1⟩, hinside⟩
    · rintro ⟨t, ⟨h0, h1⟩, hinside⟩
      exact ⟨_, hinside, (has_iff hs).2 ⟨t, h0, h1, rfl⟩⟩
  case dividing => exact fun f => ⟨clip?_dividing, entersInside_dividing⟩

/-- A diagonal that touches the upper end of a box without width. -/
theorem clipsExactly_flatBox :
    (mk ⟨real 0, real 0⟩ ⟨real 2, real 2⟩).IsFinite ∧
      (Box.mk (real 1) (real 0) (real 1) (real 1)).isValid = true ∧
      (mk ⟨real 0, real 0⟩ ⟨real 2, real 2⟩).ClipsExactly ⟨real 1, real 0, real 1, real 1⟩ := by
  have hs : (mk ⟨real 0, real 0⟩ ⟨real 2, real 2⟩).IsFinite :=
    ⟨Point.isFinite_iff.2 ⟨0, 0, rfl⟩, Point.isFinite_iff.2 ⟨2, 2, rfl⟩⟩
  have hbox : (Box.mk (real 1) (real 0) (real 1) (real 1)).isValid = true := by
    simp [Box.isValid_iff]
  exact ⟨hs, hbox, clipsExactly_of_isFinite _ _ hs hbox⟩

end Segment

end QuadIndex
