import Mathlib.Order.Bounds.Basic
import QuadIndex.Proofs.Descent.Way
import QuadIndex.Proofs.Exact.Box
import QuadIndex.Proofs.Exact.Rescaling

/-!
# The level where an object belongs

The level is counted through the logarithm of a ratio, in whole steps. In exact arithmetic it has a
plain meaning: an object goes `k` levels down if the cell is at least `2 ^ k` times as long as the
object. A single point goes down as far as levels are counted. Where there is no ratio, the object
stays.

* `le_naturalLevel_iff`: how far an object goes down.
* `IsDeepestFit`: the last level whose cells are no shorter than the object.
* `planDescent_levels`: the number of levels of a descent, and how it depends on the sides.
* `not_isDeepestFit_endless`: an endless object in an endless cell.
-/

namespace QuadIndex

open Exact

variable {cell object : Box Exact}

/-! ## Longer sides -/

namespace Exact

variable {x : Exact}

theorem nonneg_iff : 0 ≤ x ↔ x = posInf ∨ ∃ r : ℝ, 0 ≤ r ∧ x = real r := by
  cases x <;> simp [zero_eq]

theorem zero_lt_posInf : 0 < posInf := LawfulScalar.lt_iff.2 (by simp [zero_eq])

theorem pos_of_ne_zero (h : 0 ≤ x) (hne : x ≠ 0) : 0 < x := by
  rcases nonneg_iff.1 h with rfl | ⟨r, hr, rfl⟩
  · exact zero_lt_posInf
  · exact real_lt_real.2 (lt_of_le_of_ne hr fun hzero => hne (congrArg real hzero.symm))

theorem real_one_mul : real 1 * x = x := by
  rw [real_mul_eq one_pos]
  cases x <;> simp [onReal]

/-- A number is no more than a power of two times itself, unless it is negative. -/
theorem le_two_pow_mul (h : 0 ≤ x) (n : Nat) : x ≤ real (2 ^ n) * x := by
  rcases nonneg_iff.1 h with rfl | ⟨r, hr, rfl⟩
  · rw [real_mul_eq (by positivity)]
    exact le_posInf.2 Exact.noConfusion
  · exact real_le_real.2 (le_mul_of_one_le_left hr (one_le_pow₀ one_le_two))

/-- The length of a valid side is no negative number. It is the NaN if both ends are the same
infinity. -/
theorem length_nonneg {low high : Exact} (h : low ≤ high) : high - low = nan ∨ 0 ≤ high - low := by
  rw [nonneg_iff]
  cases low with
  | nan => exact absurd h not_nan_le
  | negInf => cases high <;> simp
  | posInf =>
    rw [posInf_le] at h
    rw [h]
    exact Or.inl rfl
  | real l =>
    cases high with
    | nan => exact absurd h not_le_nan
    | negInf => simp at h
    | posInf => exact Or.inr (Or.inl rfl)
    | real u => exact Or.inr (Or.inr ⟨u - l, sub_nonneg.2 (real_le_real.1 h), real_sub_real⟩)

end Exact

theorem Box.longSide_nonneg {b : Box Exact} (h : b.isValid = true) :
    b.longSide = nan ∨ 0 ≤ b.longSide := by
  obtain ⟨hx, hy⟩ := Box.isValid_iff.1 h
  -- the longer side is one of the two
  rw [Box.longSide, Scalar.greater]
  split
  · exact length_nonneg hy
  · exact length_nonneg hx

/-! ## How far an object goes down -/

theorem naturalLevel_of_isNaN
    (h : cell.longSide / Scalar.half object.longSide = nan) : naturalLevel cell object = 0 := by
  rw [naturalLevel, h]
  exact if_pos (by rw [isNaN_iff.2 rfl, Bool.or_true])

theorem naturalLevel_of_eq_zero (h : cell.longSide = 0) : naturalLevel cell object = 0 := by
  rw [naturalLevel, h]
  exact if_pos (by simp [zero_eq])

theorem naturalLevel_of_pos (hpos : 0 < cell.longSide)
    (h : cell.longSide / Scalar.half object.longSide ≠ nan) : naturalLevel cell object =
      Scalar.wholePart (maxLevel + 1)
        (Scalar.log2 (cell.longSide / Scalar.half object.longSide)) - 1 := by
  refine if_neg ?_
  rw [Bool.or_eq_true, decide_eq_true_eq, isNaN_iff, not_or]
  exact ⟨(LawfulScalar.lt_iff.1 hpos).2, h⟩

/-- An object that fits into the cell without end goes down as far as levels are counted. -/
theorem naturalLevel_of_endless (hpos : 0 < cell.longSide)
    (h : cell.longSide / Scalar.half object.longSide = posInf) :
    naturalLevel cell object = maxLevel := by
  rw [naturalLevel_of_pos hpos (by rw [h]; exact Exact.noConfusion), h]
  rfl

theorem naturalLevel_le_maxLevel : naturalLevel cell object ≤ maxLevel := by
  have hwhole : ∀ x : Exact, Scalar.wholePart (maxLevel + 1) x ≤ maxLevel + 1 := by
    intro x
    cases x with
    | real r => exact min_le_left _ _
    | posInf => exact le_rfl
    | _ => exact Nat.zero_le _
  rw [naturalLevel]
  split
  · exact Nat.zero_le _
  · exact Nat.sub_le_of_le_add (hwhole _)

/-- The whole steps in the logarithm of a ratio, one of which is for the half. -/
theorem le_floor_logb_iff {k : Nat} {e s : ℝ} (he : 0 < e) (hs : 0 < s) :
    k + 1 ≤ ⌊Real.logb 2 (e / (s / 2))⌋₊ ↔ 2 ^ k * s ≤ e := by
  have hpos : 0 < e / (s / 2) := by positivity
  rw [Nat.le_floor_iff' k.succ_ne_zero, Real.le_logb_iff_rpow_le one_lt_two hpos,
    Real.rpow_natCast, le_div_iff₀ (half_pos hs), pow_succ, mul_assoc,
    mul_div_cancel₀ s two_ne_zero]

/-- An endless side has an endless ratio to any real one. -/
theorem posInf_div_half {s : ℝ} (hs : 0 ≤ s) : posInf / Scalar.half (real s) = posInf := by
  rw [half_real]
  rcases hs.eq_or_lt with rfl | hs
  · exact if_pos (zero_div 2)
  · rw [posInf_div_real (half_pos hs).ne', one_mul]
    exact infinite_of_pos (half_pos hs)

/-- Any side has an endless ratio to that of a single point. -/
theorem div_half_zero {e : ℝ} (he : 0 < e) : real e / Scalar.half (real 0) = posInf := by
  rw [half_real]
  exact (if_pos (zero_div 2)).trans (infinite_of_pos he)

/-- For real sides, the levels are counted in powers of two. -/
theorem le_naturalLevel_real_iff {e s : ℝ} (hcell : cell.longSide = real e)
    (hobject : object.longSide = real s) (he : 0 < e) (hs : 0 ≤ s) {k : Nat} (hk : 0 < k)
    (hmax : k ≤ maxLevel) : k ≤ naturalLevel cell object ↔ 2 ^ k * s ≤ e := by
  have hpos : 0 < cell.longSide := by
    rw [hcell, zero_eq]
    exact real_lt_real.2 he
  rcases hs.eq_or_lt with rfl | hs
  · rw [naturalLevel_of_endless hpos (by rw [hcell, hobject, div_half_zero he]), mul_zero]
    exact iff_of_true hmax he.le
  · have hratio : cell.longSide / Scalar.half object.longSide = real (e / (s / 2)) := by
      rw [hcell, hobject, half_real, real_div_real (half_pos hs).ne']
    have hlog : Scalar.log2 (real (e / (s / 2))) = real (Real.logb 2 (e / (s / 2))) := by
      have hquot : 0 < e / (s / 2) := by positivity
      exact (if_neg hquot.not_gt).trans (if_neg hquot.ne')
    rw [naturalLevel_of_pos hpos (by rw [hratio]; exact Exact.noConfusion), hratio, hlog,
      ← le_floor_logb_iff he hs]
    change k ≤ min (maxLevel + 1) _ - 1 ↔ _
    omega

/-- **An object goes `k` levels down** if the cell is `2 ^ k` times as long as the object, which is
not endless. -/
theorem le_naturalLevel_iff (hcell : cell.isValid = true) (hobject : object.isValid = true)
    {k : Nat} (hk : 0 < k) (hmax : k ≤ maxLevel) : k ≤ naturalLevel cell object ↔
      0 < cell.longSide ∧ object.longSide ≠ posInf ∧
        real (2 ^ k) * object.longSide ≤ cell.longSide := by
  have hstays : naturalLevel cell object = 0 → ¬ k ≤ naturalLevel cell object := by omega
  rcases Box.longSide_nonneg hobject with ho | ho
  · refine iff_of_false (hstays (naturalLevel_of_isNaN (by rw [ho, half_nan, div_nan]))) ?_
    rintro ⟨-, -, hle⟩
    rw [ho] at hle
    exact not_nan_le hle
  rcases Box.longSide_nonneg hcell with he | he
  · refine iff_of_false (hstays (naturalLevel_of_isNaN (by rw [he, nan_div]))) ?_
    rintro ⟨hpos, -⟩
    rw [he] at hpos
    exact not_le_nan (Scalar.le_of_lt hpos)
  rcases nonneg_iff.1 ho with ho | ⟨s, hs, ho⟩
  · exact iff_of_false (hstays (naturalLevel_of_longSide ho)) fun h => h.2.1 ho
  rw [ho, real_mul_real]
  rcases nonneg_iff.1 he with he | ⟨e, he0, he⟩
  · have hpos : 0 < cell.longSide := by
      rw [he]
      exact zero_lt_posInf
    have hlevel : naturalLevel cell object = maxLevel :=
      naturalLevel_of_endless hpos (by rw [he, ho, posInf_div_half hs])
    rw [hlevel, he]
    exact iff_of_true hmax ⟨he ▸ hpos, Exact.noConfusion, le_posInf.2 Exact.noConfusion⟩
  · rw [he, zero_eq, real_lt_real, real_le_real]
    rcases he0.eq_or_lt with rfl | hpos
    · exact iff_of_false (hstays (naturalLevel_of_eq_zero he)) fun h => h.1.false
    · rw [le_naturalLevel_real_iff he ho hpos hs hk hmax]
      exact ⟨fun h => ⟨hpos, Exact.noConfusion, h⟩, fun h => h.2.2⟩

/-! ## The deepest fit -/

/-- Two sides without a ratio: both are endless, or one is not a number. -/
def Exact.NoRatio (side size : Exact) : Prop :=
  side = nan ∨ size = nan ∨ (side = posInf ∧ size = posInf)

/-- **The level of an object in a cell**, by their longer sides: the last one whose cells are no
shorter than the object. A cell `n` levels down has the length of the cell divided by `2 ^ n`. -/
structure IsDeepestFit (side size : Exact) (n : Nat) : Prop where
  /-- A cell without extent is kept, and so is one that is shorter than the object. -/
  eq_zero : side = 0 ∨ side < size → n = 0
  /-- A single point goes down as far as levels are counted. -/
  eq_maxLevel : 0 < side → size = 0 → n = maxLevel
  isGreatest : side ≠ 0 → size ≠ 0 → ¬ side < size →
    IsGreatest {k | k ≤ maxLevel ∧ real (2 ^ k) * size ≤ side} n

theorem naturalLevel_of_noRatio (hcell : cell.isValid = true) (hobject : object.isValid = true)
    (h : NoRatio cell.longSide object.longSide) : naturalLevel cell object = 0 := by
  by_contra hne
  obtain ⟨hpos, hfinite, hle⟩ := (le_naturalLevel_iff hcell hobject (Nat.pos_of_ne_zero hne)
    naturalLevel_le_maxLevel).1 le_rfl
  rcases h with h | h | ⟨-, h⟩
  · rw [h] at hpos
    exact not_le_nan (Scalar.le_of_lt hpos)
  · rw [h] at hle
    exact not_nan_le hle
  · exact hfinite h

/-- **The natural level is the deepest fit**, for sides that have a ratio. -/
theorem naturalLevel_isDeepestFit (hcell : cell.isValid = true) (hobject : object.isValid = true)
    (h : ¬ NoRatio cell.longSide object.longSide) :
    IsDeepestFit cell.longSide object.longSide (naturalLevel cell object) := by
  obtain ⟨hcellNum, hobjectNum, hends⟩ : cell.longSide ≠ nan ∧ object.longSide ≠ nan ∧
      ¬ (cell.longSide = posInf ∧ object.longSide = posInf) := by
    simpa [NoRatio] using h
  have hsize := (Box.longSide_nonneg hobject).resolve_left hobjectNum
  have hfits : 0 < naturalLevel cell object → 0 < cell.longSide ∧ object.longSide ≠ posInf ∧
      real (2 ^ naturalLevel cell object) * object.longSide ≤ cell.longSide := fun hpos =>
    (le_naturalLevel_iff hcell hobject hpos naturalLevel_le_maxLevel).1 le_rfl
  constructor
  case eq_zero =>
    intro hstays
    by_contra hne
    obtain ⟨hpos, -, hle⟩ := hfits (Nat.pos_of_ne_zero hne)
    rcases hstays with hzero | hlt
    · rw [hzero] at hpos
      exact (LawfulScalar.lt_iff.1 hpos).2 (Scalar.le_of_lt hpos)
    · exact (LawfulScalar.lt_iff.1 hlt).2 (LawfulScalar.le_trans (le_two_pow_mul hsize _) hle)
  case eq_maxLevel =>
    intro hpos hpoint
    refine le_antisymm naturalLevel_le_maxLevel
      ((le_naturalLevel_iff hcell hobject (by decide) le_rfl).2 ⟨hpos, ?_, ?_⟩)
    · rw [hpoint]
      exact Exact.noConfusion
    · rw [hpoint, zero_eq, real_mul_real, mul_zero]
      exact Scalar.le_of_lt hpos
  case isGreatest =>
    intro hside hpoint hfit
    have hle : object.longSide ≤ cell.longSide :=
      Scalar.le_of_not_lt (le_self.2 hcellNum) (le_self.2 hobjectNum) hfit
    refine ⟨⟨naturalLevel_le_maxLevel, ?_⟩, ?_⟩
    · rcases Nat.eq_zero_or_pos (naturalLevel cell object) with hzero | hpos
      · rwa [hzero, pow_zero, real_one_mul]
      · exact (hfits hpos).2.2
    · rintro k ⟨hmax, hk⟩
      rcases Nat.eq_zero_or_pos k with rfl | hpos
      · exact Nat.zero_le _
      · refine (le_naturalLevel_iff hcell hobject hpos hmax).2 ⟨?_, fun hend => ?_, hk⟩
        · exact pos_of_ne_zero ((Box.longSide_nonneg hcell).resolve_left hcellNum) hside
        · refine hends ⟨posInf_le.1 ?_, hend⟩
          rwa [hend] at hle

/-- In a shorter cell, an object goes down no further. -/
theorem naturalLevel_le_of_cell {shorter : Box Exact} (hshorter : shorter.isValid = true)
    (hcell : cell.isValid = true) (hobject : object.isValid = true)
    (h : shorter.longSide ≤ cell.longSide) :
    naturalLevel shorter object ≤ naturalLevel cell object := by
  rcases Nat.eq_zero_or_pos (naturalLevel shorter object) with hzero | hpos
  · omega
  · obtain ⟨hside, hfinite, hle⟩ :=
      (le_naturalLevel_iff hshorter hobject hpos naturalLevel_le_maxLevel).1 le_rfl
    exact (le_naturalLevel_iff hcell hobject hpos naturalLevel_le_maxLevel).2
      ⟨Scalar.lt_of_lt_of_le hside h, hfinite, LawfulScalar.le_trans hle h⟩

/-- A longer object goes down no further. -/
theorem naturalLevel_le_of_object {longer : Box Exact} (hlonger : longer.isValid = true)
    (hcell : cell.isValid = true) (hobject : object.isValid = true)
    (h : object.longSide ≤ longer.longSide) :
    naturalLevel cell longer ≤ naturalLevel cell object := by
  rcases Nat.eq_zero_or_pos (naturalLevel cell longer) with hzero | hpos
  · omega
  · obtain ⟨hside, hfinite, hle⟩ :=
      (le_naturalLevel_iff hcell hlonger hpos naturalLevel_le_maxLevel).1 le_rfl
    refine (le_naturalLevel_iff hcell hobject hpos naturalLevel_le_maxLevel).2
      ⟨hside, fun hend => hfinite ?_, LawfulScalar.le_trans ?_ hle⟩
    · rw [hend] at h
      exact posInf_le.1 h
    · exact (keepsCosts_mul (by positivity)).le_iff.2 h

/-! ## Descents -/

/-- **The number of levels of a descent**: from the level of the cell down to the deepest fit, as
far as one insertion may go. An object stays where its side and that of the cell have no ratio. The
number does not grow if the level rises, the cell gets shorter or the object longer. -/
theorem planDescent_levels (rules : TreeRules) (cell object : Box Exact) (level : Nat)
    (hcell : cell.isValid = true) (hobject : object.isValid = true) :
    ∃ descent, (planDescent rules cell level object).value = .ok descent ∧
      (∃ best, descent.levels = min rules.maxInsertLevels (best - level) ∧
        (NoRatio cell.longSide object.longSide → best = 0) ∧
        (¬ NoRatio cell.longSide object.longSide →
          IsDeepestFit cell.longSide object.longSide best)) ∧
      (∀ level' descent', level ≤ level' →
        (planDescent rules cell level' object).value = .ok descent' →
        descent'.levels ≤ descent.levels) ∧
      (∀ cell' descent', cell'.longSide ≤ cell.longSide →
        (planDescent rules cell' level object).value = .ok descent' →
        descent'.levels ≤ descent.levels) ∧
      (∀ object' descent', object.longSide ≤ object'.longSide →
        (planDescent rules cell level object').value = .ok descent' →
        descent'.levels ≤ descent.levels) := by
  have hlevels : ∀ {cell' object' : Box Exact} {level' : Nat} {descent' : Descent Exact},
      (planDescent rules cell' level' object').value = .ok descent' →
      cell'.isValid = true ∧ object'.isValid = true ∧
        descent'.levels = min (naturalLevel cell' object' - level') rules.maxInsertLevels := by
    intro cell' object' level' descent' h
    obtain ⟨hcell', hobject', -⟩ := planDescent_ok h
    rw [planDescent_eq rules level' hcell' hobject', Except.ok.injEq] at h
    rw [← h]
    exact ⟨hcell', hobject', rfl⟩
  refine ⟨_, planDescent_eq rules level hcell hobject, ⟨naturalLevel cell object,
    Nat.min_comm _ _, naturalLevel_of_noRatio hcell hobject,
    naturalLevel_isDeepestFit hcell hobject⟩, ?_, ?_, ?_⟩
  · intro level' descent' hle h
    obtain ⟨-, -, heq⟩ := hlevels h
    rw [heq]
    exact min_le_min_right _ (Nat.sub_le_sub_left hle _)
  · intro cell' descent' hle h
    obtain ⟨hcell', -, heq⟩ := hlevels h
    rw [heq]
    exact min_le_min_right _
      (Nat.sub_le_sub_right (naturalLevel_le_of_cell hcell' hcell hobject hle) _)
  · intro object' descent' hle h
    obtain ⟨-, hobject', heq⟩ := hlevels h
    rw [heq]
    exact min_le_min_right _
      (Nat.sub_le_sub_right (naturalLevel_le_of_object hobject' hcell hobject hle) _)

noncomputable section

/-- A square, and one that is a sixteenth as long. -/
def wideSquare : Box Exact := ⟨real 0, real 0, real 16, real 16⟩

def smallSquare : Box Exact := ⟨real 12, real 12, real 13, real 13⟩

/-- Strips without an end, to the north and to the east. -/
def northStrip : Box Exact := ⟨real 0, real 0, real 1, posInf⟩

def eastStrip : Box Exact := ⟨real 0, real 0, posInf, real 1⟩

end

theorem planDescent_levels_smallSquare :
    wideSquare.isValid = true ∧ smallSquare.isValid = true ∧
      ∃ descent, (planDescent ⟨{}, by decide, by decide⟩ wideSquare 0 smallSquare).value =
        .ok descent ∧ descent.levels = 4 := by
  have hwide : wideSquare.isValid = true := by simp [wideSquare, Box.isValid_iff]
  have hsmall : smallSquare.isValid = true := by
    simp [smallSquare, Box.isValid_iff]
    norm_num
  have hside : wideSquare.longSide = real (16 - 0) := ite_self _
  have hsize : smallSquare.longSide = real (13 - 12) := ite_self _
  refine ⟨hwide, hsmall, ?_⟩
  obtain ⟨descent, hplan, ⟨best, hlevels, -, hfit⟩, -⟩ :=
    planDescent_levels ⟨{}, by decide, by decide⟩ wideSquare smallSquare 0 hwide hsmall
  rw [hside, hsize] at hfit
  have hgreatest := (hfit (by simp [NoRatio])).isGreatest
    (by simp [zero_eq]) (by simp [zero_eq]; norm_num) (by simp; norm_num)
  have hfour : IsGreatest {k | k ≤ maxLevel ∧ real (2 ^ k) * real (13 - 12) ≤ real (16 - 0)} 4 := by
    refine ⟨⟨by decide, by simp; norm_num⟩, ?_⟩
    rintro k ⟨-, hk⟩
    rw [real_mul_real, real_le_real] at hk
    have hpow : (2 : ℝ) ^ k ≤ 2 ^ 4 := by linarith
    exact (pow_le_pow_iff_right₀ one_lt_two).1 hpow
  refine ⟨descent, hplan, ?_⟩
  rw [hlevels, hgreatest.unique hfour]
  rfl

theorem longSide_northStrip : northStrip.longSide = posInf := by
  have hwidth : northStrip.width = real (1 - 0) := real_sub_real
  have hheight : northStrip.height = posInf := rfl
  rw [Box.longSide, hwidth, hheight, Scalar.greater, if_pos (by simp)]

theorem longSide_eastStrip : eastStrip.longSide = posInf := by
  have hwidth : eastStrip.width = posInf := rfl
  have hheight : eastStrip.height = real (1 - 0) := real_sub_real
  rw [Box.longSide, hwidth, hheight, Scalar.greater, if_neg (by simp)]

/-- **An endless object stays in an endless cell.** All powers of two of its side would fit, but the
two sides have no ratio to count levels by. -/
theorem not_isDeepestFit_endless : northStrip.isValid = true ∧ eastStrip.isValid = true ∧
    IsDeepestFit northStrip.longSide eastStrip.longSide maxLevel ∧
    ∃ descent, (planDescent ⟨{}, by decide, by decide⟩ northStrip 0 eastStrip).value =
        .ok descent ∧
      ∀ best, IsDeepestFit northStrip.longSide eastStrip.longSide best →
        descent.levels ≠ min (TreeConfig.maxInsertLevels {}) (best - 0) := by
  have hnorth : northStrip.isValid = true := by simp [northStrip, Box.isValid_iff]
  have heast : eastStrip.isValid = true := by simp [eastStrip, Box.isValid_iff]
  have hfits : ∀ k : Nat, real (2 ^ k) * posInf ≤ posInf := by
    intro k
    rw [real_mul_eq (pow_pos two_pos k)]
    exact le_posInf.2 Exact.noConfusion
  have hlast : IsGreatest {k | k ≤ maxLevel ∧ real (2 ^ k) * posInf ≤ posInf} maxLevel :=
    ⟨⟨le_rfl, hfits maxLevel⟩, fun k hk => hk.1⟩
  rw [longSide_northStrip, longSide_eastStrip]
  refine ⟨hnorth, heast, ⟨?_, fun _ h => absurd h Exact.noConfusion, fun _ _ _ => hlast⟩, _,
    planDescent_eq _ 0 hnorth heast, fun best hbest => ?_⟩
  · rintro (h | h)
    · exact absurd h Exact.noConfusion
    · exact absurd (le_posInf.2 Exact.noConfusion) (LawfulScalar.lt_iff.1 h).2
  · have hbest : best = maxLevel := (hbest.isGreatest Exact.noConfusion Exact.noConfusion
      fun h => (LawfulScalar.lt_iff.1 h).2 (le_posInf.2 Exact.noConfusion)).unique hlast
    rw [hbest, naturalLevel_of_longSide longSide_eastStrip]
    decide

end QuadIndex
