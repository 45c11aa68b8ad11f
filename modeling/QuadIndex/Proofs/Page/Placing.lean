import QuadIndex.Page.Split
import QuadIndex.Proofs.Binary64Order

/-!
# Where a single row goes

A row that is placed on its own goes through the columns one after the other. Each keeps the
quadrants that are cheapest for it among those that the columns before it have left, and all of them
if the costs are no numbers. That comes to a single comparison: the quadrant whose costs, column
after column, are least as a list.

* `Scalar.compareCosts`: costs in order, with what is no number after the infinity.
* `mem_cheapestOf_iff`: one column keeps the cheapest.
* `mem_narrowCandidates_iff`: the columns keep those of the least list of costs.
* `placeSingle_least`: the row goes to the first of these.
-/

namespace QuadIndex

variable {α κ : Type} [Scalar α]

/-! ## Costs in order -/

namespace Scalar

/-- **The order of costs**: that of the numbers, and after them whatever is no number, which all
counts as equal. -/
def compareCosts (x y : α) : Ordering :=
  match isNaN x, isNaN y with
  | false, false => if x < y then .lt else if y < x then .gt else .eq
  | false, true => .lt
  | true, false => .gt
  | true, true => .eq

variable [LawfulScalar α]

open LawfulScalar

theorem isNaN_eq_true_iff {x : α} : isNaN x = true ↔ ¬ x ≤ x := by
  rw [← isNaN_eq_false_iff, Bool.not_eq_false]

theorem compareCosts_isLE_iff {x y : α} : (compareCosts x y).isLE = true ↔ x ≤ y ∨ ¬ y ≤ y := by
  unfold compareCosts
  cases hx : isNaN x <;> cases hy : isNaN y <;>
    simp only [isNaN_eq_false_iff, isNaN_eq_true_iff] at hx hy
  · -- two numbers
    simp only [hy, not_true_eq_false, or_false]
    split
    · rename_i hlt
      exact iff_of_true rfl (le_of_lt hlt)
    rename_i hnlt
    split
    · rename_i hgt
      exact iff_of_false (by decide) (lt_iff.1 hgt).2
    · rename_i hngt
      exact iff_of_true rfl (le_of_not_lt hy hx hngt)
  · exact iff_of_true rfl (Or.inr hy)
  · refine iff_of_false (fun h => Bool.noConfusion h) ?_
    rintro (hle | hny)
    · exact hx (le_left hle)
    · exact hny hy
  · exact iff_of_true rfl (Or.inr hy)

instance : Std.TransCmp (compareCosts (α := α)) where
  eq_swap {x y} := by
    unfold compareCosts
    cases isNaN x <;> cases isNaN y
    · by_cases hlt : x < y
      · have hngt : ¬ y < x := fun hgt => (lt_iff.1 hgt).2 (le_of_lt hlt)
        simp only [hlt, hngt, if_true, if_false, Ordering.swap_gt]
      · by_cases hgt : y < x <;> simp only [hlt, hgt, if_true, if_false, Ordering.swap_lt,
          Ordering.swap_eq]
    all_goals rfl
  isLE_trans {x y z} hxy hyz := by
    rw [compareCosts_isLE_iff] at hxy hyz ⊢
    rcases hyz with hyz | hz
    · refine Or.inl (le_trans (hxy.resolve_right ?_) hyz)
      exact fun hy => hy (le_left hyz)
    · exact Or.inr hz

/-- **The least of some values** and a number that it is not to exceed: it is that number or one of
the values, and at most every value that is a number. -/
theorem foldl_lesser_spec {low : α} (hlow : low ≤ low) (xs : List α) :
    xs.foldl lesser low ∈ low :: xs ∧ xs.foldl lesser low ≤ low ∧
      ∀ x ∈ xs, x ≤ x → xs.foldl lesser low ≤ x := by
  induction xs generalizing low with
  | nil => exact ⟨List.mem_cons_self, hlow, by simp⟩
  | cons x xs ih =>
    have hcase : lesser low x = low ∧ (x ≤ x → low ≤ x) ∨ lesser low x = x ∧ x ≤ low := by
      unfold lesser
      rw [isNaN_eq_false_iff.2 hlow, Bool.false_or]
      split
      · rename_i hle
        exact Or.inr ⟨rfl, by simpa using hle⟩
      · rename_i hle
        refine Or.inl ⟨rfl, fun hx => (le_total hlow hx).resolve_right (by simpa using hle)⟩
    rw [List.foldl_cons]
    rcases hcase with ⟨heq, hx⟩ | ⟨heq, hx⟩
    · rw [heq]
      obtain ⟨hmem, hle, hall⟩ := ih hlow
      refine ⟨?_, hle, List.forall_mem_cons.2 ⟨fun hnum => le_trans hle (hx hnum), hall⟩⟩
      rcases List.mem_cons.1 hmem with h | h
      · exact List.mem_cons.2 (Or.inl h)
      · exact List.mem_cons_of_mem _ (List.mem_cons_of_mem _ h)
    · rw [heq]
      obtain ⟨hmem, hle, hall⟩ := ih (le_left hx)
      exact ⟨List.mem_cons_of_mem _ hmem, le_trans hle hx,
        List.forall_mem_cons.2 ⟨fun _ => hle, hall⟩⟩

end Scalar

open Scalar LawfulScalar

/-! ## One column -/

variable (s : KeyOps α κ)

/-- **What a row costs under some summaries in a column.** A null costs nothing under a null. A null
under a key, and a key under a null, cost infinitely much. -/
def Row.costUnder (summaries row : Row κ) (column : Nat) : α :=
  match summaries.key? column, row.key? column with
  | some summary, some key => s.cost column summary key
  | none, none => 0
  | some _, none => infinity
  | none, some _ => infinity

/-- The costs of a row in the given columns. -/
def Row.costsUnder (summaries row : Row κ) (columns : List Nat) : List α :=
  columns.map (Row.costUnder s summaries row)

variable {s} {summaries : Quadrants (Row κ)} {row : Row κ}

theorem nullableCost_eq (q : Quadrant) (column : Nat) :
    nullableCost s column (Row.key? (summaries.get q) column) (row.key? column) =
      Row.costUnder s (summaries.get q) row column := by
  unfold Row.costUnder
  cases Row.key? (summaries.get q) column <;> cases row.key? column <;> rfl

variable {column : Nat} {columns : List Nat} {candidates : List Quadrant}

theorem cheapestOf_sublist :
    (cheapestOf s summaries row column candidates).Sublist candidates := by
  unfold cheapestOf
  simp only
  split
  · exact List.Sublist.refl candidates
  · exact List.filter_sublist

theorem cheapestOf_ne_nil (h : candidates ≠ []) :
    cheapestOf s summaries row column candidates ≠ [] := by
  unfold cheapestOf
  simp only
  split
  · exact h
  · rename_i hkept
    rwa [List.isEmpty_iff] at hkept

/-- The columns leave some of the candidates, in their order. -/
theorem narrowCandidates_sublist :
    (narrowCandidates s summaries row columns candidates).Sublist candidates := by
  induction columns generalizing candidates with
  | nil => exact List.Sublist.refl candidates
  | cons column columns ih =>
    rw [narrowCandidates]
    split
    · exact cheapestOf_sublist
    · exact ih.trans cheapestOf_sublist

theorem narrowCandidates_ne_nil (h : candidates ≠ []) :
    narrowCandidates s summaries row columns candidates ≠ [] := by
  induction columns generalizing candidates with
  | nil => exact h
  | cons column columns ih =>
    rw [narrowCandidates]
    split
    · exact cheapestOf_ne_nil h
    · exact ih (cheapestOf_ne_nil h)

variable [LawfulScalar α]

/-- **A column keeps the candidates that are cheapest in it.** -/
theorem mem_cheapestOf_iff {q : Quadrant} :
    q ∈ cheapestOf s summaries row column candidates ↔ q ∈ candidates ∧ ∀ r ∈ candidates,
      (compareCosts (Row.costUnder s (summaries.get q) row column)
        (Row.costUnder s (summaries.get r) row column)).isLE = true := by
  obtain ⟨cost, hcost⟩ : ∃ cost : Quadrant → α, ∀ q,
      Row.costUnder s (summaries.get q) row column = cost q := ⟨_, fun _ => rfl⟩
  simp only [cheapestOf, nullableCost_eq, compareCosts_isLE_iff, hcost]
  by_cases hnumber : ∃ r ∈ candidates, cost r ≤ cost r
  · obtain ⟨r, hr, hnum⟩ := hnumber
    obtain ⟨hmem, hinf, hleast⟩ := foldl_lesser_spec (le_right (le_infinity hnum))
      (candidates.map cost)
    generalize (candidates.map cost).foldl lesser infinity = best at hmem hinf hleast ⊢
    rw [List.forall_mem_map] at hleast
    -- some candidate costs just that, be it infinitely much
    obtain ⟨c, hc, hcbest⟩ : ∃ c ∈ candidates, cost c ≤ best := by
      rcases List.mem_cons.1 hmem with rfl | hmem
      · exact ⟨r, hr, le_infinity hnum⟩
      · obtain ⟨c, hc, rfl⟩ := List.mem_map.1 hmem
        exact ⟨c, hc, le_left hinf⟩
    have hkept : ∀ x, (cost x == best) = true ↔ cost x ≤ best ∧ best ≤ cost x := fun x => beq_iff
    have hne : ¬ (candidates.filter fun x => cost x == best).isEmpty = true := by
      rw [List.isEmpty_iff]
      refine List.ne_nil_of_mem (List.mem_filter.2 ⟨hc, (hkept c).2 ⟨hcbest, ?_⟩⟩)
      exact hleast c hc (le_left hcbest)
    rw [if_neg hne, List.mem_filter, hkept]
    refine and_congr_right fun hq => ?_
    constructor
    · rintro ⟨hle, -⟩ x hx
      by_cases hxnum : cost x ≤ cost x
      · exact Or.inl (le_trans hle (hleast x hx hxnum))
      · exact Or.inr hxnum
    · intro hall
      have hqc : cost q ≤ cost c := (hall c hc).resolve_right fun h => h (le_left hcbest)
      exact ⟨le_trans hqc hcbest, hleast q hq (le_left hqc)⟩
  · -- nothing equals a cost that is no number, so all candidates stay
    simp only [not_exists, not_and] at hnumber
    have hempty : (candidates.filter fun x =>
        cost x == (candidates.map cost).foldl lesser infinity) = [] := by
      refine List.filter_eq_nil_iff.2 fun x hx hbeq => hnumber x hx ?_
      exact le_left (beq_iff.1 hbeq).1
    rw [hempty, if_pos List.isEmpty_nil]
    exact iff_self_and.2 fun _ r hr => Or.inr (hnumber r hr)

/-! ## All columns -/

/-- The columns keep the candidates of the least costs, column after column. -/
theorem mem_narrowCandidates_iff {q : Quadrant} :
    q ∈ narrowCandidates s summaries row columns candidates ↔ q ∈ candidates ∧ ∀ r ∈ candidates,
      (List.compareLex compareCosts (Row.costsUnder s (summaries.get q) row columns)
        (Row.costsUnder s (summaries.get r) row columns)).isLE = true := by
  induction columns generalizing candidates with
  | nil => exact iff_self_and.2 fun _ _ _ => rfl
  | cons column columns ih =>
    -- to stop at a single candidate changes nothing
    have hstop : q ∈ narrowCandidates s summaries row (column :: columns) candidates ↔
        q ∈ narrowCandidates s summaries row columns
          (cheapestOf s summaries row column candidates) := by
      rw [narrowCandidates]
      split
      · rename_i hone
        obtain ⟨only, honly⟩ := List.length_eq_one_iff.1 (beq_iff_eq.1 hone)
        rw [honly, ih, List.forall_mem_singleton, List.mem_singleton]
        exact iff_self_and.2 fun h => h ▸ Std.ReflCmp.isLE_rfl
      · rfl
    simp only [hstop, ih, mem_cheapestOf_iff, Row.costsUnder, List.map_cons,
      List.compareLex_cons_cons, Ordering.isLE_then_iff_and]
    constructor
    · rintro ⟨⟨hq, hleast⟩, hrest⟩
      refine ⟨hq, fun r hr => ⟨hleast r hr, ?_⟩⟩
      rcases Ordering.isLE_iff_eq_lt_or_eq_eq.1 (hleast r hr) with hlt | heq
      · exact Or.inl hlt
      · -- what costs the same in this column stays in it too
        refine Or.inr (hrest r ⟨hr, fun t ht => Std.TransCmp.isLE_trans ?_ (hleast t ht)⟩)
        rw [Std.OrientedCmp.eq_comm.1 heq]
        rfl
    · rintro ⟨hq, hall⟩
      refine ⟨⟨hq, fun r hr => (hall r hr).1⟩, fun r hr => ?_⟩
      exact (hall r hr.1).2.resolve_left fun hlt =>
        Std.OrientedCmp.not_isLE_of_lt hlt (hr.2 q hq)

/-! ## The quadrant -/

theorem Quadrant.pairwise_all : Quadrant.all.Pairwise (· < ·) := by decide

/-- **A single row goes where it costs least**: its costs there, in the columns from the given one
on, are least as a list, and the quadrant is the first of which that holds. -/
theorem placeSingle_least (s : KeyOps α κ) (row : Row κ) (summaries : Quadrants (Row κ))
    (column : Nat) :
    let best := placeSingle s row summaries column
    let costs (q : Quadrant) : List α :=
      Row.costsUnder s (summaries.get q) row (List.range' column (s.columns - column))
    (∀ q, (List.compareLex compareCosts (costs best) (costs q)).isLE = true) ∧
      ∀ q, q < best → List.compareLex compareCosts (costs best) (costs q) = .lt := by
  intro best costs
  obtain ⟨q, rest, hleft⟩ : ∃ q rest, narrowCandidates s summaries row
      (List.range' column (s.columns - column)) Quadrant.all = q :: rest :=
    List.exists_cons_of_ne_nil (narrowCandidates_ne_nil (List.cons_ne_nil _ _))
  have hbest : best = q := by
    change (narrowCandidates s summaries row _ Quadrant.all).head?.getD .northWest = q
    rw [hleft]
    rfl
  have hmem : ∀ r, r ∈ q :: rest ↔ ∀ t,
      (List.compareLex compareCosts (costs r) (costs t)).isLE = true := by
    intro r
    rw [← hleft, mem_narrowCandidates_iff]
    simp only [Quadrant.mem_all, true_and, true_imp_iff]
    rfl
  have hleast := (hmem q).1 List.mem_cons_self
  rw [hbest]
  refine ⟨hleast, fun r hr => ?_⟩
  rcases Ordering.isLE_iff_eq_lt_or_eq_eq.1 (hleast r) with hlt | heq
  · exact hlt
  · -- a quadrant of the same costs is left too, and stands later
    have hsorted : (q :: rest).Pairwise (· < ·) :=
      Quadrant.pairwise_all.sublist (hleft ▸ narrowCandidates_sublist)
    have hstays : r ∈ q :: rest := (hmem r).2 fun t => by
      rw [← Std.TransCmp.congr_left heq]
      exact hleast t
    rcases List.mem_cons.1 hstays with rfl | hafter
    · exact absurd hr (Nat.lt_irrefl r.code)
    · exact absurd hr (Nat.lt_asymm (List.rel_of_pairwise_cons hsorted hafter))

/-- Keys of three columns. What a key costs under zero is no number, it costs nothing under itself,
and infinitely much under any other key. -/
def harshKeys : KeyOps Binary64 Nat where
  columns := 3
  hull _ keys := keys.max?
  cost _ summary key :=
    if summary = 0 then .invalid else if summary = key then .zero else .infinity
  propose _ _ _ _ := ⟨.const [], .const none, false⟩
  same _ x y := x == y
  check _ _ := .ok ()

/-- Summaries of which each column rules one quadrant out for the row below: the first the
north-west, the second the north-east, and the third the south-east. -/
def harshSummaries : Quadrants (Row Nat) :=
  ⟨[some 0, none, some 2], [none, some 3, some 2], [some 2, none, some 2], [some 3, none, some 0]⟩

theorem placeSingle_least_harshKeys :
    placeSingle harshKeys [some 1, none, some 2] harshSummaries 0 = .southWest ∧
    let costs (q : Quadrant) : List Binary64 :=
      Row.costsUnder harshKeys (harshSummaries.get q) [some 1, none, some 2] [0, 1, 2]
    (∀ q, (List.compareLex compareCosts (costs .southWest) (costs q)).isLE = true) ∧
      ∀ q, q < .southWest → List.compareLex compareCosts (costs .southWest) (costs q) = .lt := by
  have hplace : placeSingle harshKeys [some 1, none, some 2] harshSummaries 0 = .southWest := by
    decide +kernel
  refine ⟨hplace, ?_⟩
  have hleast := placeSingle_least harshKeys [some 1, none, some 2] harshSummaries 0
  rw [hplace] at hleast
  exact hleast

end QuadIndex
