import Mathlib.Logic.Function.Defs
import QuadIndex.Page.Column
import QuadIndex.Page.RangeKeys
import QuadIndex.Proofs.Binary64Order

/-!
# The best matching

New groups are matched with the summaries of earlier entries by a search through all matchings. It
starts from the one that moves nothing, and goes over to another only for less cost. As the
matchings come in lexicographic order, it ends at the first of least cost.

* `foldl_first_least`: where such a search ends.
* `Matching.mem_all_iff`, `Matching.pairwise_all`: what it goes through, and in which order.
* `Matching.IsBest`: the matching that it ends at.
* `rematch_isBest`: that matching, and what becomes of the groups.
-/

namespace QuadIndex

deriving instance ReflBEq, LawfulBEq for Quadrants

variable {α κ : Type}

/-! ## All matchings -/

namespace Matching

/-- The quadrants of a matching by their codes. -/
def codes (m : Matching) : List Nat := m.toList.map Quadrant.code

/-- **The matchings that are tried** are those that give no group twice. -/
theorem mem_all_iff {m : Matching} : m ∈ all ↔ Function.Injective m.get := by
  have hnodup : Quadrant.all.Nodup := by decide
  obtain ⟨a, b, c, d⟩ := m
  simp only [all, List.mem_flatMap, List.mem_map, Quadrants.mk.injEq, hnodup.mem_erase_iff,
    (hnodup.erase _).mem_erase_iff, ((hnodup.erase _).erase _).mem_erase_iff, Quadrant.mem_all,
    and_true]
  constructor
  · rintro ⟨_, -, _, hba, _, ⟨hcb, hca⟩, _, ⟨hdc, hdb, hda⟩, rfl, rfl, rfl, rfl⟩ p q hpq
    cases p <;> cases q <;> simp_all [Quadrants.get]
  · intro hinj
    have hne : ∀ p q, p ≠ q → Quadrants.get ⟨a, b, c, d⟩ p ≠ Quadrants.get ⟨a, b, c, d⟩ q :=
      fun p q hpq heq => hpq (hinj heq)
    have hba := hne .northEast .northWest (by decide)
    have hca := hne .southWest .northWest (by decide)
    have hcb := hne .southWest .northEast (by decide)
    have hda := hne .southEast .northWest (by decide)
    have hdb := hne .southEast .northEast (by decide)
    have hdc := hne .southEast .southWest (by decide)
    exact ⟨a, trivial, b, hba, c, ⟨hcb, hca⟩, d, ⟨hdc, hdb, hda⟩, rfl, rfl, rfl, rfl⟩

/-- The matchings come in lexicographic order, and the first moves nothing. -/
theorem pairwise_all : all.Pairwise fun m m' => m.codes < m'.codes := by decide +kernel

theorem head?_all : all.head? = some identity := by decide

end Matching

/-! ## The search -/

variable [Scalar α]

/-- **The matching of least cost**: of all that cost no more than any other, the first, and so the
one that moves nothing wherever that is one of them. -/
structure Matching.IsBest (cost : Matching → α) (m : Matching) : Prop where
  injective : Function.Injective m.get
  least : ∀ m' : Matching, Function.Injective m'.get → cost m ≤ cost m'
  stays : (∀ m' : Matching, Function.Injective m'.get → cost identity ≤ cost m') → m = identity
  first : ∀ m' : Matching, Function.Injective m'.get →
    (∀ m'' : Matching, Function.Injective m''.get → cost m' ≤ cost m'') →
      m = m' ∨ m.codes < m'.codes

section

variable [LawfulScalar α]

open Scalar LawfulScalar

/-- **A search that goes over to another value only for less cost** ends at the first of least cost:
whatever comes before costs more, and whatever comes after no less. -/
theorem foldl_first_least {β : Type} {cost : β → α} {first : β} {xs : List β}
    (hnumber : ∀ x ∈ first :: xs, cost x ≤ cost x) :
    let best := xs.foldl (fun best x => if cost x < cost best then x else best) first
    ∃ before after, first :: xs = before ++ best :: after ∧
      (∀ x ∈ before, cost best < cost x) ∧ ∀ x ∈ after, cost best ≤ cost x := by
  induction xs generalizing first with
  | nil => exact ⟨[], [], rfl, by simp, by simp⟩
  | cons x xs ih =>
    obtain ⟨hfirst, hx, hxs⟩ := by simpa using hnumber
    rw [List.foldl_cons]
    by_cases hlt : cost x < cost first
    · rw [if_pos hlt]
      obtain ⟨before, after, heq, hbefore, hafter⟩ := ih (by simpa using ⟨hx, hxs⟩)
      generalize xs.foldl (fun best x => if cost x < cost best then x else best) x = best at *
      have hle : cost best ≤ cost x := by
        have hmem : x ∈ before ++ best :: after := heq ▸ List.mem_cons_self
        rcases List.mem_append.1 hmem with hmem | hmem
        · exact le_of_lt (hbefore x hmem)
        · rcases List.mem_cons.1 hmem with rfl | hmem
          · exact hx
          · exact hafter x hmem
      refine ⟨first :: before, after, by rw [heq, List.cons_append], ?_, hafter⟩
      exact List.forall_mem_cons.2 ⟨lt_of_le_of_lt hle hlt, hbefore⟩
    · rw [if_neg hlt]
      obtain ⟨before, after, heq, hbefore, hafter⟩ := ih (by simpa using ⟨hfirst, hxs⟩)
      generalize xs.foldl (fun best x => if cost x < cost best then x else best) first = best at *
      have hle : cost first ≤ cost x := le_of_not_lt hx hfirst hlt
      rcases before with _ | ⟨y, before⟩
      · obtain ⟨rfl, rfl⟩ := List.cons.inj heq
        exact ⟨[], x :: xs, rfl, by simp, List.forall_mem_cons.2 ⟨hle, hafter⟩⟩
      · obtain ⟨rfl, rfl⟩ := List.cons.inj heq
        obtain ⟨hlt', hbefore⟩ := List.forall_mem_cons.1 hbefore
        refine ⟨first :: x :: before, after, rfl, ?_, hafter⟩
        simp only [List.forall_mem_cons]
        exact ⟨hlt', lt_of_lt_of_le hlt' hle, hbefore⟩

/-- **The search through all matchings ends at the best**, if all costs are numbers. -/
theorem Matching.isBest_foldl {cost : Matching → α}
    (hnumber : ∀ m : Matching, Function.Injective m.get → cost m ≤ cost m) :
    IsBest cost (all.foldl (fun best m => if cost m < cost best then m else best) identity) := by
  obtain ⟨rest, hall⟩ : ∃ rest, all = identity :: rest := List.head?_eq_some_iff.1 head?_all
  -- to try the matching that the search starts from changes nothing
  have hstart : all.foldl (fun best m => if cost m < cost best then m else best) identity =
      rest.foldl (fun best m => if cost m < cost best then m else best) identity := by
    rw [hall, List.foldl_cons, ite_self]
  rw [hstart]
  have hnumbers : ∀ m ∈ identity :: rest, cost m ≤ cost m := fun m hm =>
    hnumber m (mem_all_iff.1 (hall ▸ hm))
  obtain ⟨before, after, heq, hbefore, hafter⟩ := foldl_first_least hnumbers
  generalize rest.foldl (fun best m => if cost m < cost best then m else best) identity = best at *
  rw [← hall] at heq
  have hcases : ∀ m : Matching, Function.Injective m.get → m ∈ before ∨ m = best ∨ m ∈ after := by
    intro m hm
    have hmem : m ∈ before ++ best :: after := heq ▸ mem_all_iff.2 hm
    rwa [List.mem_append, List.mem_cons] at hmem
  have hbest : Function.Injective best.get :=
    mem_all_iff.1 (heq ▸ List.mem_append_right before List.mem_cons_self)
  -- what costs least is not among those before
  have hleft : ∀ m : Matching, cost m ≤ cost best → m ∉ before :=
    fun m hm hmem => (lt_iff.1 (hbefore m hmem)).2 hm
  constructor
  case injective => exact hbest
  case least =>
    intro m hm
    rcases hcases m hm with hmem | rfl | hmem
    · exact le_of_lt (hbefore m hmem)
    · exact hnumber m hm
    · exact hafter m hmem
  case stays =>
    intro hidentity
    rcases before with _ | ⟨m, before⟩
    · rw [hall, List.nil_append] at heq
      exact (List.cons.inj heq).1.symm
    · rw [hall, List.cons_append] at heq
      have hmem : identity ∈ m :: before := (List.cons.inj heq).1 ▸ List.mem_cons_self
      exact absurd hmem (hleft identity (hidentity best hbest))
  case first =>
    intro m hm hleast
    rcases (hcases m hm).resolve_left (hleft m (hleast best hbest)) with rfl | hmem
    · exact Or.inl rfl
    · have hsorted := pairwise_all
      rw [heq, List.pairwise_append] at hsorted
      exact Or.inr (List.rel_of_pairwise_cons hsorted.2.1 hmem)

end

/-! ## The groups -/

variable (s : KeyOps α κ)

/-- **What a matching costs** in all: the cost of each new summary under the earlier one that it is
matched with, added up over the quadrants that have both. -/
def Matching.totalCost (column : Nat) (prior new : Quadrants (Option κ)) (m : Matching) : α :=
  Quadrant.all.foldl (fun total q =>
    match prior.get q, new.get (m.get q) with
    | some p, some n => total + s.cost column p n
    | _, _ => total) 0

theorem matchingCost_eq (column : Nat) (prior new : Quadrants (Option κ)) (m : Matching) :
    matchingCost s column prior new m = m.totalCost s column prior new := by
  rw [matchingCost, Matching.totalCost, List.foldl_filterMap]
  congr 1
  funext total q
  cases prior.get q with
  | none => rfl
  | some p => cases new.get (m.get q) <;> rfl

/-- **The groups of an answer as a matching moves them**: each comes with its summary, which from
now on covers the earlier summary too, and it is reported whether any group has moved. -/
structure MovedBy (column : Nat) (prior : Quadrants (Option κ)) (a : Proposal κ) (m : Matching)
    (moved : Traced (Proposal κ)) : Prop where
  groups : ∀ q, moved.value.groups.get q = a.groups.get (m.get q)
  both : ∀ q p n, prior.get q = some p → a.summaries.get (m.get q) = some n →
    moved.value.summaries.get q = s.hull column [p, n]
  onlyPrior : ∀ q p, prior.get q = some p → a.summaries.get (m.get q) = none →
    moved.value.summaries.get q = some p
  noPrior : ∀ q, prior.get q = none →
    moved.value.summaries.get q = a.summaries.get (m.get q)
  coversPrior : moved.value.coversPrior = a.coversPrior
  events : ∃ reassigned, moved.events = [.rematched column reassigned] ∧
    (reassigned = true ↔ m ≠ .identity)

theorem rematch_movedBy (column : Nat) (prior : Quadrants (Option κ)) (a : Proposal κ) :
    MovedBy s column prior a (bestMatching s column prior a.summaries)
      (rematch s column prior a) := by
  constructor
  case groups =>
    intro q
    rw [rematch, Quadrants.get_ofFn]
  case both =>
    intro q p n hp hn
    simp only [rematch, Quadrants.get_ofFn, hp, hn]
  case onlyPrior =>
    intro q p hp hn
    simp only [rematch, Quadrants.get_ofFn, hp, hn]
  case noPrior =>
    intro q hp
    simp only [rematch, Quadrants.get_ofFn, hp]
  case coversPrior => rfl
  case events => exact ⟨_, rfl, bne_iff_ne⟩

/-- **New groups are matched at least cost.** If the costs of all matchings are numbers, the groups
are moved by the best one. -/
theorem rematch_isBest [LawfulScalar α] (column : Nat) (prior : Quadrants (Option κ))
    (a : Proposal κ) (hnumber : ∀ m : Matching, Function.Injective m.get →
      Scalar.isNaN (m.totalCost s column prior a.summaries) = false) :
    ∃ m, Matching.IsBest (Matching.totalCost s column prior a.summaries) m ∧
      MovedBy s column prior a m (rematch s column prior a) := by
  refine ⟨_, ?_, rematch_movedBy s column prior a⟩
  simp only [bestMatching, matchingCost_eq]
  exact Matching.isBest_foldl fun m hm => Scalar.isNaN_eq_false_iff.1 (hnumber m hm)

/-- Earlier summaries, of which one is not there. -/
def turnedPrior : Quadrants (Option (Interval Binary64)) :=
  ⟨some ⟨0, 0⟩, some ⟨1, 1⟩, some ⟨1 + 1, 1 + 1⟩, none⟩

/-- New groups that stand one quadrant before the earlier ones that they fit. -/
def turnedAnswer : Proposal (Interval Binary64) :=
  ⟨⟨[1], [2], [3], [4]⟩, ⟨some ⟨1, 1⟩, some ⟨1 + 1, 1 + 1⟩, some ⟨0, 0⟩, some ⟨0, 1⟩⟩, false⟩

theorem rematch_isBest_turnedAnswer :
    (rematch (rangeKeys 1) 0 turnedPrior turnedAnswer).value.groups = ⟨[3], [1], [2], [4]⟩ ∧
    (∀ m : Matching, Function.Injective m.get → Scalar.isNaN (m.totalCost
      (rangeKeys 1 : KeyOps Binary64 (Interval Binary64)) 0 turnedPrior turnedAnswer.summaries) =
        false) ∧
    ∃ m, Matching.IsBest (Matching.totalCost (rangeKeys 1 : KeyOps Binary64 (Interval Binary64)) 0
        turnedPrior turnedAnswer.summaries) m ∧
      MovedBy (rangeKeys 1) 0 turnedPrior turnedAnswer m
        (rematch (rangeKeys 1) 0 turnedPrior turnedAnswer) := by
  have hgroups : (rematch (rangeKeys 1) 0 turnedPrior turnedAnswer).value.groups =
      ⟨[3], [1], [2], [4]⟩ := by decide +kernel
  have hall : ∀ m ∈ Matching.all, Scalar.isNaN (m.totalCost
      (rangeKeys 1 : KeyOps Binary64 (Interval Binary64)) 0 turnedPrior turnedAnswer.summaries) =
        false := by decide +kernel
  have hnumber := fun (m : Matching) (hm : Function.Injective m.get) =>
    hall m (Matching.mem_all_iff.2 hm)
  exact ⟨hgroups, hnumber, rematch_isBest _ 0 turnedPrior turnedAnswer hnumber⟩

end QuadIndex
