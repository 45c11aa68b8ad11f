import QuadIndex.Page.KeyOps

/-!
# Splitting one column

The keys of a column are split as their operations answer. An answer that is no partition of
the keys, or that leaves a group empty, is reported and replaced by the quartiles of the keys
in their order. Where some entries are in the groups already, the new groups are matched with
them: of all ways to do that, the one of least total cost.

* `quartiles`: four runs of nearly equal length.
* `acceptedProposal`: the answer, or the quartiles in its place.
* `rematch`: the groups matched with summaries of earlier entries.
* `groupColumn`: all of this together.
-/

namespace QuadIndex

/-- Which refinements of a page split are wanted. -/
structure PageConfig where
  /-- Entries that fit more than one group alike are placed by later columns. -/
  handsOn : Bool := true
  /-- New groups are matched with the summaries of earlier entries. -/
  rematches : Bool := true
  deriving DecidableEq, Repr

/-- The positions below `n` in four runs of nearly equal length. -/
def quartiles (n : Nat) : Quadrants (List Nat) :=
  .ofFn fun q => List.range' (q.code * n / 4) ((q.code + 1) * n / 4 - q.code * n / 4)

/-- Groups of positions and a summary for each. -/
structure ColumnGroups (κ : Type) where
  groups : Quadrants (List Nat)
  summaries : Quadrants (Option κ)
  deriving Repr

/-- A way to match four groups with four others: for each of those the group it is given. -/
abbrev Matching := Quadrants Quadrant

namespace Matching

/-- Each group stays where it is. -/
def identity : Matching := .ofFn id

/-- All matchings, in lexicographic order. -/
def all : List Matching :=
  Quadrant.all.flatMap fun a => (Quadrant.all.erase a).flatMap fun b =>
    ((Quadrant.all.erase a).erase b).flatMap fun c =>
      (((Quadrant.all.erase a).erase b).erase c).map fun d => ⟨a, b, c, d⟩

end Matching

variable {α κ : Type} [Scalar α] (s : KeyOps α κ)

/-- The quartiles of the keys in their order, as an answer. -/
def quartileProposal (column : Nat) (keys : List κ) : Proposal κ :=
  let groups := (quartiles keys.length).map fun g => g.map (· + 1)
  ⟨groups, s.summariesOf column keys groups, false⟩

/-- **The answer to use for a column**, with a warning if it is not the one that was given. -/
def acceptedProposal (column : Nat) (keys : List κ) (given : Proposal κ) : Traced (Proposal κ) :=
  let answer := given.close keys.length
  match answer.fault? keys.length with
  | some fault => ⟨quartileProposal s column keys, [.badProposal column fault.text]⟩
  | none =>
    if answer.hasEmptyGroup then
      ⟨quartileProposal s column keys, [.emptyGroup column answer.groups.sizes]⟩
    else .silent answer

/-- The answer with the summaries that it left open. -/
def fillSummaries (column : Nat) (keys : List κ) (a : Proposal κ) : Proposal κ :=
  let computed := s.summariesOf column keys a.groups
  { a with summaries := a.summaries.mapWith fun q summary => summary.or (computed.get q) }

/-- The cost of a matching: that of each new summary under the earlier one it is matched with. -/
def matchingCost (column : Nat) (prior new : Quadrants (Option κ)) (m : Matching) : α :=
  let cost (q : Quadrant) : Option α :=
    (prior.get q).bind fun p => (new.get (m.get q)).map fun n => s.cost column p n
  (Quadrant.all.filterMap cost).foldl (· + ·) 0

/-- The first matching of least cost, but the identity if no other costs less. -/
def bestMatching (column : Nat) (prior new : Quadrants (Option κ)) : Matching :=
  let cost := matchingCost s column prior new
  Matching.all.foldl (fun best m => if cost m < cost best then m else best) .identity

/-- **The answer with its groups matched** with the summaries of earlier entries, and these
covered by the new summaries. -/
def rematch (column : Nat) (prior : Quadrants (Option κ)) (a : Proposal κ) : Traced (Proposal κ) :=
  let best := bestMatching s column prior a.summaries
  let summary (q : Quadrant) : Option κ :=
    match prior.get q, a.summaries.get (best.get q) with
    | some p, some n => s.hull column [p, n]
    | some p, none => some p
    | none, n => n
  ⟨{ a with groups := .ofFn fun q => a.groups.get (best.get q), summaries := .ofFn summary },
    [.rematched column (best != .identity)]⟩

/-- **The split of the keys of a column**, for at least two keys. `prior` are the summaries of
entries already in the groups. -/
def groupColumn (config : PageConfig) (asked column : Nat) (keys : List κ)
    (prior : Quadrants (Option κ)) : Traced (ColumnGroups κ) :=
  let accepted := acceptedProposal s column keys (s.propose asked column keys prior)
  let filled := fillSummaries s column keys accepted.value
  let hasPrior := prior.toList.any Option.isSome
  let final :=
    if hasPrior && !filled.coversPrior && config.rematches then rematch s column prior filled
    else .silent filled
  ⟨⟨final.value.groups.map fun g => g.map (· - 1), final.value.summaries⟩,
    accepted.events ++ final.events⟩

end QuadIndex
