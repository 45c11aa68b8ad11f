import QuadIndex.Error
import QuadIndex.Event

/-!
# Key operations

A page of an index is split by what is known of its keys: how to cover some of them with one
key, what it costs to put a key under a summary, and how to split the keys of a column. A
`KeyOps` gives these operations for each column. Nothing is taken on trust of the answers to
the last one: they can be wrong in any way, and differ from question to question.

* `KeyOps`: the operations.
* `Proposal.fault?`: what keeps an answer from being a partition of the keys.
* `summariesOf`: the summaries of groups of keys.
-/

namespace QuadIndex

/-- An answer to the question how the keys of a column are to be split. Keys are numbered from
one. -/
structure Proposal (κ : Type) where
  groups : Quadrants (List Nat)
  /-- The summaries of the groups, as far as they are given. -/
  summaries : Quadrants (Option κ)
  /-- The summaries cover those of earlier entries already. -/
  coversPrior : Bool
  deriving Repr

/-- **The operations on the keys of an index.** -/
structure KeyOps (α κ : Type) where
  /-- How many columns the index has. -/
  columns : Nat
  /-- The least key that covers all of a list. -/
  hull : (column : Nat) → List κ → Option κ
  /-- The cost of putting a key under a summary. -/
  cost : (column : Nat) → (summary key : κ) → α
  /-- How to split the keys of a column, given the summaries of entries already in the groups,
  and how many questions were asked before over the split of the whole page. -/
  propose : (asked column : Nat) → List κ → (prior : Quadrants (Option κ)) → Proposal κ
  /-- The summaries cover the same keys. -/
  same : (column : Nat) → κ → κ → Bool
  /-- Refuses a key that the other operations are not meant for. -/
  check : (column : Nat) → κ → Except (IndexError α) Unit

/-- The keys with the given numbers. A number without a key is passed over. -/
def keysAt {κ : Type} (keys : List κ) (numbers : List Nat) : List κ :=
  numbers.filterMap fun n => if n = 0 then none else keys[n - 1]?

/-- Two summaries are the same if neither costs anything under the other. -/
def sameByCost {α κ : Type} [Scalar α] (cost : Nat → κ → κ → α) (column : Nat) (a b : κ) :
    Bool :=
  cost column a b == 0 && cost column b a == 0

/-- The summaries of groups of keys. -/
def KeyOps.summariesOf {α κ : Type} (s : KeyOps α κ) (column : Nat) (keys : List κ)
    (groups : Quadrants (List Nat)) : Quadrants (Option κ) :=
  groups.map fun g => s.hull column (keysAt keys g)

/-- What keeps groups from being a partition of the numbers from one to `n`. -/
inductive Fault where
  | outside (number : Nat) (quadrant : Quadrant) (n : Nat)
  | twice (number : Nat)
  | missing (number : Nat)
  deriving DecidableEq, Repr

def Fault.text : Fault → String
  | outside number quadrant n => s!"offset {number} in {quadrant} is outside 1..={n}"
  | twice number => s!"offset {number} assigned twice"
  | missing number => s!"offset {number} not assigned"

/-- The first member that is out of place or comes a second time, or else the first number
that is no member. -/
def firstFault? (n : Nat) : (seen : List Nat) → List (Quadrant × Nat) → Option Fault
  | seen, [] => ((List.range' 1 n).find? fun i => !seen.contains i).map .missing
  | seen, (q, i) :: rest =>
    if i < 1 || n < i then some (.outside i q n)
    else if seen.contains i then some (.twice i)
    else firstFault? n (i :: seen) rest

namespace Proposal

variable {κ : Type}

/-- A group that ends in zero goes on to the last key. -/
def closeGroup (n : Nat) (g : List Nat) : List Nat :=
  if g.getLast? = some 0 then g.dropLast ++ [n] else g

/-- The answer with a zero at the end of a group replaced by the number of the last key. -/
def close (n : Nat) (a : Proposal κ) : Proposal κ :=
  { a with groups := a.groups.map (closeGroup n) }

/-- The members of the groups, each with its quadrant. -/
def members (a : Proposal κ) : List (Quadrant × Nat) :=
  a.groups.pairs.flatMap fun g => g.2.map fun i => (g.1, i)

/-- **What keeps the groups from being a partition** of the numbers from one to `n`. -/
def fault? (n : Nat) (a : Proposal κ) : Option Fault := firstFault? n [] a.members

/-- Some group has no members. -/
def hasEmptyGroup (a : Proposal κ) : Bool := a.groups.toList.any List.isEmpty

end Proposal
end QuadIndex
