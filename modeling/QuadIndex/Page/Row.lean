import QuadIndex.Quadrant

/-!
# Rows and pages

A page is a list of rows, and a row has a key in every column, which may be null. A split page
has four groups of rows. Rows and the members of groups are numbered from one.

* `Row.key?`: the key of a column.
* `SplitPage.placement`: the group of each row.
-/

namespace QuadIndex

/-- The keys of an entry, column by column; a key can be null. -/
abbrev Row (κ : Type) := List (Option κ)

/-- The key of a column. Beyond the end of a row all keys are null. -/
def Row.key? {κ : Type} (row : Row κ) (column : Nat) : Option κ := row.getD column none

/-- A row and the number by which its owner knows it. -/
structure PageEntry (κ : Type) where
  id : Nat
  keys : Row κ
  deriving Repr, DecidableEq

/-- One group of a split page. -/
structure PageGroup (κ : Type) where
  /-- The rows of the group, numbered from one. -/
  rows : List Nat
  /-- The union of the keys of each column, which is null if all of them are. -/
  summaries : List (Option κ)
  deriving Repr, DecidableEq

/-- A split page. -/
structure SplitPage (κ : Type) where
  groups : Quadrants (PageGroup κ)
  deriving Repr, DecidableEq

namespace SplitPage

variable {κ : Type}

def sizes (p : SplitPage κ) : Quadrants Nat := p.groups.map fun g => g.rows.length

/-- How many rows the groups have together. -/
def length (p : SplitPage κ) : Nat := p.sizes.total

/-- The group of each row: of two groups that both claim a row, the later one. -/
def placement (p : SplitPage κ) : List (Option Quadrant) :=
  (List.range' 1 p.length).map fun i =>
    Quadrant.all.reverse.find? fun q => (p.groups.get q).rows.contains i

end SplitPage

end QuadIndex
