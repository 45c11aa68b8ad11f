import QuadIndex.Page.Column
import QuadIndex.Page.Row

/-!
# Splitting a page

A page of rows is split into four groups, column after column. The first column decides, except
where it cannot: if all its keys are null, or if all its groups come out alike, the next column
takes over. Entries that the split of a column does not care about, since another group would
cost them the same, are taken out and placed by the columns after it. Nulls go to the
north-west, and the other entries of a column with nulls go to the other quadrants in turn.

* `splitStep`: the split of one column and what is handed on from it.
* `splitFrom`: the split of the columns from one on.
* `splitPage`: the split of a page, with a summary of every column of every group.
-/

namespace QuadIndex

/-- A question how to split the keys of a column. -/
structure Question (κ : Type) where
  column : Nat
  keys : List κ
  prior : Quadrants (Option κ)
  deriving Repr

/-- A result, with the events and the questions on the way to it. -/
structure Outcome (κ β : Type) where
  value : β
  events : List Event
  questions : List (Question κ)

/-- What a split outcome says after some events and questions of its own. -/
def Outcome.after {κ β : Type} (events : List Event) (questions : List (Question κ))
    (o : Outcome κ β) : Outcome κ β := ⟨o.value, events ++ o.events, questions ++ o.questions⟩

/-- Groups of positions, with the summaries of every column of each. -/
structure Grouped (κ : Type) where
  groups : Quadrants (List Nat)
  summaries : Quadrants (List (Option κ))
  deriving Repr

/-- The split of the columns after the present one. -/
abbrev Next (κ : Type) :=
  (asked : Nat) → List (Row κ) → (prior : Quadrants (Option κ)) → Outcome κ (Grouped κ)

/-- No summary for any group. -/
def noPrior {κ : Type} : Quadrants (Option κ) := .const none

variable {α κ : Type} [Scalar α] (s : KeyOps α κ)

/-- The summaries of the rows at the given positions. -/
def summariesOfRows (rows : List (Row κ)) (groups : Quadrants (List Nat)) :
    Quadrants (List (Option κ)) :=
  groups.map fun g => (List.range s.columns).map fun column =>
    s.hull column (g.filterMap fun i => (rows[i]?).bind (·.key? column))

/-- Groups that are not summarized. -/
def Grouped.withoutSummaries (groups : Quadrants (List Nat)) : Grouped κ :=
  ⟨groups, .const (List.replicate s.columns none)⟩

/-- The split of a column, with the other columns not summarized. -/
def Grouped.ofColumn (column : Nat) (c : ColumnGroups κ) : Grouped κ :=
  ⟨c.groups, c.summaries.map fun summary =>
    (List.range s.columns).map fun i => if i = column then summary else none⟩

/-- Where a row goes in the split of a column with nulls, by its number. -/
def nullQuadrant (number : Nat) : Option κ → Quadrant
  | none => .northWest
  | some _ =>
    if number % 3 = 0 then .northEast else if number % 3 = 1 then .southWest else .southEast

/-- The split of a column with nulls. -/
def groupByNull (rows : List (Row κ)) (column : Nat) : Grouped κ :=
  let keys := rows.map (·.key? column)
  let groups : Quadrants (List Nat) := .ofFn fun q =>
    (keys.zipIdx.filter fun k => nullQuadrant (k.2 + 1) k.1 = q).map (·.2)
  if column == 0 && s.columns == 1 then ⟨groups, summariesOfRows s rows groups⟩
  else .withoutSummaries s groups

/-- Another group would cost the key the same as its own. -/
def isIndifferent (column : Nat) (summaries : Quadrants (Option κ)) (q : Quadrant) (key : κ) :
    Bool :=
  (summaries.get q).any fun own => Quadrant.all.any fun other =>
    other != q && (summaries.get other).any fun summary =>
      s.cost column summary key == s.cost column own key

/-- **The positions of the entries that do not care** about the split of a column, in rising
order. -/
def indifferentRows (column : Nat) (keys : List κ) (c : ColumnGroups κ) : List Nat :=
  let ofGroup (q : Quadrant) : List Nat := (c.groups.get q).filter fun i =>
    (keys[i]?).any fun key => isIndifferent s column c.summaries q key
  (Quadrant.all.flatMap ofGroup).mergeSort fun i j => i ≤ j

/-- All four summaries are there, and all are the same as the first. -/
def allAlike (column : Nat) (summaries : Quadrants (Option κ)) : Bool :=
  match summaries with
  | ⟨some a, some b, some c, some d⟩ => s.same column a b && s.same column a c && s.same column a d
  | _ => false

/-- The cost of a key that may be null. A null costs nothing under a null summary; a null and
a key never go together. -/
def nullableCost (column : Nat) : (summary key : Option κ) → α
  | some summary, some key => s.cost column summary key
  | none, none => 0
  | _, _ => Scalar.infinity

/-- The candidates of least cost in a column, or all of them if the costs are no numbers. -/
def cheapestOf (summaries : Quadrants (List (Option κ))) (row : Row κ) (column : Nat)
    (candidates : List Quadrant) : List Quadrant :=
  let cost (q : Quadrant) : α :=
    nullableCost s column (Row.key? (summaries.get q) column) (row.key? column)
  let best := (candidates.map cost).foldl Scalar.lesser Scalar.infinity
  let kept := candidates.filter fun q => cost q == best
  if kept.isEmpty then candidates else kept

/-- The candidates that the given columns leave, one after the other. -/
def narrowCandidates (summaries : Quadrants (List (Option κ))) (row : Row κ) :
    List Nat → List Quadrant → List Quadrant
  | [], candidates => candidates
  | column :: columns, candidates =>
    let kept := cheapestOf s summaries row column candidates
    if kept.length == 1 then kept else narrowCandidates summaries row columns kept

/-- **The quadrant of a single entry**: the first column from the given one on that has a
single cheapest quadrant decides, and the first of the quadrants that are left. -/
def placeSingle (row : Row κ) (summaries : Quadrants (List (Option κ))) (column : Nat) : Quadrant :=
  let columns := List.range' column (s.columns - column)
  (narrowCandidates s summaries row columns Quadrant.all).head?.getD .northWest

/-- **The split of a column, with the entries that do not care placed by later columns.** -/
def handOn (next : Next κ) (asked : Nat) (rows : List (Row κ)) (column : Nat)
    (keys : List κ) (c : ColumnGroups κ) : Outcome κ (Grouped κ) :=
  if allAlike s column c.summaries then
    (next asked rows noPrior).after [.columnPassed column "all quadrant summaries are equal"] []
  else
    let moved := indifferentRows s column keys c
    if moved.isEmpty then ⟨.ofColumn s column c, [], []⟩
    else
      let kept := c.groups.map fun g => g.filter fun i => !moved.contains i
      if kept.toList.any List.isEmpty then
        (next asked rows noPrior).after
          [.columnPassed column "moving don't-care entries would leave a quadrant empty"] []
      else
        let remaining := summariesOfRows s rows kept
        let finish (groups : Quadrants (List Nat)) : Grouped κ :=
          let sorted := groups.map fun g => g.mergeSort fun i j => i ≤ j
          ⟨sorted, summariesOfRows s rows sorted⟩
        let found := [Event.indifferentFound column moved.length]
        match moved with
        | [only] =>
          let q := placeSingle s (rows.getD only []) remaining (column + 1)
          ⟨finish (kept.set q (kept.get q ++ [only])), found, []⟩
        | _ =>
          let prior := remaining.map fun summaries => Row.key? summaries (column + 1)
          let inner := next asked (moved.filterMap (rows[·]?)) prior
          let placed := inner.value.groups.map fun g => g.filterMap (moved[·]?)
          let joined := kept.mapWith fun q g => g ++ placed.get q
          ⟨finish joined, found ++ inner.events, inner.questions⟩

/-- **The split of one column**, and of the later ones as far as it is left to them. -/
def splitStep (config : PageConfig) (next? : Option (Next κ)) (column asked : Nat)
    (rows : List (Row κ)) (prior : Quadrants (Option κ)) : Outcome κ (Grouped κ) :=
  let keys := rows.filterMap (·.key? column)
  if keys.isEmpty then
    match next? with
    | some next => (next asked rows noPrior).after [.columnPassed column "every key is null"] []
    | none => ⟨.withoutSummaries s (quartiles rows.length), [], []⟩
  else if keys.length < rows.length then ⟨groupByNull s rows column, [], []⟩
  else
    let split := groupColumn s config asked column keys prior
    let question : List (Question κ) := [⟨column, keys, prior⟩]
    match next? with
    | some next =>
      if config.handsOn then
        (handOn s next (asked + 1) rows column keys split.value).after split.events question
      else ⟨.ofColumn s column split.value, split.events, question⟩
    | none => ⟨.ofColumn s column split.value, split.events, question⟩

/-- The split of a column and the `later` columns after it. -/
def splitFrom (config : PageConfig) : (later column : Nat) → Next κ
  | 0, column => splitStep s config none column
  | later + 1, column => splitStep s config (some (splitFrom config later (column + 1))) column

/-- Refuses the first key that the operations are not meant for, row by row. -/
def checkRows (rows : List (Row κ)) : Except (IndexError α) Unit :=
  rows.forM fun row => (List.range s.columns).forM fun column =>
    match row.key? column with
    | some key => s.check column key
    | none => .ok ()

/-- **The split of a page.** There must be a column and at least two rows. -/
def splitPage (config : PageConfig) (rows : List (Row κ)) :
    Except (IndexError α) (Outcome κ (SplitPage κ)) := do
  if s.columns = 0 then throw (.unusable .noColumns)
  if rows.length < 2 then throw (.unusable (.tooFewEntries rows.length))
  checkRows s rows
  let o := splitFrom s config (s.columns - 1) 0 0 rows noPrior
  let summaries :=
    if 1 < s.columns then summariesOfRows s rows o.value.groups else o.value.summaries
  let group (q : Quadrant) : PageGroup κ :=
    let sorted := (o.value.groups.get q).mergeSort fun i j => i ≤ j
    ⟨sorted.map (· + 1), summaries.get q⟩
  return ⟨⟨.ofFn group⟩, o.events, o.questions⟩

end QuadIndex
