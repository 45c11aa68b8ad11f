import QuadIndex.Proofs.Order
import QuadIndex.Proofs.Page.Partition

/-!
# Pages in other coordinates

The keys of a column can be written in other coordinates. Operations respect that if hulls and
answers move along with the keys, and all costs of a column change their scale together. A split
asks nothing else of them: it compares costs of one column, adds some of them up, and otherwise
handles positions. So each of its functions gives the same groups and events for the moved keys, and
the moved summaries.

* `KeyOps.Respects`: operations that respect a change of coordinates.
* `rematch_map`, `groupColumn_map`: the split of the keys of a column.
* `handOn_map`, `splitStep_map`, `splitFrom_map`: the split of the columns.
* `splitPage_map`: the split of a page.
-/

namespace QuadIndex

variable {α κ : Type}

/-! ## Moved keys -/

/-- The row with each key moved as its column says. -/
def Row.mapKeys (f : Nat → κ → κ) (row : Row κ) : Row κ :=
  row.mapIdx fun column key => key.map (f column)

/-- The answer with its summaries moved. -/
def Proposal.mapKeys (g : κ → κ) (a : Proposal κ) : Proposal κ :=
  { a with summaries := a.summaries.map (Option.map g) }

/-- The groups of a column with their summaries moved. -/
def ColumnGroups.mapKeys (g : κ → κ) (c : ColumnGroups κ) : ColumnGroups κ :=
  { c with summaries := c.summaries.map (Option.map g) }

/-- The groups with the summaries of every column moved. -/
def Grouped.mapKeys (f : Nat → κ → κ) (g : Grouped κ) : Grouped κ :=
  { g with summaries := g.summaries.map (Row.mapKeys f) }

/-- The question about moved keys. -/
def Question.mapKeys (f : Nat → κ → κ) (q : Question κ) : Question κ :=
  ⟨q.column, q.keys.map (f q.column), q.prior.map (Option.map (f q.column))⟩

/-- The outcome with its summaries and questions moved. -/
def Outcome.mapKeys (f : Nat → κ → κ) (o : Outcome κ (Grouped κ)) : Outcome κ (Grouped κ) :=
  ⟨o.value.mapKeys f, o.events, o.questions.map (Question.mapKeys f)⟩

namespace Row

variable (f : Nat → κ → κ)

@[simp] theorem key?_mapKeys (row : Row κ) (column : Nat) :
    key? (mapKeys f row) column = (key? row column).map (f column) := by
  rw [key?, key?, mapKeys, List.getD_eq_getElem?_getD, List.getD_eq_getElem?_getD,
    List.getElem?_mapIdx]
  cases row[column]? <;> rfl

theorem mapKeys_map_range (n : Nat) (h : Nat → Option κ) :
    mapKeys f ((List.range n).map h) =
      (List.range n).map fun column => (h column).map (f column) := by
  refine List.ext_getElem (by simp [mapKeys]) fun i hi hi' => ?_
  simp [mapKeys]

theorem mapKeys_replicate_none (n : Nat) :
    mapKeys f (List.replicate n none) = List.replicate n none := by
  refine List.ext_getElem (by simp [mapKeys]) fun i hi hi' => ?_
  simp [mapKeys]

/-- The keys of a column of moved rows are the moved keys. -/
theorem filterMap_key?_mapKeys (rows : List (Row κ)) (column : Nat) :
    (rows.map (mapKeys f)).filterMap (key? · column) =
      (rows.filterMap (key? · column)).map (f column) := by
  rw [List.filterMap_map, List.map_filterMap]
  exact List.filterMap_congr fun row _ => key?_mapKeys f row column

end Row

theorem keysAt_map (g : κ → κ) (keys : List κ) (numbers : List Nat) :
    keysAt (keys.map g) numbers = (keysAt keys numbers).map g := by
  rw [keysAt, keysAt, List.map_filterMap]
  refine List.filterMap_congr fun n _ => ?_
  split
  · rfl
  · exact List.getElem?_map

/-- Hulls that move along with keys do so for the keys of each group. -/
theorem hulls_map {g : κ → κ} {hull : List κ → Option κ}
    (h : ∀ keys, hull (keys.map g) = (hull keys).map g) (keys : List κ)
    (groups : Quadrants (List Nat)) :
    (groups.map fun members => hull (keysAt (keys.map g) members)) =
      (groups.map fun members => hull (keysAt keys members)).map (Option.map g) := by
  ext q : 1
  simp only [Quadrants.get_map, keysAt_map, h]

/-! ## Operations -/

section

variable [Scalar α]

/-- **A change of the scale of costs** keeps how they compare and how they add up. -/
structure KeepsCosts (scale : α → α) : Prop extends Scalar.KeepsOrder scale where
  map_zero : scale 0 = 0
  map_infinity : scale Scalar.infinity = Scalar.infinity
  map_add : ∀ x y, scale (x + y) = scale x + scale y

namespace KeepsCosts

variable {scale : α → α} (h : KeepsCosts scale)

include h

theorem map_sum (costs : List α) :
    (costs.map scale).foldl (· + ·) 0 = scale (costs.foldl (· + ·) 0) := by
  have hfold : costs.foldl (fun x y => x + scale y) (scale 0) = scale (costs.foldl (· + ·) 0) :=
    List.foldl_hom scale fun x y => (h.map_add x y).symm
  rw [List.foldl_map, ← hfold, h.map_zero]

theorem map_least (costs : List α) :
    (costs.map scale).foldl Scalar.lesser Scalar.infinity =
      scale (costs.foldl Scalar.lesser Scalar.infinity) := by
  have hfold : costs.foldl (fun x y => Scalar.lesser x (scale y)) (scale Scalar.infinity) =
      scale (costs.foldl Scalar.lesser Scalar.infinity) :=
    List.foldl_hom scale fun x y => (h.map_lesser x y).symm
  rw [List.foldl_map, ← hfold, h.map_infinity]

end KeepsCosts

/-- **Operations that respect a change of coordinates** of the keys of each column. -/
structure KeyOps.Respects (s : KeyOps α κ) (f : Nat → κ → κ) : Prop where
  hull : ∀ column keys, s.hull column (keys.map (f column)) = (s.hull column keys).map (f column)
  cost : ∀ column, ∃ scale, KeepsCosts scale ∧ ∀ summary key,
    s.cost column (f column summary) (f column key) = scale (s.cost column summary key)
  propose : ∀ asked column keys prior,
    s.propose asked column (keys.map (f column)) (prior.map (Option.map (f column))) =
      (s.propose asked column keys prior).mapKeys (f column)
  same : ∀ column a b, s.same column (f column a) (f column b) = s.same column a b
  check : ∀ column key, s.check column key = .ok () → s.check column (f column key) = .ok ()

end

variable [Scalar α] {s : KeyOps α κ} {f : Nat → κ → κ}

/-! ## The keys of a column -/

theorem KeyOps.Respects.summariesOf_map (h : s.Respects f) (column : Nat) (keys : List κ)
    (groups : Quadrants (List Nat)) : s.summariesOf column (keys.map (f column)) groups =
      (s.summariesOf column keys groups).map (Option.map (f column)) :=
  hulls_map (h.hull column) keys groups

theorem quartileProposal_map (h : s.Respects f) (column : Nat) (keys : List κ) :
    quartileProposal s column (keys.map (f column)) =
      (quartileProposal s column keys).mapKeys (f column) := by
  simp only [quartileProposal, Proposal.mapKeys, List.length_map, h.summariesOf_map]

/-- Whether an answer is used does not depend on its summaries. -/
theorem acceptedProposal_map (h : s.Respects f) (column : Nat) (keys : List κ)
    (given : Proposal κ) :
    acceptedProposal s column (keys.map (f column)) (given.mapKeys (f column)) =
      (acceptedProposal s column keys given).map (Proposal.mapKeys (f column)) := by
  have hfault : ((given.mapKeys (f column)).close keys.length).fault? keys.length =
      (given.close keys.length).fault? keys.length := rfl
  have hempty : ((given.mapKeys (f column)).close keys.length).hasEmptyGroup =
      (given.close keys.length).hasEmptyGroup := rfl
  simp only [acceptedProposal, List.length_map, hfault, hempty, quartileProposal_map h]
  split
  · rfl
  · split <;> rfl

theorem fillSummaries_map (h : s.Respects f) (column : Nat) (keys : List κ) (a : Proposal κ) :
    fillSummaries s column (keys.map (f column)) (a.mapKeys (f column)) =
      (fillSummaries s column keys a).mapKeys (f column) := by
  simp only [fillSummaries, Proposal.mapKeys, h.summariesOf_map, Proposal.mk.injEq, true_and,
    and_true]
  ext q : 1
  simp only [Quadrants.get_mapWith, Quadrants.get_map, Option.map_or]

/-- The best matching is found by comparing costs of one column. -/
theorem bestMatching_map (h : s.Respects f) (column : Nat) (prior new : Quadrants (Option κ)) :
    bestMatching s column (prior.map (Option.map (f column))) (new.map (Option.map (f column))) =
      bestMatching s column prior new := by
  obtain ⟨scale, hscale, hcost⟩ := h.cost column
  have htotal : ∀ m, matchingCost s column (prior.map (Option.map (f column)))
      (new.map (Option.map (f column))) m = scale (matchingCost s column prior new m) := by
    intro m
    rw [matchingCost, matchingCost, ← hscale.map_sum, List.map_filterMap]
    refine congrArg (List.foldl _ _) (List.filterMap_congr fun q _ => ?_)
    rw [Quadrants.get_map, Quadrants.get_map]
    cases prior.get q with
    | none => rfl
    | some p => cases new.get (m.get q) <;> simp [hcost]
  simp only [bestMatching, htotal, hscale.lt_iff]

theorem rematch_map (h : s.Respects f) (column : Nat) (prior : Quadrants (Option κ))
    (a : Proposal κ) :
    rematch s column (prior.map (Option.map (f column))) (a.mapKeys (f column)) =
      (rematch s column prior a).map (Proposal.mapKeys (f column)) := by
  simp only [rematch, Proposal.mapKeys, bestMatching_map h, Traced.map, Traced.mk.injEq,
    Proposal.mk.injEq, true_and, and_true]
  ext q : 1
  simp only [Quadrants.get_ofFn, Quadrants.get_map]
  cases prior.get q with
  | none => rfl
  | some p =>
    cases a.summaries.get ((bestMatching s column prior a.summaries).get q) with
    | none => rfl
    | some n => exact h.hull column [p, n]

/-- **The split of a column** of moved keys has the same groups, and the moved summaries. -/
theorem groupColumn_map (h : s.Respects f) (config : PageConfig) (asked column : Nat)
    (keys : List κ) (prior : Quadrants (Option κ)) :
    groupColumn s config asked column (keys.map (f column)) (prior.map (Option.map (f column))) =
      (groupColumn s config asked column keys prior).map (ColumnGroups.mapKeys (f column)) := by
  have hprior : (prior.map (Option.map (f column))).toList.any Option.isSome =
      prior.toList.any Option.isSome := by
    simp [Quadrants.toList, Quadrant.all]
  simp only [groupColumn, h.propose, acceptedProposal_map h, Traced.map, fillSummaries_map h,
    hprior]
  have hcovers : ∀ a : Proposal κ, (a.mapKeys (f column)).coversPrior = a.coversPrior :=
    fun _ => rfl
  rw [hcovers]
  split
  · rw [rematch_map h]
    rfl
  · rfl

/-! ## The rows of a page -/

theorem summariesOfRows_map (h : s.Respects f) (rows : List (Row κ))
    (groups : Quadrants (List Nat)) :
    summariesOfRows s (rows.map (Row.mapKeys f)) groups =
      (summariesOfRows s rows groups).map (Row.mapKeys f) := by
  ext q : 1
  simp only [summariesOfRows, Quadrants.get_map, Row.mapKeys_map_range]
  refine List.map_congr_left fun column _ => ?_
  rw [← h.hull, List.map_filterMap]
  refine congrArg (s.hull column) (List.filterMap_congr fun i _ => ?_)
  rw [List.getElem?_map]
  cases rows[i]? with
  | none => rfl
  | some row => exact Row.key?_mapKeys f row column

omit [Scalar α] in
theorem withoutSummaries_map (groups : Quadrants (List Nat)) :
    (Grouped.withoutSummaries s groups).mapKeys f = Grouped.withoutSummaries s groups := by
  simp only [Grouped.withoutSummaries, Grouped.mapKeys, Grouped.mk.injEq, true_and]
  ext q : 1
  rw [Quadrants.get_map, Quadrants.get_const, Row.mapKeys_replicate_none]

/-- Where a row goes for its null, or its key, does not depend on the key. -/
theorem groupByNull_map (h : s.Respects f) (rows : List (Row κ)) (column : Nat) :
    groupByNull s (rows.map (Row.mapKeys f)) column = (groupByNull s rows column).mapKeys f := by
  have hkeys : (rows.map (Row.mapKeys f)).map (Row.key? · column) =
      (rows.map (Row.key? · column)).map (Option.map (f column)) := by
    rw [List.map_map, List.map_map]
    exact List.map_congr_left fun row _ => Row.key?_mapKeys f row column
  have hquadrant : ∀ number (key : Option κ),
      nullQuadrant number (key.map (f column)) = nullQuadrant number key := by
    intro number key
    cases key <;> rfl
  have hgroups : ∀ q, ((((rows.map (Row.mapKeys f)).map (Row.key? · column)).zipIdx.filter
      fun k => nullQuadrant (k.2 + 1) k.1 = q).map (·.2)) =
        (((rows.map (Row.key? · column)).zipIdx.filter
          fun k => nullQuadrant (k.2 + 1) k.1 = q).map (·.2)) := by
    intro q
    rw [hkeys, List.zipIdx_map, List.filter_map, List.map_map]
    simp only [Function.comp_def, Prod.map, hquadrant, id]
  simp only [groupByNull, hgroups, summariesOfRows_map h]
  split
  · rfl
  · rw [withoutSummaries_map]

omit [Scalar α] in
theorem ofColumn_map (column : Nat) (c : ColumnGroups κ) :
    Grouped.ofColumn s column (c.mapKeys (f column)) = (Grouped.ofColumn s column c).mapKeys f := by
  simp only [Grouped.ofColumn, Grouped.mapKeys, ColumnGroups.mapKeys, Grouped.mk.injEq, true_and]
  ext q : 1
  simp only [Quadrants.get_map, Row.mapKeys_map_range]
  refine List.map_congr_left fun i _ => ?_
  split
  · rename_i hi
    rw [hi]
  · rfl

theorem isIndifferent_map (h : s.Respects f) (column : Nat) (summaries : Quadrants (Option κ))
    (q : Quadrant) (key : κ) :
    isIndifferent s column (summaries.map (Option.map (f column))) q (f column key) =
      isIndifferent s column summaries q key := by
  obtain ⟨scale, hscale, hcost⟩ := h.cost column
  simp only [isIndifferent, Quadrants.get_map, Option.any_map, hcost, hscale.beq_eq]

theorem indifferentRows_map (h : s.Respects f) (column : Nat) (keys : List κ)
    (c : ColumnGroups κ) :
    indifferentRows s column (keys.map (f column)) (c.mapKeys (f column)) =
      indifferentRows s column keys c := by
  simp only [indifferentRows, ColumnGroups.mapKeys, List.getElem?_map, Option.any_map,
    isIndifferent_map h]

theorem allAlike_map (h : s.Respects f) (column : Nat) (summaries : Quadrants (Option κ)) :
    allAlike s column (summaries.map (Option.map (f column))) = allAlike s column summaries := by
  obtain ⟨a, b, c, d⟩ := summaries
  cases a <;> cases b <;> cases c <;> cases d <;> try rfl
  simp only [allAlike, Quadrants.map, Quadrants.mapWith, Quadrants.ofFn, Quadrants.get,
    Option.map_some, h.same]

theorem cheapestOf_map (h : s.Respects f) (summaries : Quadrants (Row κ))
    (row : Row κ) (column : Nat) (candidates : List Quadrant) :
    cheapestOf s (summaries.map (Row.mapKeys f)) (row.mapKeys f) column candidates =
      cheapestOf s summaries row column candidates := by
  obtain ⟨scale, hscale, hcost⟩ := h.cost column
  have hnullable : ∀ summary key : Option κ,
      nullableCost s column (summary.map (f column)) (key.map (f column)) =
        scale (nullableCost s column summary key) := by
    intro summary key
    cases summary <;> cases key <;>
      simp [nullableCost, hcost, hscale.map_zero, hscale.map_infinity]
  have hleast : (candidates.map fun q => scale (nullableCost s column
      (Row.key? (summaries.get q) column) (row.key? column))).foldl Scalar.lesser Scalar.infinity =
        scale ((candidates.map fun q => nullableCost s column
          (Row.key? (summaries.get q) column) (row.key? column)).foldl Scalar.lesser
            Scalar.infinity) := by
    rw [← hscale.map_least, List.map_map]
    rfl
  simp only [cheapestOf, Quadrants.get_map, Row.key?_mapKeys, hnullable, hleast, hscale.beq_eq]

theorem narrowCandidates_map (h : s.Respects f) (summaries : Quadrants (Row κ)) (row : Row κ)
    (columns : List Nat) (candidates : List Quadrant) :
    narrowCandidates s (summaries.map (Row.mapKeys f)) (row.mapKeys f) columns candidates =
      narrowCandidates s summaries row columns candidates := by
  induction columns generalizing candidates with
  | nil => rfl
  | cons column columns ih =>
    rw [narrowCandidates, narrowCandidates, cheapestOf_map h]
    simp only [ih]

theorem placeSingle_map (h : s.Respects f) (row : Row κ) (summaries : Quadrants (Row κ))
    (column : Nat) : placeSingle s (row.mapKeys f) (summaries.map (Row.mapKeys f)) column =
      placeSingle s row summaries column := by
  rw [placeSingle, placeSingle, narrowCandidates_map h]

/-! ## The columns -/

theorem Outcome.after_mapKeys (events : List Event) (questions : List (Question κ))
    (o : Outcome κ (Grouped κ)) : (o.after events questions).mapKeys f =
      (o.mapKeys f).after events (questions.map (Question.mapKeys f)) := by
  simp only [mapKeys, after, List.map_append]

/-- The split of the columns from one on gives the moved groups for moved rows. -/
def Next.Respects (next : Next κ) (f : Nat → κ → κ) (column : Nat) : Prop :=
  ∀ asked rows prior, next asked (rows.map (Row.mapKeys f)) (prior.map (Option.map (f column))) =
    (next asked rows prior).mapKeys f

/-- **A column hands on the same rows** if all keys are moved. -/
theorem handOn_map (h : s.Respects f) {next : Next κ} {column : Nat}
    (hnext : next.Respects f (column + 1)) (asked : Nat) (rows : List (Row κ)) (keys : List κ)
    (c : ColumnGroups κ) :
    handOn s next asked (rows.map (Row.mapKeys f)) column (keys.map (f column))
      (c.mapKeys (f column)) = (handOn s next asked rows column keys c).mapKeys f := by
  have hpassed : next asked (rows.map (Row.mapKeys f)) noPrior =
      (next asked rows noPrior).mapKeys f := hnext asked rows noPrior
  have halike : allAlike s column (c.mapKeys (f column)).summaries =
      allAlike s column c.summaries := allAlike_map h column c.summaries
  have hgroups : (c.mapKeys (f column)).groups = c.groups := rfl
  have hplace : ∀ (only : Nat) (remaining : Quadrants (Row κ)),
      placeSingle s ((rows.map (Row.mapKeys f)).getD only []) (remaining.map (Row.mapKeys f))
        (column + 1) = placeSingle s (rows.getD only []) remaining (column + 1) := by
    intro only remaining
    have hrow : (rows.map (Row.mapKeys f)).getD only [] = Row.mapKeys f (rows.getD only []) := by
      rw [List.getD_eq_getElem?_getD, List.getD_eq_getElem?_getD, List.getElem?_map]
      cases rows[only]? <;> rfl
    rw [hrow, placeSingle_map h]
  -- the rows handed on, and what is left of the groups, are moved like the rest
  have hinner : ∀ (moved : List Nat) (remaining : Quadrants (Row κ)),
      next asked (moved.filterMap ((rows.map (Row.mapKeys f))[·]?))
        ((remaining.map (Row.mapKeys f)).map fun summaries => Row.key? summaries (column + 1)) =
      (next asked (moved.filterMap (rows[·]?))
        (remaining.map fun summaries => Row.key? summaries (column + 1))).mapKeys f := by
    intro moved remaining
    rw [← hnext]
    congr 1
    · rw [List.map_filterMap]
      exact List.filterMap_congr fun i _ => List.getElem?_map
    · ext q : 1
      simp only [Quadrants.get_map, Row.key?_mapKeys]
  simp only [handOn, halike, indifferentRows_map h, hgroups, hpassed, summariesOfRows_map h]
  split
  · rw [Outcome.after_mapKeys, List.map_nil]
  split
  · rw [ofColumn_map]
    rfl
  split
  · rw [Outcome.after_mapKeys, List.map_nil]
  split
  · simp only [hplace]
    rfl
  · simp only [hinner]
    rfl

/-- **One column splits moved rows alike**, if the later ones do. -/
theorem splitStep_map (h : s.Respects f) (config : PageConfig) {next? : Option (Next κ)}
    {column : Nat} (hnext : ∀ next, next? = some next → next.Respects f (column + 1)) :
    Next.Respects (splitStep s config next? column) f column := by
  intro asked rows prior
  simp only [splitStep, Row.filterMap_key?_mapKeys, List.isEmpty_map, List.length_map,
    groupByNull_map h, groupColumn_map h]
  -- a column that decides on its own
  have hown : ∀ c : Traced (ColumnGroups κ),
      (⟨Grouped.ofColumn s column (c.value.mapKeys (f column)), c.events,
        [⟨column, (rows.filterMap (Row.key? · column)).map (f column),
          prior.map (Option.map (f column))⟩]⟩ : Outcome κ (Grouped κ)) =
      Outcome.mapKeys f ⟨Grouped.ofColumn s column c.value, c.events,
        [⟨column, rows.filterMap (Row.key? · column), prior⟩]⟩ := by
    intro c
    rw [ofColumn_map]
    rfl
  split
  · cases next? with
    | none => simp only [Outcome.mapKeys, withoutSummaries_map, List.map_nil]
    | some next =>
      have hpassed : next asked (rows.map (Row.mapKeys f)) noPrior =
          (next asked rows noPrior).mapKeys f := hnext next rfl asked rows noPrior
      simp only [hpassed, Outcome.after_mapKeys, List.map_nil]
  split
  · rfl
  cases next? with
  | none => exact hown _
  | some next =>
    dsimp only
    split
    · rw [Outcome.after_mapKeys, ← handOn_map h (hnext next rfl)]
      rfl
    · exact hown _

/-- **The columns from one on split moved rows alike**, by induction on how many there are. -/
theorem splitFrom_map (h : s.Respects f) (config : PageConfig) (later column : Nat) :
    Next.Respects (splitFrom s config later column) f column := by
  induction later generalizing column with
  | zero => exact splitStep_map h config fun _ heq => by cases heq
  | succ later ih =>
    refine splitStep_map h config fun next heq => ?_
    cases heq
    exact ih (column + 1)

/-! ## The page -/

/-- **A split page in other coordinates**: the same groups and events, and the moved summaries. -/
structure Outcome.MovesTo (f : Nat → κ → κ) (o o' : Outcome κ (SplitPage κ)) : Prop where
  rows : ∀ q, (o'.value.groups.get q).rows = (o.value.groups.get q).rows
  events : o'.events = o.events
  summaries : ∀ q, (o'.value.groups.get q).summaries =
    Row.mapKeys f (o.value.groups.get q).summaries

/-- **The split of a page does not depend on the coordinates of its keys.** -/
theorem splitPage_map (h : s.Respects f) {config : PageConfig} {rows : List (Row κ)}
    {o : Outcome κ (SplitPage κ)} (ho : splitPage s config rows = .ok o) :
    ∃ o', splitPage s config (rows.map (Row.mapKeys f)) = .ok o' ∧ o.MovesTo f o' := by
  obtain ⟨⟨hcolumns, hrows, hcheck⟩, rfl⟩ := (splitPage_eq_ok_iff s).1 ho
  have hchecked : checkRows s (rows.map (Row.mapKeys f)) = .ok () := by
    rw [checkRows_eq_ok_iff] at hcheck ⊢
    intro row hrow column hcolumn key hkey
    obtain ⟨old, hold, rfl⟩ := List.mem_map.1 hrow
    rw [Row.key?_mapKeys, Option.map_eq_some_iff] at hkey
    obtain ⟨k, hk, rfl⟩ := hkey
    exact h.check column k (hcheck old hold column hcolumn k hk)
  refine ⟨_, (splitPage_eq_ok_iff s).2 ⟨⟨hcolumns, by rwa [List.length_map], hchecked⟩, rfl⟩, ?_⟩
  have hsplit : splitFrom s config (s.columns - 1) 0 0 (rows.map (Row.mapKeys f)) noPrior =
      (splitFrom s config (s.columns - 1) 0 0 rows noPrior).mapKeys f :=
    splitFrom_map h config _ 0 0 rows noPrior
  rw [hsplit]
  generalize splitFrom s config (s.columns - 1) 0 0 rows noPrior = split
  refine ⟨fun q => ?_, rfl, fun q => ?_⟩
  · simp only [Grouped.page, Outcome.mapKeys, Grouped.mapKeys, Quadrants.get_ofFn]
  · simp only [Grouped.page, Outcome.mapKeys, Grouped.mapKeys, Quadrants.get_ofFn,
      summariesOfRows_map h]
    split <;> rw [Quadrants.get_map]

end QuadIndex
