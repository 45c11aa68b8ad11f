import Mathlib.Data.List.Chain
import QuadIndex.Proofs.Page.HandOn

/-!
# What is asked about a page

A split asks how to split the keys of a column, at most once for each column. Whoever answers can
rely on what a question holds: at least two keys, those of some rows in the order of the page, and
summaries of earlier entries only where the column before has handed on the rows.

The questions are also all that a split asks. Whoever answers them alike gets the same split.

* `Question.IsAbout`: the rows that a question is about.
* `Follows`: one question after another, and where summaries of earlier entries come from.
* `handOn_asks`, `splitStep_asks`, `splitFrom_asks`: the questions about some rows of a page.
* `splitFrom_settles`: nothing else is asked.
* `splitPage_asksInTurn`: the questions about a page.
-/

namespace QuadIndex

variable {α κ : Type}

/-! ## Questions and their rows -/

/-- The entries of a question: its keys, numbered from one. -/
def Question.entries (q : Question κ) : List (Nat × κ) :=
  q.keys.zipIdx.map fun k => (k.2 + 1, k.1)

/-- **The rows that a question is about**, by their places in the page: there are at least two, they
come in the order of the page, and the entries are their keys, numbered from one as in an answer. -/
structure Question.IsAbout (q : Question κ) (page : List (Row κ)) (places : List Nat) : Prop where
  ascending : places.Pairwise (· < ·)
  two_le : 2 ≤ places.length
  numbers : q.entries.map (·.1) = List.range' 1 places.length
  named : ∀ e ∈ q.entries, keysAt q.keys [e.1] = [e.2]
  keys : q.entries.map (fun e => some e.2) =
    places.map fun i => (page[i]?).bind (·.key? q.column)

/-- The rows at some places of a page. -/
def rowsAt (page : List (Row κ)) (places : List Nat) : List (Row κ) :=
  places.filterMap (page[·]?)

/-- A question, the places of the rows that it is about, and how many questions come before it. -/
structure Asked (κ : Type) where
  question : Question κ
  places : List Nat
  before : Nat

section

variable [Scalar α] (s : KeyOps α κ) (config : PageConfig) (page : List (Row κ))

/-- How the column of a question splits its rows. -/
def Asked.split (a : Asked κ) : ColumnGroups κ :=
  (groupColumn s config a.before a.question.column a.question.keys a.question.prior).value

/-- The rows of a question that do not care how its column splits them, in order. -/
structure Asked.Undecided (a : Asked κ) (moved : List Nat) : Prop where
  ascending : moved.Pairwise (· < ·)
  mem_iff : ∀ i, i ∈ moved ↔
    IsUndecided s (rowsAt page a.places) a.question.column (a.split s config) i

/-- **The second question is about the rows that the first one's column hands on** to the column
after it: the column is not given up, and these are its rows that do not care. -/
structure HandsOn (a : Asked κ) (moved : List Nat) (b : Asked κ) : Prop where
  column_eq : b.question.column = a.question.column + 1
  undecided : a.Undecided s config page moved
  notGivenUp : ¬ GivenUp s a.question.column (a.split s config) moved
  places_eq : b.places = moved.filterMap (a.places[·]?)

/-- **One question after another**, about a later column. It comes with summaries of earlier entries
only if it is about rows that were handed on to its column. Then these are the hulls of the keys, in
its own column, of the rows that were not handed on. -/
structure Follows (a b : Asked κ) : Prop where
  before_eq : b.before = a.before + 1
  column_lt : a.question.column < b.question.column
  prior_handedOn : ∀ moved, HandsOn s config page a moved b → b.question.prior =
    columnHulls s (rowsAt page a.places) b.question.column ((a.split s config).groups.without moved)
  prior_fresh : (¬ ∃ moved, HandsOn s config page a moved b) → b.question.prior = noPrior

/-- **The questions of a split** of the rows at some places, from a column on: the first is about
all these rows, and each follows the one before it. Only the first column comes with the summaries
that the split was given. -/
structure AskedFrom (column asked : Nat) (places : List Nat) (prior : Quadrants (Option κ))
    (journal : List (Asked κ)) : Prop where
  isAbout : ∀ a ∈ journal, a.question.column < s.columns ∧ a.question.IsAbout page a.places
  first : ∀ a ∈ journal.head?, a.before = asked ∧ a.places = places ∧ column ≤ a.question.column ∧
    a.question.prior = if a.question.column = column then prior else noPrior
  chain : journal.IsChain (Follows s config page)

end

/-! ## Places -/

/-- If a partial function is defined on all members, then its results stand where they do. -/
theorem map_some_filterMap {β γ : Type} {f : β → Option γ} {xs : List β}
    (h : (xs.filterMap f).length = xs.length) : (xs.filterMap f).map some = xs.map f := by
  rw [List.length_filterMap_eq_countP, List.countP_eq_length] at h
  rw [List.map_filterMap, ← List.filterMap_eq_map]
  refine List.filterMap_congr fun x hx => ?_
  obtain ⟨y, hy⟩ := Option.isSome_iff_exists.1 (h x hx)
  rw [hy, Function.comp_apply, hy, Option.map_some]

/-- Some places of a page, in order. -/
structure ArePlaces (page : List (Row κ)) (places : List Nat) : Prop where
  ascending : places.Pairwise (· < ·)
  lt_length : ∀ i ∈ places, i < page.length

namespace ArePlaces

variable {page : List (Row κ)} {places moved : List Nat}

theorem length_rowsAt (h : ArePlaces page places) :
    (rowsAt page places).length = places.length := by
  rw [rowsAt, List.length_filterMap_eq_countP, List.countP_eq_length]
  intro i hi
  simpa using h.lt_length i hi

theorem getElem?_rowsAt (h : ArePlaces page places) (i : Nat) :
    (rowsAt page places)[i]? = (places[i]?).bind (page[·]?) :=
  getElem?_filterMap_of_length_eq h.length_rowsAt i

/-- Some of the rows at some places are at some of the places. -/
theorem filterMap_rowsAt (h : ArePlaces page places) :
    moved.filterMap ((rowsAt page places)[·]?) =
      rowsAt page (moved.filterMap (places[·]?)) :=
  (List.filterMap_congr fun i _ => h.getElem?_rowsAt i).trans List.filterMap_filterMap.symm

theorem filterMap (h : ArePlaces page places) (hmoved : moved.Pairwise (· < ·)) :
    ArePlaces page (moved.filterMap (places[·]?)) := by
  constructor
  case ascending =>
    refine hmoved.filterMap _ fun i j hij p hp q hq => ?_
    obtain ⟨hi, rfl⟩ := List.getElem?_eq_some_iff.1 hp
    obtain ⟨hj, rfl⟩ := List.getElem?_eq_some_iff.1 hq
    exact List.pairwise_iff_getElem.1 h.ascending i j hi hj hij
  case lt_length =>
    intro p hp
    obtain ⟨i, -, hi⟩ := List.mem_filterMap.1 hp
    exact h.lt_length p (List.mem_of_getElem? hi)

/-- **A question about all rows at some places**, if none has a null in the column. -/
theorem isAbout (h : ArePlaces page places) (htwo : 2 ≤ places.length) {column : Nat}
    (hfull : ((rowsAt page places).filterMap (·.key? column)).length = places.length)
    (prior : Quadrants (Option κ)) :
    Question.IsAbout ⟨column, (rowsAt page places).filterMap (·.key? column), prior⟩ page
      places := by
  constructor
  case ascending => exact h.ascending
  case two_le => exact htwo
  case numbers =>
    rw [Question.entries, List.map_map]
    change List.map ((· + 1) ∘ Prod.snd) _ = _
    rw [← List.map_map, List.zipIdx_map_snd, ← List.range'_succ_left, hfull]
  case named =>
    intro e he
    obtain ⟨⟨key, i⟩, hmem, rfl⟩ := List.mem_map.1 he
    have hkey := List.mk_mem_zipIdx_iff_getElem?.1 hmem
    change ([i + 1].filterMap fun n => if n = 0 then none else _[n - 1]?) = [key]
    rw [List.filterMap_cons_some (by simpa using hkey), List.filterMap_nil]
  case keys =>
    have hrows : (rowsAt page places).map some = places.map (page[·]?) :=
      map_some_filterMap h.length_rowsAt
    rw [Question.entries, List.map_map]
    change List.map (some ∘ Prod.fst) _ = _
    rw [← List.map_map, List.zipIdx_map_fst, map_some_filterMap (hfull.trans h.length_rowsAt.symm)]
    calc (rowsAt page places).map (·.key? column)
        = ((rowsAt page places).map some).map (·.bind (·.key? column)) := by
          rw [List.map_map]
          rfl
      _ = places.map fun i => (page[i]?).bind (·.key? column) := by
          rw [hrows, List.map_map]
          rfl

end ArePlaces

/-! ## One column -/

variable [Scalar α] {s : KeyOps α κ}

/-- **What a column asks of the next ones**: nothing if no two rows are handed on, and otherwise how
to split these, with the hulls of the rows that stay as prior summaries. -/
theorem questions_handOn (next : Next κ) (asked : Nat) (rows : List (Row κ)) {column : Nat}
    {keys : List κ} {c : ColumnGroups κ} (hcolumn : column + 1 < s.columns)
    (h : ¬ GivenUp s column c (indifferentRows s column keys c)) :
    let moved := indifferentRows s column keys c
    (handOn s next asked rows column keys c).questions = if moved.length < 2 then [] else
      (next asked (moved.filterMap (rows[·]?))
        (columnHulls s rows (column + 1) (c.groups.without moved))).questions := by
  intro moved
  match hmoved : indifferentRows s column keys c with
  | [] => rw [handOn_of_nil h hmoved, if_pos (by simp [moved, hmoved])]
  | [_] =>
    rw [handOn_of_singleton h hmoved, if_pos (by simp [moved, hmoved])]
  | _ :: _ :: _ =>
    have hlen : 2 ≤ (indifferentRows s column keys c).length := by simp [hmoved]
    rw [handOn_of_two_le h hlen, if_neg (Nat.not_lt.2 hlen), map_key?_summariesOfRows s hcolumn]

/-- The split of the columns from one on asks about whatever rows of a page it is given. -/
def Next.Asks (s : KeyOps α κ) (config : PageConfig) (page : List (Row κ)) (column : Nat)
    (next : Next κ) : Prop :=
  ∀ (asked : Nat) (places : List Nat) (prior : Quadrants (Option κ)), ArePlaces page places →
    2 ≤ places.length → ∃ journal, AskedFrom s config page column asked places prior journal ∧
      journal.map (·.question) = (next asked (rowsAt page places) prior).questions

variable {config : PageConfig} {page : List (Row κ)} {column asked : Nat} {places : List Nat}

theorem askedFrom_nil (prior : Quadrants (Option κ)) :
    AskedFrom s config page column asked places prior [] := by
  constructor
  case isAbout => simp
  case first => simp
  case chain => exact .nil

/-- A column that is passed over leaves the first question to the next one. -/
theorem AskedFrom.passed {prior : Quadrants (Option κ)} {journal : List (Asked κ)}
    (h : AskedFrom s config page (column + 1) asked places noPrior journal) :
    AskedFrom s config page column asked places prior journal := by
  refine ⟨h.isAbout, fun a ha => ?_, h.chain⟩
  obtain ⟨hbefore, hplaces, hcolumn, hprior⟩ := h.first a ha
  refine ⟨hbefore, hplaces, by omega, ?_⟩
  rw [ite_self] at hprior
  rw [hprior, if_neg (by omega)]

/-- One more question before those that follow it. -/
theorem AskedFrom.cons {keys : List κ} {prior : Quadrants (Option κ)} {journal : List (Asked κ)}
    (habout : column < s.columns ∧ Question.IsAbout ⟨column, keys, prior⟩ page places)
    (hjournal : ∀ b ∈ journal, b.question.column < s.columns ∧ b.question.IsAbout page b.places)
    (hchain : journal.IsChain (Follows s config page))
    (hfollows : ∀ b ∈ journal.head?,
      Follows s config page ⟨⟨column, keys, prior⟩, places, asked⟩ b) :
    AskedFrom s config page column asked places prior
      (⟨⟨column, keys, prior⟩, places, asked⟩ :: journal) := by
  constructor
  case isAbout => exact List.forall_mem_cons.2 ⟨habout, hjournal⟩
  case first =>
    intro a ha
    cases ha
    exact ⟨rfl, rfl, Nat.le_refl _, (if_pos rfl).symm⟩
  case chain => exact List.isChain_cons.2 ⟨hfollows, hchain⟩

section

variable {a : Asked κ} {moved : List Nat} {journal : List (Asked κ)}

theorem Asked.Undecided.unique {other : List Nat} (h : a.Undecided s config page moved)
    (h' : a.Undecided s config page other) : other = moved :=
  h'.ascending.eq_of_mem_iff h.ascending fun i => (h'.mem_iff i).trans (h.mem_iff i).symm

/-- Rows that do not care are rows of the question. -/
theorem Asked.Undecided.length_places (h : a.Undecided s config page moved)
    (hplaces : ArePlaces page a.places) :
    (moved.filterMap (a.places[·]?)).length = moved.length := by
  rw [List.length_filterMap_eq_countP, List.countP_eq_length]
  intro i hi
  obtain ⟨q, own, row, key, -, -, hrow, -⟩ := (h.mem_iff i).1 hi
  rw [hplaces.getElem?_rowsAt, Option.bind_eq_some_iff] at hrow
  obtain ⟨place, hplace, -⟩ := hrow
  rw [hplace]
  rfl

/-- All rows again, after a column that is given up. -/
theorem AskedFrom.follows_of_givenUp (hmoved : a.Undecided s config page moved)
    (hgiven : GivenUp s a.question.column (a.split s config) moved)
    (h : AskedFrom s config page (a.question.column + 1) (a.before + 1) a.places noPrior journal) :
    ∀ b ∈ journal.head?, Follows s config page a b := by
  intro b hb
  obtain ⟨hbefore, -, hcolumn, hprior⟩ := h.first b hb
  rw [ite_self] at hprior
  constructor
  case before_eq => exact hbefore
  case column_lt => exact hcolumn
  case prior_handedOn =>
    intro other hon
    exact absurd (hmoved.unique hon.undecided ▸ hgiven) hon.notGivenUp
  case prior_fresh => exact fun _ => hprior

/-- The rows that do not care, after a column that is not given up. -/
theorem AskedFrom.follows_of_handedOn (hmoved : a.Undecided s config page moved)
    (hgiven : ¬ GivenUp s a.question.column (a.split s config) moved)
    (h : AskedFrom s config page (a.question.column + 1) (a.before + 1)
      (moved.filterMap (a.places[·]?)) (columnHulls s (rowsAt page a.places)
        (a.question.column + 1) ((a.split s config).groups.without moved)) journal) :
    ∀ b ∈ journal.head?, Follows s config page a b := by
  intro b hb
  obtain ⟨hbefore, hplaces, hcolumn, hprior⟩ := h.first b hb
  constructor
  case before_eq => exact hbefore
  case column_lt => exact hcolumn
  case prior_handedOn =>
    intro other hon
    rw [hprior, if_pos hon.column_eq, hmoved.unique hon.undecided, hon.column_eq]
  case prior_fresh =>
    intro hnone
    -- only a column with nothing but nulls can lie between the two
    by_cases hnext : b.question.column = a.question.column + 1
    · exact absurd ⟨moved, hnext, hmoved, hgiven, hplaces⟩ hnone
    · rw [hprior, if_neg hnext]

end

/-- **What is asked once a column has been**: about all rows again if it is given up, and otherwise
about those that it hands on. -/
theorem handOn_asks {next : Next κ} (hnext : next.Asks s config page (column + 1))
    (hcolumn : column + 1 < s.columns) (hplaces : ArePlaces page places)
    (htwo : 2 ≤ places.length) (prior : Quadrants (Option κ))
    (hfull : ((rowsAt page places).filterMap (·.key? column)).length = places.length) :
    let keys := (rowsAt page places).filterMap (·.key? column)
    let split := (groupColumn s config asked column keys prior).value
    ∃ journal, AskedFrom s config page column asked places prior
        (⟨⟨column, keys, prior⟩, places, asked⟩ :: journal) ∧
      journal.map (·.question) =
        (handOn s next (asked + 1) (rowsAt page places) column keys split).questions := by
  intro keys split
  have hrows : keys.length = (rowsAt page places).length :=
    hfull.trans hplaces.length_rowsAt.symm
  have hsplit : split.groups.IsPartition (rowsAt page places).length := by
    rw [← hrows]
    exact groupColumn_isPartition s config asked column keys prior
  have habout : column < s.columns ∧ Question.IsAbout ⟨column, keys, prior⟩ page places :=
    ⟨by omega, hplaces.isAbout htwo hfull prior⟩
  obtain ⟨moved, hmoved⟩ : ∃ moved, indifferentRows s column keys split = moved := ⟨_, rfl⟩
  have hundecided : Asked.Undecided s config page ⟨⟨column, keys, prior⟩, places, asked⟩ moved :=
    ⟨hmoved ▸ indifferentRows_ascending hsplit keys,
      fun i => hmoved ▸ mem_indifferentRows_iff hrows i⟩
  by_cases hgiven : GivenUp s column split moved
  · obtain ⟨events, hpassed⟩ := handOn_of_givenUp (rowsAt page places) (hmoved ▸ hgiven)
    obtain ⟨journal, hjournal, hquestions⟩ := hnext (asked + 1) places noPrior hplaces htwo
    refine ⟨journal, .cons habout hjournal.isAbout hjournal.chain
      (hjournal.follows_of_givenUp hundecided hgiven), ?_⟩
    rw [hquestions, hpassed]
    rfl
  have hasked := questions_handOn next (asked + 1) (rowsAt page places) hcolumn (hmoved ▸ hgiven)
  rw [hmoved] at hasked
  by_cases hfew : moved.length < 2
  · refine ⟨[], .cons habout (by simp) .nil (by simp), ?_⟩
    rw [hasked, if_pos hfew]
    rfl
  · have hlength : (moved.filterMap (places[·]?)).length = moved.length :=
      hundecided.length_places hplaces
    obtain ⟨journal, hjournal, hquestions⟩ := hnext (asked + 1) (moved.filterMap (places[·]?))
      (columnHulls s (rowsAt page places) (column + 1) (split.groups.without moved))
      (hplaces.filterMap hundecided.ascending) (by omega)
    refine ⟨journal, .cons habout hjournal.isAbout hjournal.chain
      (hjournal.follows_of_handedOn hundecided hgiven), ?_⟩
    rw [hquestions, hasked, if_neg hfew, hplaces.filterMap_rowsAt]

/-- **What one column asks**, if the next ones ask about whatever rows they are given. -/
theorem splitStep_asks {next? : Option (Next κ)} (hcolumn : column < s.columns)
    (hnext : ∀ next, next? = some next →
      column + 1 < s.columns ∧ next.Asks s config page (column + 1)) :
    Next.Asks s config page column (splitStep s config next? column) := by
  intro asked places prior hplaces htwo
  unfold splitStep
  simp only
  split
  · split
    · rename_i next
      obtain ⟨journal, hjournal, hquestions⟩ :=
        (hnext next rfl).2 asked places noPrior hplaces htwo
      exact ⟨journal, hjournal.passed, hquestions⟩
    · exact ⟨[], askedFrom_nil prior, rfl⟩
  split
  · exact ⟨[], askedFrom_nil prior, rfl⟩
  rename_i hnulls
  have hfull : ((rowsAt page places).filterMap (·.key? column)).length = places.length := by
    have hle := List.length_filterMap_le (Row.key? · column) (rowsAt page places)
    rw [hplaces.length_rowsAt] at hle hnulls
    omega
  have hlast : ∃ journal, AskedFrom s config page column asked places prior journal ∧
      journal.map (·.question) =
        [⟨column, (rowsAt page places).filterMap (·.key? column), prior⟩] :=
    ⟨[⟨⟨column, _, prior⟩, places, asked⟩],
      .cons ⟨hcolumn, hplaces.isAbout htwo hfull prior⟩ (by simp) .nil (by simp), rfl⟩
  split
  · rename_i next
    split
    · obtain ⟨hlt, hasks⟩ := hnext next rfl
      obtain ⟨journal, hjournal, hquestions⟩ := handOn_asks hasks hlt hplaces htwo prior hfull
      exact ⟨_, hjournal, congrArg (List.cons _) hquestions⟩
    · exact hlast
  · exact hlast

/-- **What the columns from one on ask**, by induction on how many there are. -/
theorem splitFrom_asks (s : KeyOps α κ) (config : PageConfig) (page : List (Row κ))
    (later column : Nat) (hcolumns : column + later < s.columns) :
    Next.Asks s config page column (splitFrom s config later column) := by
  induction later generalizing column with
  | zero => exact splitStep_asks hcolumns fun _ h => by cases h
  | succ later ih =>
    refine splitStep_asks (by omega) fun next h => ?_
    cases h
    exact ⟨by omega, ih (column + 1) (by omega)⟩

/-! ## All that is asked -/

/-- Answers to questions, by how many came before each. -/
abbrev Answers (κ : Type) :=
  (asked column : Nat) → List κ → (prior : Quadrants (Option κ)) → Proposal κ

/-- The same operations with other answers. -/
def KeyOps.withAnswers (s : KeyOps α κ) (propose : Answers κ) : KeyOps α κ :=
  { s with propose }

variable {propose : Answers κ}

/-- The answers are the same to some questions, of which the first has the number `asked`. -/
def KeyOps.SameAnswers (s : KeyOps α κ) (propose : Answers κ) (asked : Nat)
    (questions : List (Question κ)) : Prop :=
  ∀ k q, questions[k]? = some q → propose (asked + k) q.column q.keys q.prior =
    s.propose (asked + k) q.column q.keys q.prior

/-- The second of two splits of the columns from one on comes out as the first, wherever the answers
are the same to all that the first asks. -/
def Next.Settles (s : KeyOps α κ) (propose : Answers κ) (next next' : Next κ) : Prop :=
  ∀ (asked : Nat) (rows : List (Row κ)) (prior : Quadrants (Option κ)),
    s.SameAnswers propose asked (next asked rows prior).questions →
      next' asked rows prior = next asked rows prior

omit [Scalar α] in
theorem KeyOps.sameAnswers_cons {q : Question κ} {questions : List (Question κ)} :
    s.SameAnswers propose asked (q :: questions) ↔
      propose asked q.column q.keys q.prior = s.propose asked q.column q.keys q.prior ∧
        s.SameAnswers propose (asked + 1) questions := by
  constructor
  · intro h
    refine ⟨h 0 q rfl, fun k q' hq => ?_⟩
    rw [Nat.add_assoc, Nat.add_comm 1 k]
    exact h (k + 1) q' hq
  · rintro ⟨hfirst, hrest⟩ (_ | k) q' hq
    · cases hq
      exact hfirst
    · rw [Nat.add_comm k 1, ← Nat.add_assoc]
      exact hrest k q' hq

/-- The split of a column depends on one answer only. -/
theorem groupColumn_withAnswers {keys : List κ} {prior : Quadrants (Option κ)}
    (h : propose asked column keys prior = s.propose asked column keys prior) :
    groupColumn (s.withAnswers propose) config asked column keys prior =
      groupColumn s config asked column keys prior := by
  unfold groupColumn
  rw [show (s.withAnswers propose).propose asked column keys prior = _ from h]
  rfl

/-- A single row is placed by costs alone. -/
theorem placeSingle_withAnswers (row : Row κ) (summaries : Quadrants (List (Option κ))) :
    placeSingle (s.withAnswers propose) row summaries column =
      placeSingle s row summaries column := by
  have hnarrow (columns : List Nat) (candidates : List Quadrant) :
      narrowCandidates (s.withAnswers propose) summaries row columns candidates =
        narrowCandidates s summaries row columns candidates := by
    induction columns generalizing candidates with
    | nil => rfl
    | cons column columns ih =>
      rw [narrowCandidates, narrowCandidates, ih]
      rfl
  exact congrArg (fun kept : List Quadrant => kept.head?.getD .northWest) (hnarrow _ _)

/-- What is handed on does not depend on answers, and the next columns settle the rest. -/
theorem handOn_settles {next next' : Next κ} (hnext : next.Settles s propose next')
    {rows : List (Row κ)} {keys : List κ} {c : ColumnGroups κ}
    (h : s.SameAnswers propose asked (handOn s next asked rows column keys c).questions) :
    handOn (s.withAnswers propose) next' asked rows column keys c =
      handOn s next asked rows column keys c := by
  have hsame : handOn (s.withAnswers propose) next' asked rows column keys c =
      handOn s next' asked rows column keys c := by
    unfold handOn
    simp only [placeSingle_withAnswers]
    rfl
  rw [hsame]
  by_cases hgiven : GivenUp s column c (indifferentRows s column keys c)
  · obtain ⟨events, hpassed⟩ := handOn_of_givenUp rows hgiven
    rw [hpassed] at h ⊢
    rw [hpassed, hnext asked rows noPrior h]
  match hmoved : indifferentRows s column keys c with
  | [] => rw [handOn_of_nil hgiven hmoved, handOn_of_nil hgiven hmoved]
  | [_] => rw [handOn_of_singleton hgiven hmoved, handOn_of_singleton hgiven hmoved]
  | _ :: _ :: _ =>
    have hlen : 2 ≤ (indifferentRows s column keys c).length := by simp [hmoved]
    rw [handOn_of_two_le hgiven hlen] at h ⊢
    rw [handOn_of_two_le hgiven hlen, hnext _ _ _ h]

/-- One column, if the next ones are settled. -/
theorem splitStep_settles {next? next?' : Option (Next κ)}
    (hnext : Option.Rel (Next.Settles s propose) next? next?') :
    Next.Settles s propose (splitStep s config next? column)
      (splitStep (s.withAnswers propose) config next?' column) := by
  intro asked rows prior h
  unfold splitStep at h ⊢
  dsimp only at h ⊢
  by_cases hnull : (rows.filterMap (·.key? column)).isEmpty = true
  · simp only [if_pos hnull] at h ⊢
    cases hnext with
    | none => rfl
    | some hnext =>
      dsimp only
      rw [hnext asked rows noPrior h]
  by_cases hsome : (rows.filterMap (·.key? column)).length < rows.length
  · simp only [if_neg hnull, if_pos hsome]
    rfl
  simp only [if_neg hnull, if_neg hsome] at h ⊢
  cases hnext with
  | none =>
    obtain ⟨hfirst, -⟩ := KeyOps.sameAnswers_cons.1 h
    rw [groupColumn_withAnswers hfirst]
    rfl
  | some hnext =>
    by_cases hhands : config.handsOn = true
    · simp only [if_pos hhands] at h ⊢
      obtain ⟨hfirst, hrest⟩ := KeyOps.sameAnswers_cons.1 h
      rw [groupColumn_withAnswers hfirst, handOn_settles hnext hrest]
    · simp only [if_neg hhands] at h ⊢
      obtain ⟨hfirst, -⟩ := KeyOps.sameAnswers_cons.1 h
      rw [groupColumn_withAnswers hfirst]
      rfl

/-- **Whoever answers the questions of a split alike gets the same split**, by induction on the
columns. -/
theorem splitFrom_settles (s : KeyOps α κ) (config : PageConfig) (propose : Answers κ)
    (later column : Nat) :
    Next.Settles s propose (splitFrom s config later column)
      (splitFrom (s.withAnswers propose) config later column) := by
  induction later generalizing column with
  | zero => exact splitStep_settles .none
  | succ later ih => exact splitStep_settles (.some (ih (column + 1)))

/-- **What a split asks about a page, and that it asks nothing else.** The journal holds, for each
question, the rows that it is about and how many questions come before it. -/
structure AsksInTurn (s : KeyOps α κ) (config : PageConfig) (page : List (Row κ))
    (journal : List (Asked κ)) (o : Outcome κ (SplitPage κ)) : Prop where
  questions_eq : journal.map (·.question) = o.questions
  /-- No column is asked about twice. -/
  ascending : o.questions.Pairwise fun p q => p.column < q.column
  column_lt : ∀ q ∈ o.questions, q.column < s.columns
  isAbout : ∀ a ∈ journal, a.question.IsAbout page a.places
  first : ∀ a ∈ journal.head?, a.before = 0 ∧ a.places = List.range page.length ∧
    a.question.prior = noPrior
  chain : journal.IsChain (Follows s config page)
  /-- Whoever answers these questions alike gets the same split. -/
  settled : ∀ propose, s.SameAnswers propose 0 o.questions →
    splitPage (s.withAnswers propose) config page = .ok o

theorem AskedFrom.ascending {prior : Quadrants (Option κ)} {journal : List (Asked κ)}
    (h : AskedFrom s config page column asked places prior journal) :
    (journal.map (·.question)).Pairwise fun p q => p.column < q.column := by
  have hchain : (journal.map (·.question.column)).IsChain (· < ·) :=
    (List.isChain_map _).2 (h.chain.imp fun _ _ hab => hab.column_lt)
  exact List.pairwise_map.2 (List.pairwise_map.1 hchain.pairwise)

/-- **What a split asks about a page**: about columns in rising order, each time about two rows or
more, with summaries of earlier entries only where the column before hands on the rows. -/
theorem splitPage_asksInTurn {config : PageConfig} {page : List (Row κ)}
    {o : Outcome κ (SplitPage κ)} (h : splitPage s config page = .ok o) :
    ∃ journal, AsksInTurn s config page journal o := by
  obtain ⟨⟨hcolumns, hrows, hcheck⟩, rfl⟩ := (splitPage_eq_ok_iff s).1 h
  have hall : ArePlaces page (List.range page.length) :=
    ⟨List.pairwise_lt_range, fun i hi => List.mem_range.1 hi⟩
  obtain ⟨journal, hjournal, hquestions⟩ := splitFrom_asks s config page (s.columns - 1) 0
    (by omega) 0 (List.range page.length) noPrior hall (by simpa using hrows)
  rw [rowsAt, filterMap_getElem?_range] at hquestions
  refine ⟨journal, ?_⟩
  constructor
  case questions_eq => exact hquestions
  case ascending => exact hquestions ▸ hjournal.ascending
  case column_lt =>
    intro q hq
    rw [← hquestions] at hq
    obtain ⟨a, ha, rfl⟩ := List.mem_map.1 hq
    exact (hjournal.isAbout a ha).1
  case isAbout => exact fun a ha => (hjournal.isAbout a ha).2
  case first =>
    intro a ha
    obtain ⟨hbefore, hplaces, -, hprior⟩ := hjournal.first a ha
    rw [ite_self] at hprior
    exact ⟨hbefore, hplaces, hprior⟩
  case chain => exact hjournal.chain
  case settled =>
    intro propose hsame
    have hsettled := splitFrom_settles s config propose (s.columns - 1) 0 0 page noPrior hsame
    refine (splitPage_eq_ok_iff (s.withAnswers propose)).2 ⟨⟨hcolumns, hrows, hcheck⟩, ?_⟩
    change _ = Outcome.mk ((splitFrom (s.withAnswers propose) config (s.columns - 1) 0 0 page
      noPrior).value.page s page) _ _
    rw [← hsettled]
    rfl

/-- The second column is asked about the two rows that do not care about the first. -/
theorem splitPage_asksInTurn_wildcardRows : ∃ o, splitPage wildcardKeys {} wildcardRows = .ok o ∧
    o.questions.map (fun q => (q.column, q.keys)) = [(0, [1, 2, 3, 4, 0, 0]), (1, [2, 1])] ∧
    ∃ journal, AsksInTurn wildcardKeys {} wildcardRows journal o := by
  have hsplit : splitPage wildcardKeys {} wildcardRows = .ok _ :=
    (splitPage_eq_ok_iff wildcardKeys).2 ⟨⟨by decide, by decide, rfl⟩, rfl⟩
  have hgiven : ¬ GivenUp wildcardKeys 0 wildcardSplit
      (indifferentRows wildcardKeys 0 [1, 2, 3, 4, 0, 0] wildcardSplit) :=
    indifferentRows_wildcardSplit ▸ not_givenUp_wildcardSplit
  have hasked := questions_handOn (splitFrom wildcardKeys {} 0 1) 1 wildcardRows (by decide) hgiven
  rw [indifferentRows_wildcardSplit] at hasked
  refine ⟨_, hsplit, ?_, splitPage_asksInTurn hsplit⟩
  calc _ = (⟨0, [1, 2, 3, 4, 0, 0], noPrior⟩ :: (handOn wildcardKeys
            (splitFrom wildcardKeys {} 0 1) 1 wildcardRows 0 [1, 2, 3, 4, 0, 0]
            wildcardSplit).questions).map (fun q => (q.column, q.keys)) := rfl
    _ = _ := by
      rw [hasked]
      rfl

end QuadIndex
