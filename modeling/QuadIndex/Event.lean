import QuadIndex.Quadrant

/-!
# Events

The two splits and the descent of an insertion report what they decide, and where the keys of a
column do not split well. A result that comes with such reports is a `Traced` value.

* `Event.text`, `Event.level`: the wording of a report and how loud it is.
* `Traced`: a value with the events on the way to it.
-/

namespace QuadIndex

/-- A decision, or a warning about the quality of an index. Columns count from zero. -/
inductive Event where
  /-- The answer for a column left a group empty, and the quartiles took its place. -/
  | emptyGroup (column : Nat) (sizes : Quadrants Nat)
  /-- The answer for a column was no partition, and the quartiles took its place. -/
  | badProposal (column : Nat) (reason : String)
  /-- The split of a column was given up for the next column. -/
  | columnPassed (column : Nat) (reason : String)
  /-- Some entries fit more than one group of a column alike. -/
  | indifferentFound (column count : Nat)
  /-- The groups of a column were matched with earlier summaries. -/
  | rematched (column : Nat) (reassigned : Bool)
  /-- The level where an object belongs, and how far down that is. -/
  | levelPlanned (level candidate stepsDown : Nat)
  /-- The quadrant taken on the way down. -/
  | quadrantTaken (depth : Nat) (quadrant : Quadrant)
  /-- A leaf was split. -/
  | leafCut (entries : Nat) (sizes : Quadrants Nat)
  deriving DecidableEq, Repr

/-- How loud an event is. -/
inductive Level where
  | warn
  | debug
  | trace
  deriving DecidableEq, Repr

def Level.text : Level → String
  | warn => "WARN"
  | debug => "DEBUG"
  | trace => "TRACE"

namespace Event

def level : Event → Level
  | emptyGroup _ _ | badProposal _ _ => .warn
  | quadrantTaken _ _ => .trace
  | _ => .debug

def isWarning (e : Event) : Bool := e.level == .warn

/-- The wording of an event, with columns counted from one. -/
def text : Event → String
  | emptyGroup column sizes =>
    s!"picksplit method for column {column + 1} failed (group sizes {sizes.sizesText}); "
      ++ "the index is not optimal, try using the column as a later one"
  | badProposal column reason =>
    s!"picksplit method for column {column + 1} returned a bad split: {reason}"
  | columnPassed column reason => s!"split on column {column + 1} discarded: {reason}"
  | indifferentFound column count =>
    s!"{count} don't-care entries after splitting column {column + 1}"
  | rematched column reassigned =>
    s!"secondary split on column {column + 1} reconciled with prior summaries "
      ++ s!"(reassigned: {reassigned})"
  | levelPlanned level candidate stepsDown =>
    s!"current level is {level}, inserting at level {candidate} with level diff of {stepsDown}"
  | quadrantTaken depth quadrant => s!"quadrant {quadrant} chosen at depth {depth}"
  | leafCut entries sizes => s!"leaf of {entries} entries split into {sizes.sizesText}"

/-- The event after its level. -/
def line (e : Event) : String := e.level.text ++ " " ++ e.text

/-- The name under which events are logged. -/
def logTarget : String := "quadsplit"

/-- The event as a record of a log. -/
def logRecord (e : Event) : String := logTarget ++ " " ++ e.line

end Event

/-- A value, and the events on the way to it. -/
structure Traced (β : Type) where
  value : β
  events : List Event
  deriving DecidableEq, Repr

namespace Traced

variable {β γ ε : Type}

/-- A value without events. -/
def silent (x : β) : Traced β := ⟨x, []⟩

/-- Puts events before those of a value. -/
def after (events : List Event) (t : Traced β) : Traced β := ⟨t.value, events ++ t.events⟩

def map (f : β → γ) (t : Traced β) : Traced γ := ⟨f t.value, t.events⟩

/-- The next step of an operation, unless an earlier one failed. -/
def andThen (t : Traced (Except ε β)) (f : β → Traced (Except ε γ)) : Traced (Except ε γ) :=
  match t.value with
  | .ok x => (f x).after t.events
  | .error e => ⟨.error e, t.events⟩

/-- Four steps in the order of the quadrants, up to the first that fails. -/
def sequence (t : Quadrants (Traced (Except ε β))) : Traced (Except ε (Quadrants β)) :=
  t.northWest.andThen fun a => t.northEast.andThen fun b =>
    t.southWest.andThen fun c => t.southEast.andThen fun d => silent (.ok ⟨a, b, c, d⟩)

@[simp] theorem value_silent (x : β) : (silent x).value = x := rfl

@[simp] theorem value_after (es : List Event) (t : Traced β) : (t.after es).value = t.value := rfl

@[simp] theorem value_map (f : β → γ) (t : Traced β) : (t.map f).value = f t.value := rfl

@[simp] theorem value_andThen (t : Traced (Except ε β)) (f : β → Traced (Except ε γ)) :
    (t.andThen f).value = t.value >>= fun x => (f x).value := by
  unfold andThen; cases t.value <;> rfl

end Traced
end QuadIndex
