/-!
# Quadrants

A center cuts the plane into four quadrants. A point on the vertical line through the center
belongs to the east, and one on the horizontal line to the north.

* `Quadrant.ofHalves_isEast_isSouth`: a quadrant is its two halves.
* `Quadrants.get_ofFn`: four values are a function of the quadrant.
-/

namespace QuadIndex

/-- One of the four quadrants around a center. -/
inductive Quadrant where
  | northWest
  | northEast
  | southWest
  | southEast
  deriving DecidableEq, Repr, Inhabited

namespace Quadrant

/-- The quadrants in the order of their codes. -/
def all : List Quadrant := [northWest, northEast, southWest, southEast]

/-- The code of a quadrant: one for the east half plus two for the south half. -/
def code : Quadrant → Nat
  | northWest => 0
  | northEast => 1
  | southWest => 2
  | southEast => 3

/-- The quadrant of a code below four. -/
def ofCode? : Nat → Option Quadrant
  | 0 => some northWest
  | 1 => some northEast
  | 2 => some southWest
  | 3 => some southEast
  | _ => none

def isEast : Quadrant → Bool
  | northWest | southWest => false
  | northEast | southEast => true

def isSouth : Quadrant → Bool
  | northWest | northEast => false
  | southWest | southEast => true

/-- The quadrant in the given halves of the plane. -/
def ofHalves (east south : Bool) : Quadrant :=
  match east, south with
  | false, false => northWest
  | true, false => northEast
  | false, true => southWest
  | true, true => southEast

/-- The two letters of a quadrant. -/
def text : Quadrant → String
  | northWest => "NW"
  | northEast => "NE"
  | southWest => "SW"
  | southEast => "SE"

instance : ToString Quadrant := ⟨text⟩

/-- Quadrants in the order of their codes. -/
instance : LT Quadrant := ⟨fun p q => p.code < q.code⟩

instance (p q : Quadrant) : Decidable (p < q) := inferInstanceAs (Decidable (p.code < q.code))

@[simp] theorem ofHalves_isEast_isSouth (q : Quadrant) : ofHalves q.isEast q.isSouth = q := by
  cases q <;> rfl

@[simp] theorem ofCode_code (q : Quadrant) : ofCode? q.code = some q := by cases q <;> rfl

@[simp] theorem mem_all (q : Quadrant) : q ∈ all := by cases q <;> decide

end Quadrant

/-- Four values, one for each quadrant. -/
structure Quadrants (β : Type) where
  northWest : β
  northEast : β
  southWest : β
  southEast : β
  deriving DecidableEq, Repr, BEq

namespace Quadrants

variable {β γ : Type}

/-- The value of a quadrant. -/
def get (v : Quadrants β) : Quadrant → β
  | .northWest => v.northWest
  | .northEast => v.northEast
  | .southWest => v.southWest
  | .southEast => v.southEast

/-- The values of a function of the quadrant. -/
def ofFn (f : Quadrant → β) : Quadrants β :=
  ⟨f .northWest, f .northEast, f .southWest, f .southEast⟩

/-- One value for all quadrants. -/
def const (x : β) : Quadrants β := ofFn fun _ => x

instance [Inhabited β] : Inhabited (Quadrants β) := ⟨const default⟩

@[simp] theorem get_ofFn (f : Quadrant → β) : (ofFn f).get = f := by
  funext q; cases q <;> rfl

@[simp] theorem ofFn_get (v : Quadrants β) : ofFn v.get = v := rfl

@[ext] theorem ext_get {v w : Quadrants β} (h : ∀ q, v.get q = w.get q) : v = w := by
  rw [← ofFn_get v, ← ofFn_get w, funext h]

/-- The values with that of one quadrant replaced. -/
def set (v : Quadrants β) (q : Quadrant) (x : β) : Quadrants β :=
  ofFn fun p => if p = q then x else v.get p

/-- A function of the quadrant and its value, on every quadrant. -/
def mapWith (f : Quadrant → β → γ) (v : Quadrants β) : Quadrants γ :=
  ofFn fun q => f q (v.get q)

def map (f : β → γ) (v : Quadrants β) : Quadrants γ := v.mapWith fun _ => f

/-- The values of two families side by side. -/
def zip (v : Quadrants β) (w : Quadrants γ) : Quadrants (β × γ) :=
  ofFn fun q => (v.get q, w.get q)

/-- The values in the order of the codes. -/
def toList (v : Quadrants β) : List β := Quadrant.all.map v.get

/-- The values of a list of four. -/
def ofList? : List β → Option (Quadrants β)
  | [a, b, c, d] => some ⟨a, b, c, d⟩
  | _ => none

/-- The quadrants with their values in the order of the codes. -/
def pairs (v : Quadrants β) : List (Quadrant × β) := Quadrant.all.map fun q => (q, v.get q)

/-- The sum of four numbers. -/
def total (v : Quadrants Nat) : Nat := v.northWest + v.northEast + v.southWest + v.southEast

/-- How many members each of four groups has. -/
def sizes (groups : Quadrants (List β)) : Quadrants Nat := groups.map List.length

@[simp] theorem get_map (f : β → γ) (v : Quadrants β) (q : Quadrant) :
    (v.map f).get q = f (v.get q) := by simp [map, mapWith]

@[simp] theorem get_mapWith (f : Quadrant → β → γ) (v : Quadrants β) (q : Quadrant) :
    (v.mapWith f).get q = f q (v.get q) := by simp [mapWith]

@[simp] theorem get_zip (v : Quadrants β) (w : Quadrants γ) (q : Quadrant) :
    (v.zip w).get q = (v.get q, w.get q) := by simp [zip]

@[simp] theorem get_const (x : β) (q : Quadrant) : (const x).get q = x := by simp [const]

theorem get_set (v : Quadrants β) (p q : Quadrant) (x : β) :
    (v.set p x).get q = if q = p then x else v.get q := by simp [set]

/-- The sizes as a bracketed list. -/
def sizesText (sizes : Quadrants Nat) : String :=
  "[" ++ ", ".intercalate (sizes.toList.map Nat.repr) ++ "]"

end Quadrants
end QuadIndex
