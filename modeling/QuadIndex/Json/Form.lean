import QuadIndex.Json.Value
import QuadIndex.Page.Split
import QuadIndex.Tree.Config
import QuadIndex.Query.Condition

/-!
# JSON forms

The data of the library has a form in JSON. A structure is an object of its fields, and can also
be read from an array of them in order; a member that is no field is passed over. A value of an
enumeration is its name, and one with content is an object whose one member has that name. Where
that content has fields but is no structure, it is read from an object only. A number is read from
any JSON number, and a count only from an integer in its range.
-/

namespace QuadIndex

/-- A type with a form in JSON. -/
class JsonForm (β : Type) where
  read? : Json → Option β
  write : β → Json

export JsonForm (read?)

namespace Json

/-- The values of the named fields of a structure, all of which must be there. -/
def fields? (names : List String) : Json → Option (List Json)
  | .array items => if items.length = names.length then some items else none
  | .object members => names.mapM fun name => members.lookup name
  | _ => none

/-- The values of the named fields of a structure, with nothing for one that is not there. -/
def fieldsOrNone? (names : List String) : Json → Option (List (Option Json))
  | .array items =>
    if items.length ≤ names.length then some ((List.range names.length).map (items[·]?)) else none
  | .object members => some (names.map fun name => members.lookup name)
  | _ => none

/-- A structure of two fields. -/
def read₂? {β γ δ : Type} [JsonForm β] [JsonForm γ] (a b : String) (make : β → γ → δ) (j : Json) :
    Option δ :=
  match j.fields? [a, b] with
  | some [x, y] => do return make (← read? x) (← read? y)
  | _ => none

/-- A field that keeps its default if it is not there. -/
def readOr? {β : Type} (read : Json → Option β) (default : β) : Option Json → Option β
  | none => some default
  | some j => read j

/-- A count below a limit. -/
def natBelow? (limit : Nat) : Json → Option Nat
  | .integer n => if 0 ≤ n && n < limit then some n.toNat else none
  | _ => none

/-- A value of an enumeration, by its name. -/
def named? {β : Type} (name : β → String) (all : List β) (j : Json) : Option β :=
  match j with
  | .string s | .object [(s, .null)] => all.find? fun x => name x == s
  | _ => none

end Json

open Json

instance : JsonForm Binary64 where
  read?
    | .integer n => some (Binary64.ofDecimal (n < 0) ⟨n.natAbs, 0⟩)
    | .real x => some x
    | _ => none
  write := .real

/-- Counts and identifiers have 64 bits. -/
instance : JsonForm Nat where
  read? := natBelow? 0x10000000000000000
  write n := .integer n

instance : JsonForm Bool where
  read?
    | .bool b => some b
    | _ => none
  write := .bool

instance {β : Type} [JsonForm β] : JsonForm (List β) where
  read?
    | .array items => items.mapM read?
    | _ => none
  write xs := .array (xs.map JsonForm.write)

instance {β : Type} [JsonForm β] : JsonForm (Option β) where
  read?
    | .null => some none
    | j => (read? j).map some
  write
    | none => .null
    | some x => JsonForm.write x

instance {β : Type} [JsonForm β] : JsonForm (Quadrants β) where
  read? j := (read? j : Option (List β)).bind Quadrants.ofList?
  write v := JsonForm.write v.toList

def Quadrant.name : Quadrant → String
  | northWest => "NorthWest"
  | northEast => "NorthEast"
  | southWest => "SouthWest"
  | southEast => "SouthEast"

instance : JsonForm Quadrant where
  read? := named? Quadrant.name Quadrant.all
  write q := .string q.name

instance : JsonForm Strategy where
  read? := named? Strategy.name Strategy.all
  write s := .string s.name

section Plane

variable {α : Type} [JsonForm α]

instance : JsonForm (Point α) where
  read? := read₂? "x" "y" Point.mk
  write p := .object [("x", JsonForm.write p.x), ("y", JsonForm.write p.y)]

instance : JsonForm (Interval α) where
  read? := read₂? "low" "high" Interval.mk
  write i := .object [("low", JsonForm.write i.low), ("high", JsonForm.write i.high)]

instance : JsonForm (Bounds α) where
  read? := read₂? "left" "right" Bounds.mk
  write b := .object [("left", JsonForm.write b.low), ("right", JsonForm.write b.high)]

instance : JsonForm (BoxRange α) where
  read? := read₂? "range_box_x" "range_box_y" BoxRange.mk
  write r := .object [("range_box_x", JsonForm.write r.x), ("range_box_y", JsonForm.write r.y)]

instance : JsonForm (Box α) where
  read? j :=
    match j.fields? ["min_x", "min_y", "max_x", "max_y"] with
    | some [a, b, c, d] => do return ⟨← read? a, ← read? b, ← read? c, ← read? d⟩
    | _ => none
  write b := .object [("min_x", JsonForm.write b.minX), ("min_y", JsonForm.write b.minY),
    ("max_x", JsonForm.write b.maxX), ("max_y", JsonForm.write b.maxY)]

/-- A point as a shape holds it, under its one field. -/
structure PointShape (α : Type) where
  coordinate : Point α

instance : JsonForm (PointShape α) where
  read? j :=
    match j.fields? ["coordinate"] with
    | some [p] => (read? p).map PointShape.mk
    | _ => none
  write p := .object [("coordinate", JsonForm.write p.coordinate)]

instance : JsonForm (Shape α) where
  read?
    | .object [("Point", j)] => (read? j).map fun p : PointShape α => .point p.coordinate
    | .object [("Circle", .object members)] =>
      read₂? "center" "radius" (fun (c : PointShape α) r => Shape.circle c.coordinate r)
        (.object members)
    | .object [("Polygon", j)] => (read? j).map fun vs => .polygon ⟨vs⟩
    | .object [("Envelope", j)] => (read? j).map Shape.envelope
    | _ => none
  write
    | .point p => .object [("Point", JsonForm.write (PointShape.mk p))]
    | .circle c r => .object [("Circle",
        .object [("center", JsonForm.write (PointShape.mk c)), ("radius", JsonForm.write r)])]
    | .polygon g => .object [("Polygon", JsonForm.write g.vertices)]
    | .envelope b => .object [("Envelope", JsonForm.write b)]

instance : JsonForm (Condition α) where
  read? := read₂? "strategy" "argument" Condition.mk
  write k :=
    .object [("strategy", JsonForm.write k.strategy), ("argument", JsonForm.write k.argument)]

end Plane

instance : JsonForm TreeConfig where
  read? j :=
    let c : TreeConfig := {}
    match j.fieldsOrNone? ["leaf_capacity", "max_insert_levels", "max_tree_depth"] with
    | some [capacity, levels, depth] => do
      return ⟨← readOr? read? c.leafCapacity capacity,
        ← readOr? (natBelow? (maxLevel + 1)) c.maxInsertLevels levels,
        ← readOr? (natBelow? (maxLevel + 1)) c.maxTreeDepth depth⟩
    | _ => none
  write c := .object [("leaf_capacity", JsonForm.write c.leafCapacity),
    ("max_insert_levels", JsonForm.write c.maxInsertLevels),
    ("max_tree_depth", JsonForm.write c.maxTreeDepth)]

instance : JsonForm PageConfig where
  read? j :=
    let c : PageConfig := {}
    match j.fieldsOrNone? ["redistribute_dont_cares", "reconcile_secondary_splits"] with
    | some [handsOn, rematches] => do
      return ⟨← readOr? read? c.handsOn handsOn,
        ← readOr? read? c.rematches rematches⟩
    | _ => none
  write c := .object [("redistribute_dont_cares", JsonForm.write c.handsOn),
    ("reconcile_secondary_splits", JsonForm.write c.rematches)]

section Page

variable {κ : Type} [JsonForm κ]

instance : JsonForm (PageEntry κ) where
  read? := read₂? "id" "keys" PageEntry.mk
  write e :=
    .object [("id", JsonForm.write e.id), ("keys", JsonForm.write (e.keys : List (Option κ)))]

instance : JsonForm (PageGroup κ) where
  read? := read₂? "entries" "summaries" PageGroup.mk
  write g :=
    .object [("entries", JsonForm.write g.rows), ("summaries", JsonForm.write g.summaries)]

instance : JsonForm (SplitPage κ) where
  read? j :=
    match j.fields? ["groups"] with
    | some [groups] => (read? groups).map SplitPage.mk
    | _ => none
  write p := .object [("groups", JsonForm.write p.groups)]

end Page
end QuadIndex
