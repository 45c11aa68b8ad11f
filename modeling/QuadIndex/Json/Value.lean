import QuadIndex.Binary64.Decimal

/-!
# JSON values

A number of a JSON text is an integer if it is written without a point and an exponent, and
otherwise a double; the two are told apart where a field has to hold an integer. The members of
an object stand in the order of their names.
-/

namespace QuadIndex

/-- A JSON value. -/
inductive Json where
  | null
  | bool (b : Bool)
  | integer (n : Int)
  | real (x : Binary64)
  | string (s : String)
  | array (items : List Json)
  | object (members : List (String × Json))
  deriving Repr, Inhabited

namespace Json

mutual

/-- Equality of values, with that of numbers for doubles. -/
def equal : Json → Json → Bool
  | null, null => true
  | bool a, bool b => a == b
  | integer m, integer n => m == n
  | real x, real y => x.equal y
  | string s, string t => s == t
  | array xs, array ys => equalItems xs ys
  | object xs, object ys => equalMembers xs ys
  | _, _ => false

def equalItems : List Json → List Json → Bool
  | [], [] => true
  | x :: xs, y :: ys => equal x y && equalItems xs ys
  | _, _ => false

def equalMembers : List (String × Json) → List (String × Json) → Bool
  | [], [] => true
  | (k, x) :: xs, (l, y) :: ys => k == l && equal x y && equalMembers xs ys
  | _, _ => false

end

instance : BEq Json := ⟨equal⟩

/-- The member of an object with the given name. -/
def member? (name : String) : Json → Option Json
  | object members => members.lookup name
  | _ => none

end Json
end QuadIndex
