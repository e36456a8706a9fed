import Std.Data.HashMap
import StackScript.Bytes

/-!
# Names and where they live

A table binds the names of one function, or of the whole program. A function's
table lies inside the table of the code around it. A name is looked for from the
inside out; a variable of an enclosing function is captured on the way back, in
every table that was passed, so that each function gets it from the next one
outside.

## Main definitions

* `Place`, `Symbol`: where a name lives.
* `Table`: the names of one function.
* `resolve`: the place of a name in a chain of tables, innermost first.
-/

namespace StackScript

/-- Where the value of a name is found. -/
inductive Place
  /-- A slot of the global store. -/
  | global (slot : Nat)
  /-- A slot of the current call. -/
  | local (slot : Nat)
  /-- A builtin function. -/
  | builtin (slot : Int)
  /-- A captured value of the current closure. -/
  | free (index : Nat)
  /-- The current closure itself. -/
  | self
  deriving DecidableEq, Repr, Inhabited

namespace Place

/-- The name of the scope. -/
def scopeName : Place → String
  | .global _ => "GLOBAL"
  | .local _ => "LOCAL"
  | .builtin _ => "BUILTIN"
  | .free _ => "FREE"
  | .self => "FUNCTION"

/-- The position within the scope. -/
def index : Place → Int
  | .global slot | .local slot => slot
  | .builtin slot => slot
  | .free index => index
  | .self => 0

/-- The same place serves all functions, so it need not be captured. -/
def isShared : Place → Bool
  | .global _ | .builtin _ => true
  | _ => false

end Place

/-- A name with its place. -/
structure Symbol where
  name : Bytes
  place : Place
  deriving DecidableEq, Repr, Inhabited

/-- The names of one function, or of the whole program if it lies in no other table. -/
structure Table where
  /-- The table lies inside another one. -/
  enclosed : Bool
  places : Std.HashMap Bytes Place
  /-- The number of slots given out. -/
  definitions : Nat
  /-- The captured names, with their places in the next table outside. -/
  free : Array Symbol
  deriving Inhabited

namespace Table

/-- A table without names. -/
def empty (enclosed : Bool) : Table := ⟨enclosed, {}, 0, #[]⟩

/-- The place of a name bound in this table. -/
def find? (t : Table) (name : Bytes) : Option Place := t.places[name]?

/-- The next slot of this table. -/
def slot (t : Table) (n : Nat) : Place := if t.enclosed then .local n else .global n

/-- The place is a slot of this table. -/
def owns (t : Table) : Place → Bool
  | .local _ => t.enclosed
  | .global _ => !t.enclosed
  | _ => false

/-- Bind a name to a slot, to the one it has if it has one. -/
def define (t : Table) (name : Bytes) : Place × Table :=
  let fresh := t.slot t.definitions
  let added := { t with places := t.places.insert name fresh, definitions := t.definitions + 1 }
  match t.find? name with
  | some place => if t.owns place then (place, t) else (fresh, added)
  | none => (fresh, added)

/-- Bind a name to a builtin function. -/
def defineBuiltin (t : Table) (slot : Int) (name : Bytes) : Place × Table :=
  (.builtin slot, { t with places := t.places.insert name (.builtin slot) })

/-- Bind the name of the function that the table belongs to. -/
def defineSelf (t : Table) (name : Bytes) : Place × Table :=
  (.self, { t with places := t.places.insert name .self })

/-- Bind a name to a captured value that has the given place outside. -/
def capture (t : Table) (outside : Symbol) : Place × Table :=
  let place := .free t.free.size
  (place, { t with places := t.places.insert outside.name place, free := t.free.push outside })

end Table

/-- The place of a name in a chain of tables, innermost first, and the chain with the captures that
this needs. -/
def resolve (name : Bytes) : List Table → Option (Place × List Table)
  | [] => none
  | t :: outer =>
    match t.find? name with
    | some place => some (place, t :: outer)
    | none =>
      match resolve name outer with
      | none => none
      | some (place, outer) =>
        if place.isShared then some (place, t :: outer)
        else
          let (place, t) := t.capture ⟨name, place⟩
          some (place, t :: outer)

end StackScript
