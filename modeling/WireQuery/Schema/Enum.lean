import Std.Data.HashMap
import WireQuery.Wire.Varint

namespace WireQuery

structure EnumValue where
  number : Int32
  name : String
  deriving DecidableEq, Repr

structure EnumType where
  name : String
  values : List EnumValue
  /-- Positions of all declarations of a number, in order. -/
  byNumber : Std.HashMap Int32 (List Nat)
  /-- Position of the first declaration of a name. -/
  byName : Std.HashMap String Nat

namespace EnumType

def indexNumbers (values : List EnumValue) : Std.HashMap Int32 (List Nat) :=
  values.zipIdx.foldl (fun m (v, i) => m.insert v.number (m.getD v.number [] ++ [i])) ∅

def indexNames (values : List EnumValue) : Std.HashMap String Nat :=
  values.zipIdx.foldl (fun m (v, i) => m.insertIfNew v.name i) ∅

def ofValues (name : String) (values : List EnumValue) : EnumType :=
  ⟨name, values, indexNumbers values, indexNames values⟩

def valuesFor (e : EnumType) (number : Int32) : List EnumValue :=
  (e.byNumber.getD number []).filterMap (e.values[·]?)

def valueNamed? (e : EnumType) (name : String) : Option EnumValue :=
  e.byName[name]?.bind (e.values[·]?)

def firstNameFor? (e : EnumType) (number : Int32) : Option String :=
  (e.valuesFor number).head?.map (·.name)

/-- The indexes follow from the values and are not compared. -/
def same (a b : EnumType) : Bool := a.name = b.name && a.values = b.values

end EnumType

end WireQuery
