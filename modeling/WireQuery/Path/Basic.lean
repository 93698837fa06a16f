import WireQuery.Text.Decimal

namespace WireQuery

inductive Step where
  | field (name : String)
  /-- A negative index counts from the end. -/
  | index (i : Int64)
  deriving DecidableEq, Repr

structure Path where
  steps : List Step := []
  deriving DecidableEq, Repr

def Step.chars : Step → List Char
  | .field name => '.' :: name.toList
  | .index i => '[' :: (Decimal.intChars i.toInt ++ [']'])

namespace Path

def root : Path := {}

def isRoot (p : Path) : Bool := p.steps.isEmpty

def push (p : Path) (s : Step) : Path := ⟨p.steps ++ [s]⟩

def field (p : Path) (name : String) : Path := p.push (.field name)

def index (p : Path) (i : Int64) : Path := p.push (.index i)

def chars (p : Path) : List Char := '$' :: p.steps.flatMap Step.chars

def text (p : Path) : String := String.ofList p.chars

end Path

/-- How a last field step reads an enum value. -/
inductive EnumAccessor where
  | name
  | number
  deriving DecidableEq, Repr

def EnumAccessor.ofField? : String → Option EnumAccessor
  | "name" => some .name
  | "number" => some .number
  | _ => none

end WireQuery
