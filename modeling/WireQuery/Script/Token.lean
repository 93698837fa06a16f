import WireQuery.Number.Numeral
import WireQuery.Text.Hex
import WireQuery.Text.Split
import WireQuery.Wire.Varint

namespace WireQuery.Script

inductive Lexeme where
  | word (s : String)
  /-- A name between double quotes. -/
  | name (s : String)
  | string (s : String)
  | blob (b : Bytes)
  | whole (n : Nat)
  | decimal (n : Numeral)
  | sign (c : Char)
  deriving DecidableEq, Repr

structure Token where
  /-- What stands before it and means nothing. -/
  before : List Char
  text : List Char
  lexeme : Lexeme

def isSpace (c : Char) : Bool := c = ' ' || (9 ≤ c.toNat && c.toNat ≤ 13)

def isWordStart (c : Char) : Bool := c.isAlpha || c = '_' || 0x80 ≤ c.toNat

def isWordPart (c : Char) : Bool := isWordStart c || c.isDigit || c = '$'

/-- Up to the closing quote; a quote inside is written twice. -/
def readQuoted (q : Char) : List Char → Option (List Char × List Char)
  | [] => none
  | [c] => if c = q then some ([], []) else none
  | c :: d :: r =>
    if c ≠ q then (readQuoted q (d :: r)).map (fun (s, t) => (c :: s, t))
    else if d = q then (readQuoted q r).map (fun (s, t) => (q :: s, t))
    else some ([], d :: r)

def readNumber (s : List Char) : Option (Lexeme × List Char) :=
  match Numeral.read? s with
  | some (n, r) =>
    let text := s.take (s.length - r.length)
    if r.head?.any isWordPart then none
    else if text.all Char.isDigit then some (.whole n.digits, r)
    else some (.decimal n, r)
  | none => none

/-- The token a text without blanks before it begins with. -/
def readLexeme : List Char → Option (Lexeme × List Char)
  | [] => none
  | '\x27' :: r => (readQuoted '\x27' r).map (fun (s, t) => (.string (String.ofList s), t))
  | '"' :: r => (readQuoted '"' r).map (fun (s, t) => (.name (String.ofList s), t))
  | c :: r =>
    match c, r with
    | 'x', '\x27' :: r | 'X', '\x27' :: r =>
      (readQuoted '\x27' r).bind (fun (s, t) => (Hex.decode? (s.map Char.toLower)).map (fun b => (.blob b, t)))
    | _, _ =>
      if isWordStart c then some (.word (String.ofList ((c :: r).takeWhile isWordPart)), (c :: r).dropWhile isWordPart)
      else if c.isDigit || (c = '.' && r.head?.any Char.isDigit) then readNumber (c :: r)
      else some (.sign c, r)

def tokens (s : List Char) : Option (List Token) :=
  match s.dropWhile isSpace with
  | [] => some []
  | c :: t =>
    match readLexeme (c :: t) with
    | none => none
    | some (lexeme, r) =>
      if r.length < s.length then
        (tokens r).map (⟨s.takeWhile isSpace, (c :: t).take ((c :: t).length - r.length), lexeme⟩ :: ·)
      else none
termination_by s.length

namespace Token

def isSign (c : Char) (t : Token) : Bool := t.lexeme = .sign c

/-- Words are written in capitals or not. -/
def isWord (s : String) (t : Token) : Bool :=
  match t.lexeme with
  | .word w => w.map Char.toLower = s
  | _ => false

def name? (t : Token) : Option String :=
  match t.lexeme with
  | .word s => some s
  | .name s => some s
  | _ => none

/-- Tokens as they were written, without the blanks before the first. -/
def written : List Token → String
  | [] => ""
  | t :: ts => String.ofList (t.text ++ ts.flatMap (fun u => u.before ++ u.text))

end Token

/-- The parts between tokens of a kind, none of which is inside brackets. -/
def partsIn (separates : Token → Bool) (depth : Nat) (part : List Token) : List Token → List (List Token)
  | [] => [part.reverse]
  | t :: ts =>
    if depth = 0 && separates t then part.reverse :: partsIn separates 0 [] ts
    else
      let depth := if t.isSign '(' then depth + 1 else if t.isSign ')' then depth - 1 else depth
      partsIn separates depth (t :: part) ts

def parts (separates : Token → Bool) (ts : List Token) : List (List Token) := partsIn separates 0 [] ts

end WireQuery.Script
