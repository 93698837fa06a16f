import WireQuery.Schema.Declaration

namespace WireQuery

inductive NameKind where
  | package
  | message
  | enum
  | service
  | extension
  /-- Fields, oneofs, enum values and methods: names that nothing refers to. -/
  | leaf
  deriving DecidableEq, Repr

namespace NameKind

def isType : NameKind → Bool
  | message | enum => true
  | _ => false

/-- Whether names can be looked up inside. -/
def isScope : NameKind → Bool
  | extension | leaf => false
  | _ => true

end NameKind

/-- A declared full name, with the position of its file. -/
structure NameEntry where
  name : String
  kind : NameKind
  file : Nat
  deriving DecidableEq, Repr

namespace Scope

def join (scope name : String) : String := if scope = "" then name else scope ++ "." ++ name

def prefixesIn (seen : List Char) : List Char → List (List Char)
  | [] => []
  | c :: r => if c = '.' then seen.reverse :: prefixesIn (c :: seen) r else prefixesIn (c :: seen) r

/-- What stands before each point of a name, outermost first. -/
def prefixes (name : String) : List String := (prefixesIn [] name.toList).map String.ofList

/-- The scopes around a name, the name itself first and the outermost last. -/
def around (name : String) : List String := (("" :: prefixes name) ++ [name]).reverse

def firstPart (name : String) : String := String.ofList (name.toList.takeWhile (· ≠ '.'))

end Scope

section Entries

open Scope

def EnumDecl.entries (file : Nat) (scope : String) (e : EnumDecl) : List NameEntry :=
  ⟨join scope e.name, .enum, file⟩ :: e.values.map (fun v => ⟨join scope v.name, .leaf, file⟩)

mutual

def MessageDecl.entries (file : Nat) (scope : String) : MessageDecl → List NameEntry
  | ⟨name, fields, nested, enums, _, extensions, _, oneofs, _⟩ =>
    let inner := join scope name
    ⟨inner, .message, file⟩ :: (fields.map (fun f => ⟨join inner f.name, .leaf, file⟩) ++
      oneofs.map (fun o => ⟨join inner o.name, .leaf, file⟩) ++ nestedEntries file inner nested ++
      enums.flatMap (EnumDecl.entries file inner) ++ extensions.map (fun f => ⟨join inner f.name, .extension, file⟩))

def nestedEntries (file : Nat) (scope : String) : List MessageDecl → List NameEntry
  | [] => []
  | m :: ms => m.entries file scope ++ nestedEntries file scope ms

end

def ServiceDecl.entries (file : Nat) (scope : String) (s : ServiceDecl) : List NameEntry :=
  let inner := join scope s.name
  ⟨inner, .service, file⟩ :: s.methods.map (fun m => ⟨join inner m.name, .leaf, file⟩)

namespace FileDecl

def scope (f : FileDecl) : String := f.package.getD ""

def packages (f : FileDecl) : List String :=
  if f.scope = "" then [] else prefixes f.scope ++ [f.scope]

def entries (index : Nat) (f : FileDecl) : List NameEntry :=
  f.packages.map (fun p => ⟨p, .package, index⟩) ++ nestedEntries index f.scope f.messages ++
    f.enums.flatMap (EnumDecl.entries index f.scope) ++ f.services.flatMap (ServiceDecl.entries index f.scope) ++
    f.extensions.map (fun e => ⟨join f.scope e.name, .extension, index⟩)

end FileDecl

end Entries

/-- Only packages may be declared twice. -/
def NameEntry.agrees (a b : NameEntry) : Bool :=
  a.name ≠ b.name || (a.kind = .package && b.kind = .package)

def agreeAll : List NameEntry → Bool
  | [] => true
  | e :: es => es.all e.agrees && agreeAll es

/-- The names in force in a file: those declared anywhere, and the files it sees. -/
structure Scope where
  names : List NameEntry
  files : List Nat

namespace Scope

def find? (s : Scope) (name : String) : Option NameEntry := s.names.find? (·.name = name)

/-- The declaration of a name, if it is of a kind and in a file that is seen. -/
def get? (s : Scope) (want : NameKind → Bool) (name : String) : Option NameEntry :=
  (s.find? name).filter (fun e => want e.kind && s.files.contains e.file)

/--
A simple name is the innermost that is of the right kind and seen. In a dotted one the innermost scope of the first
part decides, seen or not.
-/
def resolve? (s : Scope) (want : NameKind → Bool) (scope name : String) : Option NameEntry :=
  match name.toList with
  | '.' :: r => s.get? want (String.ofList r)
  | _ =>
    let first := firstPart name
    if first = name then (around scope).findSome? (fun outer => s.get? want (join outer name))
    else
      match (around scope).find? (fun outer => (s.find? (join outer first)).any (·.kind.isScope)) with
      | some outer => s.get? want (join outer name)
      | none => none

end Scope

end WireQuery
