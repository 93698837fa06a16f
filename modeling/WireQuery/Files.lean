import WireQuery.Error
import WireQuery.Text.Split

namespace WireQuery

inductive FileEntry where
  | directory
  | file (b : Bytes)
  /-- A file that is there but cannot be read. -/
  | unreadable (fault : FileFault)
  /-- What stands in a directory that may not be entered. -/
  | hidden
  deriving DecidableEq, Repr

structure Files where
  /-- By the names that lead to each from the root. -/
  entries : List (List String × FileEntry) := [(["tmp"], .directory), (["tmp", "work"], .directory)]
  /-- The working directory. -/
  home : List String := ["tmp", "work"]

namespace Files

/-- What stands between the slashes of a path. -/
def parts (path : String) : List String := splitText '/' path

def isAbsolute (path : String) : Bool := path.toList.head? = some '/'

def entry? (fs : Files) : List String → Option FileEntry
  | [] => some .directory
  | names => fs.entries.lookup names

/-- One part of a path; empty parts and points stay, two points go up. -/
def walk (fs : Files) (place : List String) (part : String) : Except FileFault (List String) :=
  match fs.entry? place with
  | some .directory =>
    match part with
    | "" | "." => .ok place
    | ".." => .ok place.dropLast
    | name => if (fs.entry? (place ++ [name])).isSome then .ok (place ++ [name]) else .error .notFound
  | some .hidden => .error .permissionDenied
  | _ => .error .notDirectory

def start (fs : Files) (path : String) : List String := if isAbsolute path then [] else fs.home

/-- The names of what a path leads to. -/
def locate (fs : Files) (path : String) : Except FileFault (List String) :=
  if path.toList.contains '\x00' then .error .zeroByte
  else if path = "" then .error .notFound
  else (parts path).foldlM fs.walk (fs.start path)

def find (fs : Files) (path : String) : Except FileFault FileEntry := do
  match fs.entry? (← fs.locate path) with
  | some .hidden => .error .permissionDenied
  | some e => .ok e
  | none => .error .notFound

def pathExists (fs : Files) (path : String) : Bool :=
  match fs.find path with
  | .ok _ => true
  | .error _ => false

def isFile (fs : Files) (path : String) : Bool :=
  match fs.find path with
  | .ok (.file _) | .ok (.unreadable _) => true
  | _ => false

def read (fs : Files) (path : String) : Except FileFault Bytes := do
  match ← fs.find path with
  | .file b => .ok b
  | .unreadable fault => .error fault
  | .hidden => .error .permissionDenied
  | .directory => .error .isDirectory

/-- The names of a new file; the directory it is in must exist. -/
def placeFor (fs : Files) (path : String) : Except FileFault (List String) :=
  if path.toList.contains '\x00' then .error .zeroByte
  else
    match (parts path).reverse with
    | "" :: _ | "." :: _ | ".." :: _ | [] => .error .isDirectory
    | name :: parents => do
      let place ← parents.reverse.foldlM fs.walk (fs.start path)
      if fs.entry? place = some .directory then .ok (place ++ [name]) else .error .notDirectory

/-- The names a path leads by, as far as they can be told without looking. -/
def names (fs : Files) (path : String) : List String :=
  (parts path).foldl (fun ns p => match p with
    | "" | "." => ns
    | ".." => ns.dropLast
    | p => ns ++ [p]) (fs.start path)

def put (names : List String) (e : FileEntry) : List (List String × FileEntry) → List (List String × FileEntry)
  | [] => [(names, e)]
  | (ns, d) :: r => if ns = names then (ns, e) :: r else (ns, d) :: put names e r

def set (fs : Files) (names : List String) (e : FileEntry) : Files := { fs with entries := put names e fs.entries }

def makeDirectories (fs : Files) (names : List String) : Files :=
  (List.range names.length).foldl (fun fs i => fs.set (names.take (i + 1)) .directory) fs

/-- Makes a directory and those around it. -/
def makeDirectory (fs : Files) (path : String) : Files := fs.makeDirectories (fs.names path)

/-- Makes the directories a file is in, and the file. -/
def write (fs : Files) (path : String) (b : Bytes) : Files :=
  (fs.makeDirectories (fs.names path).dropLast).set (fs.names path) (.file b)

end Files

end WireQuery
