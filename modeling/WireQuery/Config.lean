import WireQuery.Files
import WireQuery.Registry.Basic
import WireQuery.Text.Split

namespace WireQuery

structure Config where
  /-- Directories searched in this order. -/
  bundlePath : List String := []
  warnOnUnsigned : Bool := true
  deriving DecidableEq, Repr

namespace Config

/-- Directories between colons; empty ones are left out. -/
def pathList (s : String) : List String := (splitText ':' s).filter (· ≠ "")

def flag? (s : String) : Option Bool :=
  let word := String.ofList ((trimBlanks s.toList).map Char.toLower)
  if ["1", "true", "yes", "on"].contains word then some true
  else if ["0", "false", "no", "off"].contains word then some false
  else none

/-- The configuration of two variables, either of which may be unset. -/
def ofVariables (bundlePath warnUnsigned : Option String) : Config where
  bundlePath := (bundlePath.map pathList).getD []
  warnOnUnsigned := (warnUnsigned.bind flag?).getD true

def join (dir path : String) : String :=
  if Files.isAbsolute path then path
  else if dir = "" || dir.toList.getLast? = some '/' then dir ++ path
  else dir ++ "/" ++ path

/-- An absolute path and one that exists stay; else the first directory that has the file decides, if any. -/
def resolve (c : Config) (fs : Files) (path : String) : String :=
  if Files.isAbsolute path || fs.pathExists path then path
  else ((c.bundlePath.map (join · path)).find? fs.isFile).getD path

end Config

/-- The gate is asked before any file is looked at; an error names the path as it was asked for. -/
def Registry.loadFile (r : Registry) (c : Config) (fs : Files) (gate : Gate) (path : String) : Load :=
  match gate.check with
  | .error e => ⟨r, .error e, []⟩
  | .ok () =>
    match fs.read (c.resolve fs path) with
    | .error fault => ⟨r, .error (.bundleUnreadable path fault), []⟩
    | .ok b => r.insert b

end WireQuery
