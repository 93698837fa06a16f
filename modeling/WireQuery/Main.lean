import WireQuery.CommandLine.Program
import WireQuery.Script.Reader

namespace WireQuery

def FileFault.ofError : IO.Error → FileFault
  | .permissionDenied .. => .permissionDenied
  | .hardwareFault .. => .other "Input/output error (os error 5)"
  | e => .other (toString e)

def FileEntry.observe (path : String) : IO FileEntry := do
  try
    return .file (← IO.FS.readBinFile path).data.toList
  catch e =>
    return .unreadable (.ofError e)

/-- The tree with what stands at a path. Whether it is a file does not depend on whether it can be read. -/
def Files.observe (fs : Files) (path : String) : IO Files := do
  let names := fs.names path
  let put (e : FileEntry) : Files := (fs.makeDirectories names.dropLast).set names e
  try
    let seen ← ((← IO.currentDir) / path).metadata
    if seen.type == .dir then return fs.makeDirectories names
    return put (← FileEntry.observe path)
  catch
    | .permissionDenied .. => return put .hidden
    | _ => return fs

/-- All paths that a run may look at. -/
def Arguments.paths (a : Arguments) (c : Config) : List String :=
  a.database.toList ++ a.queryFile.toList ++ a.bundles ++ a.bundles.flatMap (fun p => c.bundlePath.map (Config.join · p))

partial def readAll (s : IO.FS.Stream) (done : ByteArray) : IO ByteArray := do
  let b ← s.read 65536
  if b.isEmpty then return done else readAll s (done ++ b)

def survey (argv : List String) : IO Surroundings := do
  let bundlePath ← IO.getEnv "PROTOSQL_BUNDLE_PATH"
  let warnUnsigned ← IO.getEnv "PROTOSQL_WARN_UNSIGNED"
  let home := (Files.parts (← IO.currentDir).toString).filter (· ≠ "")
  let bare : Files := { entries := [], home := home }
  let files := bare.makeDirectories home
  match Arguments.parse argv with
  | .error _ => return { files := files }
  | .ok a =>
    let paths := a.paths (Config.ofVariables bundlePath warnUnsigned)
    let files ← paths.foldlM Files.observe files
    let input ← if a.source = .input && !a.listTypes then readAll (← IO.getStdin) .empty else pure .empty
    return { files := files, bundlePath := bundlePath, warnUnsigned := warnUnsigned, input := input.data.toList }

end WireQuery

open WireQuery in
def main (argv : List String) : IO UInt32 := do
  let finish := Program.run Script.read (← survey argv) argv
  IO.print finish.output
  IO.eprint finish.complaint
  return UInt32.ofNat finish.code
