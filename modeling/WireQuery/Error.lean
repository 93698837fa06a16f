import WireQuery.Path.Parser
import WireQuery.Schema.Pool

namespace WireQuery

/-- Why a file cannot be read. -/
inductive FileFault where
  | notFound
  | isDirectory
  | notDirectory
  | permissionDenied
  /-- The path itself holds a zero byte. -/
  | zeroByte
  /-- Anything else, in the words of the system. -/
  | other (text : String)
  deriving DecidableEq, Repr

def FileFault.message : FileFault → String
  | notFound => "No such file or directory (os error 2)"
  | isDirectory => "Is a directory (os error 21)"
  | notDirectory => "Not a directory (os error 20)"
  | permissionDenied => "Permission denied (os error 13)"
  | zeroByte => "file name contained an unexpected NUL byte"
  | other text => text

/-- How a path fails to fit a message. -/
inductive Misstep where
  | pastScalar
  | intoMap (field : String)
  | indexOnMessage (type : String)
  | indexExpected (field : String)
  | noList (field : String)
  | noSingleValue (path : String)
  | other (detail : String)
  deriving DecidableEq, Repr

def Misstep.message : Misstep → String
  | pastScalar => "cannot traverse past a scalar value"
  | intoMap field => "Map fields cannot be traversed ('" ++ field ++ "')"
  | indexOnMessage type => "cannot index into message '" ++ type ++ "'"
  | indexExpected field => "Expected index into repeated field '" ++ field ++ "'"
  | noList field => "field '" ++ field ++ "' does not hold a list"
  | noSingleValue path => "'" ++ path ++ "' does not address a single value"
  | other detail => detail

/-- The words of the codec for bytes it refuses: as a bundle, or as a message of the type of that name. -/
structure Codec where
  bundleFault : Bytes → String := fun _ => ""
  messageFault : String → Bytes → String := fun _ _ => ""

inductive Error where
  | loadDenied
  | permissionUnavailable (reason : String)
  | bundleUnreadable (path : String) (fault : FileFault)
  | invalidBundle (b : Bytes)
  | schemaConflict (name : String)
  | unknownType (kind : TypeKind) (name : String)
  | malformedPath (e : PathError)
  | invalidPath (m : Misstep)
  | unknownField (field message : String)
  | indexOutOfRange (index : Int64) (field : String) (length : Nat)
  | unknownEnumValue (number : Int32) (enum : String)
  | corruptData (type : String) (b : Bytes)
  deriving DecidableEq, Repr

inductive ErrorKind where
  | loadDenied
  | permissionUnavailable
  | bundleUnreadable
  | invalidBundle
  | schemaConflict
  | unknownType
  | invalidPath
  | unknownField
  | indexOutOfRange
  | unknownEnumValue
  | corruptData
  deriving DecidableEq, Repr

namespace Error

def kind : Error → ErrorKind
  | loadDenied => .loadDenied
  | permissionUnavailable _ => .permissionUnavailable
  | bundleUnreadable .. => .bundleUnreadable
  | invalidBundle _ => .invalidBundle
  | schemaConflict _ => .schemaConflict
  | unknownType .. => .unknownType
  | malformedPath _ => .invalidPath
  | invalidPath _ => .invalidPath
  | unknownField .. => .unknownField
  | indexOutOfRange .. => .indexOutOfRange
  | unknownEnumValue .. => .unknownEnumValue
  | corruptData .. => .corruptData

def message (codec : Codec) : Error → String
  | loadDenied => "Extension loading is disabled"
  | permissionUnavailable reason => "Failed to get load_extension setting: " ++ reason
  | bundleUnreadable path fault => "Could not load library '" ++ path ++ "': " ++ fault.message
  | invalidBundle b => "Invalid schema bundle: " ++ codec.bundleFault b
  | schemaConflict name => "Schema conflict: type '" ++ name ++ "' is already loaded with a different definition"
  | unknownType kind name => "Could not find " ++ kind.text ++ " '" ++ name ++ "'"
  | malformedPath e => e.message
  | invalidPath m => "Invalid path: " ++ m.message
  | unknownField field message => "Invalid field name '" ++ field ++ "' for message '" ++ message ++ "'"
  | indexOutOfRange index field length =>
    "Index " ++ Decimal.intText index.toInt ++ " out of range for repeated field '" ++ field ++ "' of length " ++
      Decimal.natText length
  | unknownEnumValue number enum =>
    "No name declared for value " ++ Decimal.intText number.toInt ++ " of enum '" ++ enum ++ "'"
  | corruptData type b => "Failed to parse message '" ++ type ++ "': " ++ codec.messageFault type b

end Error

/-- What is worth telling beside a result. -/
inductive Warning where
  /-- An unsigned value above the signed range was returned wrapped. -/
  | wrapped (type path : String) (value : UInt64)
  | conflict (type : String)
  deriving DecidableEq, Repr

namespace Warning

def message : Warning → String
  | wrapped .. => "uint64 value exceeds the signed 64-bit range, returning it wrapped"
  | conflict _ => "Schema conflict, bundle rejected"

def line : Warning → String
  | wrapped type path value =>
    "WARN " ++ (wrapped type path value).message ++ " type_name=" ++ type ++ " path=" ++ path ++ " value=" ++
      Decimal.natText value.toNat
  | conflict type => "WARN " ++ (conflict type).message ++ " type_name=" ++ type

end Warning

end WireQuery
