import WireQuery.Schema.Enum
import WireQuery.Schema.Scalar

namespace WireQuery

/-- Options are kept as they came; none means that there is no options message at all. -/
abbrev Options := Option (List Wire.Field)

/-- The last flag of a number, false if there is none. -/
def Options.flag (o : Options) (number : Nat) : Bool :=
  (o.getD []).foldl (fun b f => match f with
    | (n, .varint v) => if n = number then v != 0 else b
    | _ => b) false

/-- What the options belong to. -/
inductive OptionSubject where
  | file
  | message
  | field
  | oneof
  | enum
  | enumValue
  | extensionRange
  | service
  | method
  deriving DecidableEq, Repr

inductive OptionForm where
  | flag
  | text
  | choice (values : List EnumValue)
  deriving DecidableEq, Repr

structure KnownOption where
  number : Nat
  name : String
  form : OptionForm
  deriving DecidableEq, Repr

namespace OptionSubject

def all : List OptionSubject :=
  [file, message, field, oneof, enum, enumValue, extensionRange, service, method]

/-- The message type that declares the options, where a bundle has it. -/
def typeName : OptionSubject → String
  | file => "google.protobuf.FileOptions"
  | message => "google.protobuf.MessageOptions"
  | field => "google.protobuf.FieldOptions"
  | oneof => "google.protobuf.OneofOptions"
  | enum => "google.protobuf.EnumOptions"
  | enumValue => "google.protobuf.EnumValueOptions"
  | extensionRange => "google.protobuf.ExtensionRangeOptions"
  | service => "google.protobuf.ServiceOptions"
  | method => "google.protobuf.MethodOptions"

def known : OptionSubject → List KnownOption
  | file =>
    [⟨1, "java_package", .text⟩, ⟨8, "java_outer_classname", .text⟩,
      ⟨9, "optimize_for", .choice [⟨1, "SPEED"⟩, ⟨2, "CODE_SIZE"⟩, ⟨3, "LITE_RUNTIME"⟩]⟩,
      ⟨10, "java_multiple_files", .flag⟩, ⟨11, "go_package", .text⟩, ⟨16, "cc_generic_services", .flag⟩,
      ⟨17, "java_generic_services", .flag⟩, ⟨18, "py_generic_services", .flag⟩,
      ⟨20, "java_generate_equals_and_hash", .flag⟩, ⟨23, "deprecated", .flag⟩,
      ⟨27, "java_string_check_utf8", .flag⟩, ⟨31, "cc_enable_arenas", .flag⟩, ⟨36, "objc_class_prefix", .text⟩,
      ⟨37, "csharp_namespace", .text⟩, ⟨39, "swift_prefix", .text⟩, ⟨40, "php_class_prefix", .text⟩,
      ⟨41, "php_namespace", .text⟩, ⟨42, "php_generic_services", .flag⟩, ⟨44, "php_metadata_namespace", .text⟩,
      ⟨45, "ruby_package", .text⟩]
  | message =>
    [⟨1, "message_set_wire_format", .flag⟩, ⟨2, "no_standard_descriptor_accessor", .flag⟩, ⟨3, "deprecated", .flag⟩,
      ⟨7, "map_entry", .flag⟩]
  | field =>
    [⟨1, "ctype", .choice [⟨0, "STRING"⟩, ⟨1, "CORD"⟩, ⟨2, "STRING_PIECE"⟩]⟩, ⟨2, "packed", .flag⟩,
      ⟨3, "deprecated", .flag⟩, ⟨5, "lazy", .flag⟩,
      ⟨6, "jstype", .choice [⟨0, "JS_NORMAL"⟩, ⟨1, "JS_STRING"⟩, ⟨2, "JS_NUMBER"⟩]⟩, ⟨10, "weak", .flag⟩]
  | oneof => []
  | enum => [⟨2, "allow_alias", .flag⟩, ⟨3, "deprecated", .flag⟩]
  | enumValue => [⟨1, "deprecated", .flag⟩]
  | extensionRange => []
  | service => [⟨33, "deprecated", .flag⟩]
  | method =>
    [⟨33, "deprecated", .flag⟩,
      ⟨34, "idempotency_level",
        .choice [⟨0, "IDEMPOTENCY_UNKNOWN"⟩, ⟨1, "NO_SIDE_EFFECTS"⟩, ⟨2, "IDEMPOTENT"⟩]⟩]

end OptionSubject

/-- Where a set of options holds those that are written by name and still to be looked up. -/
def Options.writtenNumber : Nat := 999

end WireQuery
