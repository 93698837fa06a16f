import WireQuery.Main
import WireQuery.Proofs.Extract.Canonical
import WireQuery.Proofs.Extract.Composition
import WireQuery.Proofs.Extract.EnumValues
import WireQuery.Proofs.Extract.Redefinition
import WireQuery.Proofs.Extract.Settled
import WireQuery.Proofs.Extract.Shared
import WireQuery.Proofs.Message.Fits
import WireQuery.Proofs.Message.Reread
import WireQuery.Proofs.Message.RoundTrip
import WireQuery.Proofs.Message.Settle
import WireQuery.Proofs.Path.Display
import WireQuery.Proofs.Path.Grammar
import WireQuery.Proofs.Schema.Enums
import WireQuery.Proofs.Registry.Closed
import WireQuery.Proofs.Registry.Listing
import WireQuery.Proofs.Registry.Origin
import WireQuery.Proofs.Registry.Run
import WireQuery.Proofs.Schema.Linked
import WireQuery.Samples
import WireQuery.Proofs.Registry.Names
import WireQuery.Proofs.Registry.Order
import WireQuery.Proofs.Extract.Absent
import WireQuery.Proofs.Extract.Elements
import WireQuery.Proofs.Extract.Leaves
import WireQuery.Proofs.Extract.Typing
import WireQuery.Proofs.Sql.EnumTable
import WireQuery.Proofs.Sql.Extract
import WireQuery.Proofs.Path.Longest
import WireQuery.Proofs.Registry.Report
import WireQuery.Proofs.Registry.Fields
import WireQuery.Proofs.Extract.Integers
import WireQuery.Proofs.Text.ByteOrder
import WireQuery.Proofs.Registry.Views
import WireQuery.Proofs.Report.CsvHeader
import WireQuery.Proofs.Registry.Built
import WireQuery.Proofs.Extract.Shapes
import WireQuery.Proofs.Registry.Search
import WireQuery.Proofs.Number.Nearest
import WireQuery.Proofs.Number.Numeral
import WireQuery.Proofs.Number.Shortest
import WireQuery.Proofs.Report.JsonReader
import WireQuery.Proofs.Report.JsonNumbers
import WireQuery.Proofs.Report.JsonObjects
import WireQuery.Proofs.Report.JsonLines
