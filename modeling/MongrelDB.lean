import MongrelDB.Lib.Bytes
import MongrelDB.Lib.Decimal
import MongrelDB.Lib.Json
import MongrelDB.Lib.Scan
import MongrelDB.Lib.Prog
import MongrelDB.Lib.Block
import MongrelDB.Types
import MongrelDB.Parser
import MongrelDB.Parser.Walk
import MongrelDB.Parser.Sound
import MongrelDB.Sbuf
import MongrelDB.Alloc
import MongrelDB.Lookup
import MongrelDB.Lookup.Find
import MongrelDB.Lookup.Fields
import MongrelDB.Lookup.Strings
import MongrelDB.Lookup.Presence
import MongrelDB.Lookup.Safety
import MongrelDB.Tables
import MongrelDB.Tables.Names
import MongrelDB.Tables.Body
import MongrelDB.Page
import MongrelDB.Page.Layout
import MongrelDB.Page.Invariant
import MongrelDB.Page.Value
import MongrelDB.Page.Steps
import MongrelDB.Page.Cells
import MongrelDB.Page.Members
import MongrelDB.Page.Rows
import MongrelDB.Page.Resolve
import MongrelDB.Page.Result
import MongrelDB.Page.Scan
import MongrelDB.Page.Body
import MongrelDB.Page.Response
import MongrelDB.Page.Cutoff
import MongrelDB.Hidden
import MongrelDB.Safety
import MongrelDB.Serialize
import MongrelDB.Serialize.Text
import MongrelDB.Serialize.Members
import MongrelDB.Serialize.RoundTrip
import MongrelDB.Status
import MongrelDB.Status.Fields
import MongrelDB.Status.Presence
import MongrelDB.Serialize.Appends
import MongrelDB.Client
import MongrelDB.Client.Request
import MongrelDB.Client.Delivery
import MongrelDB.Commit
import MongrelDB.Commit.Body
import MongrelDB.Commit.Intact
import MongrelDB.Query
import MongrelDB.Query.Body
import MongrelDB.Query.Request
import MongrelDB.Schema
import MongrelDB.Schema.Written
import MongrelDB.Schema.Fits
import MongrelDB.Schema.Tuning
import MongrelDB.Unsigned
import MongrelDB.Status.Clock
import MongrelDB.Api
import MongrelDB.Tables.Listed
import MongrelDB.Api.Results
import MongrelDB.Path
import MongrelDB.Lib.Percent
import MongrelDB.Count
import MongrelDB.Client.Errors
import MongrelDB.Client.Envelope
import MongrelDB.Lib.Bracket
import MongrelDB.Lookup.Locality
import MongrelDB.Serialize.Escape
import MongrelDB.Client.Chunks
import MongrelDB.Serialize.Doubles
import MongrelDB.Sbuf.Memory
import MongrelDB.Sbuf.Operations
import MongrelDB.Query.Predicate
import MongrelDB.Lib.Number
import MongrelDB.Page.Numbers
import MongrelDB.Serialize.Optional
import MongrelDB.Schema.Table
import MongrelDB.Status.Strings
import MongrelDB.Lib.Points
import MongrelDB.Lib.Slices
import MongrelDB.Page.Points
import MongrelDB.Page.Slots
import MongrelDB.Tables.Points
import MongrelDB.Tables.Slots
import MongrelDB.Loops
import MongrelDB.Client.Slot
import MongrelDB.Api.Calls
import MongrelDB.Path.Encoder
import MongrelDB.Growth
import MongrelDB.Page.Counts
import MongrelDB.Tables.Counts
import MongrelDB.Capacities
import MongrelDB.Lib.Runs
import MongrelDB.Client.Intact
import MongrelDB.Api.Outline
import MongrelDB.Api.Log
import MongrelDB.Api.Wire
import MongrelDB.Lib.Memory
import MongrelDB.Lifecycle
import MongrelDB.Api.Lifetime
import MongrelDB.Lib.Pairs
import MongrelDB.Client.Alike
import MongrelDB.Api.Alike
import MongrelDB.Client.Verdict
import MongrelDB.Api.Verdict
import MongrelDB.Schema.Indexed
import MongrelDB.Query.Says
import MongrelDB.Api.Format
import MongrelDB.Api.Intact
import MongrelDB.Lib.Doubling
import MongrelDB.Sbuf.Amortized
