import Teptris.Dom.Float
import Teptris.Dom.Rounding
import Teptris.Dom.WellFormed
import Teptris.Dom.Tree
import Teptris.Dom.Same
import Teptris.Dom.Height
import Teptris.Dom.Access
import Teptris.Parse.Scan
import Teptris.Parse.Str
import Teptris.Parse.Number
import Teptris.Parse.DateTime
import Teptris.Parse.KeyPath
import Teptris.Parse.Table
import Teptris.Parse.Value
import Teptris.Parse.Header
import Teptris.Parse.Run
import Teptris.Library.Utf8
import Teptris.Parse.FastPath
import Teptris.Parse.Progress
import Teptris.Parse.Invariant
import Teptris.Parse.State
import Teptris.Parse.HeaderPath
import Teptris.Parse.Reachable
import Teptris.Parse.Encoding
import Teptris.Parse.InvalidAt
import Teptris.Parse.HeaderDepth
import Teptris.Parse.Limit
import Teptris.Parse.Failures
import Teptris.Parse.Depth
import Teptris.Emit.Writer
import Teptris.Emit.Agreement
import Teptris.Emit.Flatten
import Teptris.Emit.Session
import Teptris.Emit.Rendering
import Teptris.Library.Json
import Teptris.Emit.Digits
import Teptris.Emit.Decimal
import Teptris.Emit.Json
import Teptris.Emit.Quoted
import Teptris.Parse.PlainBody
import Teptris.Emit.Scalars
import Teptris.Emit.Reread
import Teptris.Emit.Sections
import Teptris.Emit.RoundTrip
import Teptris.Emit.SameTree
import Teptris.Emit.Built
import Teptris.Plan.Plan
import Teptris.Plan.Projection
import Teptris.Plan.Walk
import Teptris.Plan.Calls
import Teptris.Plan.Reads
import Teptris.Plan.Reading
import Teptris.Schema.Semantics
import Teptris.Schema.Effect
import Teptris.Schema.Verdict
import Teptris.Schema.Regex
import Teptris.Schema.RegexNfa
import Teptris.Schema.RegexSemantics
import Teptris.Schema.RegexEmit
import Teptris.Schema.RegexAutomaton
import Teptris.Schema.RegexSearch
import Teptris.Schema.RegexParse
import Teptris.Library.Toml
import Teptris.Grammar.Number
import Teptris.Grammar.Strings
import Teptris.Grammar.Token
import Teptris.Grammar.Values
import Teptris.Grammar.Datetime
import Teptris.Grammar.Document
import Teptris.Grammar.Integer
import Teptris.Grammar.Keys
import Teptris.Grammar.Lexical
import Teptris.Grammar.Float
import Teptris.Emit.Tokens
import Teptris.Emit.FloatText
import Teptris.Library.GrowBuf
import Teptris.Emit.Buffered
import Teptris.Emit.FlatBuffered
import Teptris.Emit.WriterBuffered
import Teptris.Emit.WriterRun
import Teptris.Emit.WriterLost
import Teptris.Emit.Truncation
import Teptris.Dom.Compare
import Teptris.Dom.Rounded
import Teptris.Library.Scaled
import Teptris.Schema.JsonRead
import Teptris.Schema.MultipleOf
import Teptris.Schema.Bounds
import Teptris.Schema.Equality
import Teptris.Schema.DatetimeText
import Teptris.Library.Probing
import Teptris.Dom.Index
import Teptris.Dom.Indexed
import Teptris.Schema.Evaluated
import Teptris.Schema.Annotations
import Teptris.Schema.Probes
import Teptris.Library.SharedCap
import Teptris.Schema.Compile
import Teptris.Schema.DepLists
import Teptris.Schema.GraphWalk
import Teptris.Schema.Balance
import Teptris.Schema.JsonLeaves
import Teptris.Schema.JsonText
import Teptris.Library.UriReference
import Teptris.Schema.Joins
import Teptris.Schema.Uri
import Teptris.Schema.Bases
import Teptris.Schema.Resources
import Teptris.Schema.Names
import Teptris.Schema.Actions
import Teptris.Schema.Report
import Teptris.Schema.Diagnostic
import Teptris.Library.Strides
import Teptris.Schema.RegexDecode
import Teptris.Library.InternetAddress
import Teptris.Schema.Ipv6
import Teptris.Library.SemVersion
import Teptris.Schema.SemVer
import Teptris.Library.Base64
import Teptris.Schema.Base64
import Teptris.Edit.SkipString
import Teptris.Schema.RegexSites
import Teptris.Schema.RegexClassText
import Teptris.Schema.RegexRoom
import Teptris.Schema.RegexClasses
import Teptris.Schema.RegexFold
import Teptris.Schema.SelfScope
import Teptris.Schema.RegexStamps
import Teptris.Library.Storage
import Teptris.Memory.ArenaRanges
import Teptris.Emit.BufferMemory
import Teptris.Schema.ValidatorBuffers
import Teptris.Schema.JsonBuffer
import Teptris.Schema.MemoTable
import Teptris.Schema.MemoCompile
import Teptris.Schema.RegexMatch
import Teptris.Library.TomlSyntax
import Teptris.Edit.Editor
import Teptris.Library.TomlLines
import Teptris.Grammar.Newlines
import Teptris.Edit.Span
import Teptris.Edit.Match
