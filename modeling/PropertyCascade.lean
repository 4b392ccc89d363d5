import PropertyCascade.Cache.Lemmas
import PropertyCascade.Main
import PropertyCascade.Proofs.Cache.Requests
import PropertyCascade.Proofs.ConfigFile.Concatenation
import PropertyCascade.Proofs.ConfigFile.Entries
import PropertyCascade.Proofs.ConfigFile.Isolation
import PropertyCascade.Proofs.ConfigFile.Layout
import PropertyCascade.Proofs.Glob.Alternation
import PropertyCascade.Proofs.Glob.DigitAlternatives
import PropertyCascade.Proofs.Glob.Escapes
import PropertyCascade.Proofs.Glob.Exactness
import PropertyCascade.Proofs.Glob.Expression
import PropertyCascade.Proofs.Glob.Globstar
import PropertyCascade.Proofs.Glob.Item
import PropertyCascade.Proofs.Glob.Locality
import PropertyCascade.Proofs.Glob.Matching
import PropertyCascade.Proofs.Glob.NoTraps
import PropertyCascade.Proofs.Glob.Offsets
import PropertyCascade.Proofs.Glob.Pieces
import PropertyCascade.Proofs.Glob.RangeSyntax
import PropertyCascade.Proofs.Glob.Reading
import PropertyCascade.Proofs.Glob.Source
import PropertyCascade.Proofs.Number.Positional
import PropertyCascade.Proofs.Number.Rounding
import PropertyCascade.Proofs.Number.Shortest
import PropertyCascade.Proofs.Number.Whole
import PropertyCascade.Proofs.PathName.Normalization
import PropertyCascade.Proofs.PathName.Spelling
import PropertyCascade.Proofs.PlainEntries
import PropertyCascade.Proofs.PlainReport
import PropertyCascade.Proofs.Properties
import PropertyCascade.Proofs.Report
import PropertyCascade.Proofs.ReportTables
import PropertyCascade.Proofs.Resolution.Precedence
import PropertyCascade.Proofs.Resolution.Provenance
import PropertyCascade.Proofs.Resolution.ReadSet
import PropertyCascade.Proofs.Resolution.Relocation
import PropertyCascade.Proofs.Run
import PropertyCascade.Proofs.Search
import PropertyCascade.Proofs.Session.Filling
import PropertyCascade.Proofs.Session.Invalidation
import PropertyCascade.Proofs.Session.Reach
import PropertyCascade.Proofs.Session.RootDirective
import PropertyCascade.Proofs.Session.Sharing
import PropertyCascade.Proofs.Text.Utf8Decoding
import PropertyCascade.Proofs.Text.Utf8Order
import PropertyCascade.Proofs.Toml.Document
import PropertyCascade.Proofs.Toml.Quoted
import PropertyCascade.Proofs.Toml.Scalar
import PropertyCascade.Proofs.Value
import PropertyCascade.Session
