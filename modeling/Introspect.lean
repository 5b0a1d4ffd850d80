import Introspect.Query
import Introspect.Reference
import Introspect.Workshop
import Introspect.Proofs.Declaration.Parameters
import Introspect.Proofs.Declaration.WriteOnce
import Introspect.Proofs.Name.Resolution
import Introspect.Proofs.Scan.Pieces
import Introspect.Proofs.Scan.Stream
import Introspect.Proofs.Scan.Tiling
import Introspect.Proofs.Scan.Scopes
import Introspect.Proofs.Scan.Positions
import Introspect.Proofs.Reading.Invariant
import Introspect.Proofs.Reading.Forward
import Introspect.Proofs.Reading.Drafts
import Introspect.Proofs.Reading.Members
import Introspect.Proofs.Reading.Steps
import Introspect.Proofs.Reading.Places
import Introspect.Proofs.Scan.Locality
import Introspect.Proofs.Scan.Passthrough
import Introspect.Proofs.Reading.Contract
import Introspect.Proofs.Reading.Tandem
import Introspect.Proofs.Reading.Walk
import Introspect.Proofs.Reading.Classes
import Introspect.Proofs.Reading.Nesting
import Introspect.Proofs.Reading.Lines
import Introspect.Proofs.Reading.Descriptors
import Introspect.Proofs.Reading.Agreement
import Introspect.Proofs.Scan.Spelling
import Introspect.Proofs.Reading.RoundTrip
import Introspect.Proofs.Reading.Counters
import Introspect.Proofs.Reading.Progress
import Introspect.Proofs.Reading.Visibility
import Introspect.Proofs.Hierarchy.Lookups
import Introspect.Proofs.Session.Cache
import Introspect.Proofs.Session.Order
import Introspect.Proofs.Hierarchy.Growth
import Introspect.Proofs.Hierarchy.Unrooted
import Introspect.Proofs.Declaration.Twins
import Introspect.Proofs.Reading.Resolvers
import Introspect.Proofs.Reading.GlobalCode
import Introspect.Proofs.Hierarchy.Lineage
import Introspect.Proofs.Hierarchy.Closure
import Introspect.Proofs.FileTree.Locating
import Introspect.Proofs.FileTree.Walking
import Introspect.Proofs.FileTree.Links
import Introspect.Proofs.Query.Collecting
import Introspect.Proofs.Query.Files
import Introspect.Proofs.Query.Directory
import Introspect.Proofs.Query.Exclusion
import Introspect.Proofs.Distinct
import Introspect.Proofs.Hierarchy.Descent
import Introspect.Proofs.Hierarchy.Members
import Introspect.Proofs.Hierarchy.Origins
import Introspect.Proofs.Reading.Redeclarations
import Introspect.Proofs.Reading.Bodies
import Introspect.Proofs.Reading.Statements
import Introspect.Proofs.Reading.Delimiters
import Introspect.Proofs.Reading.Refusals
import Introspect.Proofs.Reading.GroupImports
import Introspect.Proofs.Scan.Truncation
import Introspect.Proofs.Scan.Excerpts
import Introspect.Proofs.Reading.Initializers
import Introspect.Proofs.Hierarchy.Constructors
import Introspect.Proofs.Text
import Introspect.Proofs.DocBlock
import Introspect.Proofs.Reading.DocumentedTypes
import Introspect.Proofs.Reading.DocTokens
import Introspect.Proofs.Reading.DocumentedMembers
import Introspect.Proofs.Reading.DocumentedClasses
import Introspect.Proofs.Reading.DocStretches
import Introspect.Proofs.Reading.DocComments
import Introspect.Proofs.Scan.Keywords
import Introspect.Proofs.Rendering
import Introspect.Proofs.Workshop
import Introspect.Proofs.Name.RelativeWords
import Introspect.Proofs.Reading.WrittenTypes
import Introspect.Proofs.Reading.TypeSources
import Introspect.Proofs.Reading.ReplacedTypes
import Introspect.Proofs.Scan.Delimited
import Introspect.Proofs.Scan.Literals
