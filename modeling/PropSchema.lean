import PropSchema.Main
import PropSchema.Service
import PropSchema.Proofs.Schema.Forms
import PropSchema.Proofs.Schema.Merge
import PropSchema.Proofs.Schema.Grouping
import PropSchema.Proofs.Classify.Growth
import PropSchema.Proofs.Classify.Requests
import PropSchema.Proofs.LeastSolution
import PropSchema.Proofs.Classify.Reading
import PropSchema.Proofs.Classify.Table
import PropSchema.Proofs.Classify.Closed
import PropSchema.Proofs.TypeGraph.Forms
import PropSchema.Proofs.Classify.Correspondence
import PropSchema.Proofs.Components.Correspondence
import PropSchema.Proofs.TypeScript.Label
import PropSchema.Proofs.TypeScript.Labelled
import PropSchema.Proofs.TypeScript.Mentions
import PropSchema.Proofs.TypeScript.Tracking
import PropSchema.Proofs.TypeScript.Framework
import PropSchema.Proofs.TypeScript.Parts
import PropSchema.Proofs.TypeScript.Declared
import PropSchema.Proofs.TypeScript.Scenes
import PropSchema.Proofs.TypeScript.Records
import PropSchema.Proofs.TypeScript.Resolved
import PropSchema.Proofs.TypeScript.Exported
import PropSchema.Proofs.TypeScript.Alone
import PropSchema.Proofs.Scan
import PropSchema.Proofs.Binary64.Rounding
import PropSchema.Proofs.Json.Numbers
import PropSchema.Proofs.Json.Strings
import PropSchema.Proofs.Json.Scalars
import PropSchema.Proofs.Entries
import PropSchema.Proofs.Json.RoundTrip
import PropSchema.Proofs.Json.Reading
import PropSchema.Proofs.Schema.Wire
import PropSchema.Proofs.Schema.Text
import PropSchema.Proofs.Schema.Reading
import PropSchema.Proofs.Schema.Grammar
import PropSchema.Proofs.TypeGraph.Relocation
import PropSchema.Proofs.Classify.Relocation
import PropSchema.Proofs.TypeScript.Relocation
import PropSchema.Proofs.Json.Sorted
import PropSchema.Proofs.Schema.Sorted
import PropSchema.Proofs.Text.Utf8
import PropSchema.Proofs.Json.Printable
import PropSchema.Proofs.FileTree
import PropSchema.Proofs.FileTree.WellFormed
import PropSchema.Proofs.FileTree.Sources
import PropSchema.Proofs.ResultCache.Entry
import PropSchema.Proofs.ResultCache.Loading
import PropSchema.Proofs.ResultCache.File
import PropSchema.Proofs.ResultCache.Map
import PropSchema.Proofs.Settings
import PropSchema.Proofs.Project.Keys
import PropSchema.Proofs.Project.Cache
import PropSchema.Proofs.Project.Steps
import PropSchema.Proofs.Project.Transparency
import PropSchema.Proofs.Classify.Rooted
import PropSchema.Proofs.Project.Assignments
import PropSchema.Proofs.Project.Upkeep
import PropSchema.Proofs.Project.Rooted
import PropSchema.Proofs.Project.Exclusions
import PropSchema.Proofs.TypeScript.Assembly
import PropSchema.Proofs.TypeScript.Construction
import PropSchema.Proofs.TypeScript.Whole
import PropSchema.Proofs.TypeScript.Inherited
import PropSchema.Proofs.TypeScript.Settling
import PropSchema.Proofs.TypeScript.Termination
import PropSchema.Proofs.TypeScript.Finishing
import PropSchema.Proofs.Classify.Termination
import PropSchema.Proofs.Classify.Props
import PropSchema.Proofs.TypeScript.Changes.Declared
import PropSchema.Proofs.TypeScript.Instances
import PropSchema.Proofs.Classify.Lenient
import PropSchema.Proofs.Classify.Policy
import PropSchema.Proofs.TypeScript.Sound
import PropSchema.Proofs.Scan.Lenient
import PropSchema.Proofs.TypeGraph.Opening
import PropSchema.Proofs.TypeGraph.Likeness
import PropSchema.Proofs.Classify.Abreast
import PropSchema.Proofs.TypeScript.Alike
import PropSchema.Proofs.TypeScript.Link
import PropSchema.Proofs.TypeScript.Alongside
import PropSchema.Proofs.TypeScript.Regrouping
import PropSchema.Proofs.TypeScript.ExportsAlike
import PropSchema.Proofs.Scan.Alike
import PropSchema.Proofs.TypeScript.Names
import PropSchema.Proofs.TypeScript.Rewriting
import PropSchema.Proofs.TypeScript.RewrittenModules
import PropSchema.Proofs.TypeScript.SameNames
import PropSchema.Proofs.Scan.Parentheses
import PropSchema.Proofs.TypeScript.RewrittenSizes
import PropSchema.Proofs.TypeScript.Rearranged
import PropSchema.Proofs.Scan.Order
import PropSchema.Proofs.TypeScript.Renamed
import PropSchema.Proofs.TypeScript.Respelling
import PropSchema.Proofs.TypeScript.Hygiene
import PropSchema.Proofs.Scan.Renaming
import PropSchema.Proofs.TypeScript.ClassTable
import PropSchema.Proofs.TypeScript.ExactExports
import PropSchema.Proofs.Scan.Exports
import PropSchema.Proofs.Classify.Deeper
import PropSchema.Proofs.TypeGraph.NestedUnions
import PropSchema.Proofs.TypeGraph.FlatUnions
import PropSchema.Proofs.Numeral
import PropSchema.Proofs.TypeScript.Enumerations
import PropSchema.Proofs.TypeGraph.Composed
import PropSchema.Proofs.Classify.Unions
import PropSchema.Proofs.Classify.Again
import PropSchema.Proofs.Classify.Truthful
import PropSchema.Proofs.Classify.Partials
import PropSchema.Proofs.TypeScript.Written
import PropSchema.Proofs.TypeScript.Demands
import PropSchema.Proofs.TypeScript.Demands.Types
import PropSchema.Proofs.Scan.Members
import PropSchema.Proofs.Binary64.Finite
import PropSchema.Proofs.Json.Standard
import PropSchema.Proofs.Json.Accepted
import PropSchema.Proofs.Schema.Standard
import PropSchema.Proofs.Scan.Standard
import PropSchema.Proofs.Components.Discovery
import PropSchema.Proofs.Project.Listing
import PropSchema.Proofs.Settings.Loading
import PropSchema.Proofs.Classify.Trails
import PropSchema.Proofs.TypeGraph.Parameters
import PropSchema.Proofs.Classify.SideBySide
import PropSchema.Proofs.Classify.Parameters
