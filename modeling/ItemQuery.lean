import ItemQuery.Aml.Reader
import ItemQuery.Aml.Select
import ItemQuery.Aml.Writer
import ItemQuery.Arena
import ItemQuery.Calendar.Date
import ItemQuery.Calendar.Text
import ItemQuery.Coercion
import ItemQuery.CommandLine.Arguments
import ItemQuery.CommandLine.Files
import ItemQuery.CommandLine.Run
import ItemQuery.Config.Document
import ItemQuery.Config.Json
import ItemQuery.Config.Load
import ItemQuery.Config.Toml.Reader
import ItemQuery.Config.Toml.Scalar
import ItemQuery.Config.Toml.Text
import ItemQuery.Config.Toml.Tree
import ItemQuery.Convert
import ItemQuery.Dictionary
import ItemQuery.Error
import ItemQuery.Expr.Basic
import ItemQuery.Expr.Function
import ItemQuery.Expr.Operator
import ItemQuery.Main
import ItemQuery.Normalize
import ItemQuery.Number.Decimal
import ItemQuery.Number.Integer
import ItemQuery.Number.Shortest
import ItemQuery.OData
import ItemQuery.Pattern.Basic
import ItemQuery.Pattern.Regex
import ItemQuery.Pattern.Simplify
import ItemQuery.Pattern.Wildcard
import ItemQuery.Proofs.Aml.Accepted
import ItemQuery.Proofs.Aml.Arrivals
import ItemQuery.Proofs.Aml.Attributes
import ItemQuery.Proofs.Aml.Conveyed
import ItemQuery.Proofs.Aml.Elements
import ItemQuery.Proofs.Aml.Filters
import ItemQuery.Proofs.Aml.Formed
import ItemQuery.Proofs.Aml.Ids
import ItemQuery.Proofs.Aml.Joined
import ItemQuery.Proofs.Aml.Leaves
import ItemQuery.Proofs.Aml.Listing
import ItemQuery.Proofs.Aml.Lists
import ItemQuery.Proofs.Aml.Nesting
import ItemQuery.Proofs.Aml.Placement
import ItemQuery.Proofs.Aml.Relisting
import ItemQuery.Proofs.Aml.Reselecting
import ItemQuery.Proofs.Aml.RoundTrip
import ItemQuery.Proofs.Aml.SelectText
import ItemQuery.Proofs.Aml.Selected
import ItemQuery.Proofs.Aml.Told
import ItemQuery.Proofs.Aml.Visits
import ItemQuery.Proofs.Arena
import ItemQuery.Proofs.Calendar.Texts
import ItemQuery.Proofs.Constants
import ItemQuery.Proofs.Dictionary
import ItemQuery.Proofs.Expr.Grouping
import ItemQuery.Proofs.Expr.Handles
import ItemQuery.Proofs.Expr.Names
import ItemQuery.Proofs.Expr.Nodes
import ItemQuery.Proofs.Expr.Tables
import ItemQuery.Proofs.Expr.Truth
import ItemQuery.Proofs.Expr.Value
import ItemQuery.Proofs.Ids
import ItemQuery.Proofs.Normalize.FixedPoint
import ItemQuery.Proofs.Normalize.Interruption
import ItemQuery.Proofs.Normalize.Meaning
import ItemQuery.Proofs.Normalize.NormalForm
import ItemQuery.Proofs.Normalize.Rules
import ItemQuery.Proofs.Number.Digits
import ItemQuery.Proofs.OData.Ids
import ItemQuery.Proofs.Pattern.Canonical
import ItemQuery.Proofs.Pattern.Everywhere
import ItemQuery.Proofs.Pattern.Matching
import ItemQuery.Proofs.Pattern.Neighbours
import ItemQuery.Proofs.Pattern.RegexRendering
import ItemQuery.Proofs.Pattern.RegexText
import ItemQuery.Proofs.Pattern.Rendering
import ItemQuery.Proofs.Pattern.Shapes
import ItemQuery.Proofs.Pattern.Simplification
import ItemQuery.Proofs.Pattern.Translation
import ItemQuery.Proofs.Pattern.WildcardText
import ItemQuery.Proofs.Query.Blocks
import ItemQuery.Proofs.Query.Calls
import ItemQuery.Proofs.Query.Copies
import ItemQuery.Proofs.Query.Filters
import ItemQuery.Proofs.Query.Forest
import ItemQuery.Proofs.Query.Handles
import ItemQuery.Proofs.Query.Ids
import ItemQuery.Proofs.Query.KeyTree
import ItemQuery.Proofs.Query.Near
import ItemQuery.Proofs.Query.Orders
import ItemQuery.Proofs.Query.Renaming
import ItemQuery.Proofs.Query.Requests
import ItemQuery.Proofs.Query.Resolution
import ItemQuery.Proofs.Query.Sharing
import ItemQuery.Proofs.Query.Subtrees
import ItemQuery.Proofs.Query.Traversal
import ItemQuery.Proofs.Query.Tree
import ItemQuery.Proofs.Query.WellFormed
import ItemQuery.Proofs.Result
import ItemQuery.Proofs.Search.Applying
import ItemQuery.Proofs.Search.Dates
import ItemQuery.Proofs.Search.Days
import ItemQuery.Proofs.Search.Escaping
import ItemQuery.Proofs.Search.Grid
import ItemQuery.Proofs.Search.Pieces
import ItemQuery.Proofs.Search.Terms
import ItemQuery.Proofs.Search.Texts
import ItemQuery.Proofs.Search.Values
import ItemQuery.Proofs.Search.Wildcards
import ItemQuery.Proofs.Sql.Actions
import ItemQuery.Proofs.Sql.Arithmetic
import ItemQuery.Proofs.Sql.Atoms
import ItemQuery.Proofs.Sql.Bounds
import ItemQuery.Proofs.Sql.Chunks
import ItemQuery.Proofs.Sql.Clauses
import ItemQuery.Proofs.Sql.Comments
import ItemQuery.Proofs.Sql.Copies
import ItemQuery.Proofs.Sql.Declared
import ItemQuery.Proofs.Sql.Fragments
import ItemQuery.Proofs.Sql.Ids
import ItemQuery.Proofs.Sql.InLists
import ItemQuery.Proofs.Sql.Inline
import ItemQuery.Proofs.Sql.Joining
import ItemQuery.Proofs.Sql.Layout
import ItemQuery.Proofs.Sql.Munching
import ItemQuery.Proofs.Sql.Naming
import ItemQuery.Proofs.Sql.Pairing
import ItemQuery.Proofs.Sql.Placeless
import ItemQuery.Proofs.Sql.Places
import ItemQuery.Proofs.Sql.Quoted
import ItemQuery.Proofs.Sql.Reading
import ItemQuery.Proofs.Sql.Recognizers
import ItemQuery.Proofs.Sql.References
import ItemQuery.Proofs.Sql.Regrouping
import ItemQuery.Proofs.Sql.Renaming
import ItemQuery.Proofs.Sql.Respacing
import ItemQuery.Proofs.Sql.RoundTrip
import ItemQuery.Proofs.Sql.Scanning
import ItemQuery.Proofs.Sql.Scoping
import ItemQuery.Proofs.Sql.Signs
import ItemQuery.Proofs.Sql.Spelling
import ItemQuery.Proofs.Sql.Stacks
import ItemQuery.Proofs.Sql.Supply
import ItemQuery.Proofs.Sql.Tidy
import ItemQuery.Proofs.Sql.TidyParts
import ItemQuery.Proofs.Sql.ValueLists
import ItemQuery.Proofs.Sql.Weights
import ItemQuery.Proofs.Sql.Writing
import ItemQuery.Proofs.StoredQuery.Conditions
import ItemQuery.Proofs.StoredQuery.Constants
import ItemQuery.Proofs.StoredQuery.Documents
import ItemQuery.Proofs.StoredQuery.Growth
import ItemQuery.Proofs.StoredQuery.Ids
import ItemQuery.Proofs.StoredQuery.Lists
import ItemQuery.Proofs.StoredQuery.RoundTrip
import ItemQuery.Proofs.StoredQuery.Tree
import ItemQuery.Proofs.Text.Cutting
import ItemQuery.Proofs.Text.Pieces
import ItemQuery.Proofs.Text.Quoting
import ItemQuery.Proofs.Text.Shrinking
import ItemQuery.Proofs.Xml.Markup
import ItemQuery.Proofs.Xml.Reading
import ItemQuery.Proofs.Xml.Shrinking
import ItemQuery.Proofs.Xml.Trees
import ItemQuery.Proofs.Xml.Writing
import ItemQuery.Query.Basic
import ItemQuery.Query.Clone
import ItemQuery.Schema
import ItemQuery.Search.Condition
import ItemQuery.Search.Criteria
import ItemQuery.Search.Reader
import ItemQuery.Search.Writer
import ItemQuery.Settings
import ItemQuery.Sql.Alias
import ItemQuery.Sql.Dialect
import ItemQuery.Sql.InLists
import ItemQuery.Sql.Statement
import ItemQuery.Sql.Token
import ItemQuery.Sql.Where
import ItemQuery.StoredQuery.Condition
import ItemQuery.StoredQuery.Reader
import ItemQuery.StoredQuery.Writer
import ItemQuery.Text.Blank
import ItemQuery.Text.Letters
import ItemQuery.Text.Quoted
import ItemQuery.Xml.Element
import ItemQuery.Xml.Event
import ItemQuery.Xml.Reader
import ItemQuery.Xml.Writer
