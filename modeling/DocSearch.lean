import DocSearch.Main
import DocSearch.Query.Builder
import DocSearch.Proofs.Query.Decoding
import DocSearch.Proofs.Query.ViablePrefix
import DocSearch.Proofs.Query.WellFormed
import DocSearch.Proofs.Criteria.Broken
import DocSearch.Proofs.Query.Builder
import DocSearch.Proofs.Double.Exact
import DocSearch.Proofs.Query.Printing
import DocSearch.Proofs.Options.Groups
import DocSearch.Proofs.Command.Stages
import DocSearch.Proofs.Command.Output
import DocSearch.Proofs.Query.Refusal
import DocSearch.Proofs.Command.ErrorReport
import DocSearch.Proofs.Token.Pieces
import DocSearch.Proofs.Token.Relaid
import DocSearch.Proofs.Query.Relaid
import DocSearch.Proofs.Settings.Assignments
import DocSearch.Proofs.Settings.Collection
import DocSearch.Proofs.Query.CollectionClause
import DocSearch.Proofs.Command.DefaultCollection
import DocSearch.Proofs.Query.Expansion
import DocSearch.Proofs.Query.PageBounds
import DocSearch.Proofs.Expression.Weight
import DocSearch.Proofs.Query.Counts
import DocSearch.Proofs.Expression.Balance
import DocSearch.Proofs.Query.Balance
import DocSearch.Proofs.Token.Cut
import DocSearch.Proofs.Query.PageClause
import DocSearch.Proofs.Settings.Layout
import DocSearch.Proofs.Settings.Writing
import DocSearch.Proofs.Double.Rounding
import DocSearch.Proofs.Double.Value
import DocSearch.Proofs.Query.Comparisons
import DocSearch.Proofs.Query.Literal
import DocSearch.Proofs.Double.Digits
import DocSearch.Proofs.Double.Notation
import DocSearch.Proofs.Double.Lexical
import DocSearch.Proofs.Settings.Override
import DocSearch.Proofs.Command.Summary
import DocSearch.Proofs.Options.Reading
import DocSearch.Proofs.Command.Sources
import DocSearch.Proofs.Command.FlagOrder
import DocSearch.Proofs.Token.Separation
