import SearchArgument.Decimal.Basic
import SearchArgument.Decimal.Text
import SearchArgument.Json
import SearchArgument.Value
import SearchArgument.Cut
import SearchArgument.Fault
import SearchArgument.Event
import SearchArgument.Domain
import SearchArgument.Domain.Scalar
import SearchArgument.Span
import SearchArgument.Interval
import SearchArgument.Tree
import SearchArgument.RangeSet
import SearchArgument.Tree.Evaluate
import SearchArgument.Predicate
import SearchArgument.Predicate.Lower
import SearchArgument.Predicate.Truth
import SearchArgument.Metrics.Counters
import SearchArgument.Metrics.Recorder
import SearchArgument.Proofs.Decimal
import SearchArgument.Proofs.Decimal.Text
import SearchArgument.Proofs.Json.Token
import SearchArgument.Proofs.Json.Text
import SearchArgument.Proofs.Domain.Scale
import SearchArgument.Proofs.Value
import SearchArgument.Proofs.Domain.Scalar
import SearchArgument.Proofs.Domain.Range
import SearchArgument.Proofs.Value.Text
import SearchArgument.Proofs.Value.Json
import SearchArgument.Proofs.Metrics.Activity
import SearchArgument.Proofs.Seam
import SearchArgument.Proofs.Form
import SearchArgument.Proofs.Span.Extent
import SearchArgument.Proofs.Span.Canonical
import SearchArgument.Proofs.Span.Union
import SearchArgument.Proofs.Span.Settled
import SearchArgument.Proofs.Span.Form
import SearchArgument.Proofs.Span.Match
import SearchArgument.Proofs.Span.Intersection
import SearchArgument.Proofs.Span.Complement
import SearchArgument.Proofs.Span.Cuts
import SearchArgument.Proofs.Span.Merges
import SearchArgument.Proofs.Interval
import SearchArgument.Proofs.Interval.Effect
import SearchArgument.Proofs.Interval.Calls
import SearchArgument.Proofs.Interval.Order
import SearchArgument.Proofs.RangeSet
import SearchArgument.Proofs.Span.Text
import SearchArgument.Proofs.Tree.Form
import SearchArgument.Proofs.Tree.Operands
import SearchArgument.Proofs.Tree.Evaluation
import SearchArgument.Proofs.Tree.Failure
import SearchArgument.Proofs.Tree.Agreement
import SearchArgument.Proofs.Tree.Lattice
import SearchArgument.Proofs.Tree.Partition
import SearchArgument.Proofs.Tree.FixedPoint
import SearchArgument.Proofs.Tree.Size
import SearchArgument.Proofs.Tree.Account
import SearchArgument.Proofs.RangeSet.Access
import SearchArgument.Proofs.RangeSet.Explanation
import SearchArgument.Proofs.RangeSet.Text
import SearchArgument.Proofs.Predicate.Lower
import SearchArgument.Proofs.Predicate.Comparison
import SearchArgument.Proofs.Predicate.Negation
import SearchArgument.Proofs.Predicate.Truth
import SearchArgument.Proofs.Predicate.Literals
import SearchArgument.Proofs.Predicate.Kleene
import SearchArgument.Proofs.Predicate.DoubleNegation
import SearchArgument.Proofs.Predicate.Calls
import SearchArgument.Proofs.Interval.Numeric
import SearchArgument.Proofs.Domain.Dense
import SearchArgument.Proofs.Domain.Fraction
import SearchArgument.Proofs.Tree.Unique
