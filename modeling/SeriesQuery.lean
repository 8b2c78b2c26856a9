import SeriesQuery.Plan.Explanation
import SeriesQuery.Plan.Planner
import SeriesQuery.Query.Execution
import SeriesQuery.Series.Builder
import SeriesQuery.Series.Comparison
import SeriesQuery.Series.Document
import SeriesQuery.Stage.Wire
import SeriesQuery.Proofs.BucketReach
import SeriesQuery.Proofs.Query.Attempts
import SeriesQuery.Proofs.Query.Cancellation
import SeriesQuery.Proofs.Query.Failures
import SeriesQuery.Proofs.Query.ReferenceRings
import SeriesQuery.Proofs.Query.Scheduling
import SeriesQuery.Proofs.Query.Profiling
import SeriesQuery.Proofs.Query.WellFormed
import SeriesQuery.Proofs.Query.FinalAggregation
import SeriesQuery.Proofs.Query.RegistrationOrder
import SeriesQuery.Proofs.Wire.Messages
import SeriesQuery.Proofs.Series.Construction
import SeriesQuery.Proofs.Series.Tolerance
import SeriesQuery.Proofs.Plan.Durations
import SeriesQuery.Proofs.Plan.GlobalMarks
import SeriesQuery.Proofs.Plan.Numbering
import SeriesQuery.Proofs.Plan.Pipelines
import SeriesQuery.Proofs.Stage.BucketWalk
import SeriesQuery.Proofs.Stage.Explaining
import SeriesQuery.Proofs.Stage.Matching
import SeriesQuery.Proofs.Stage.Repeating
import SeriesQuery.Proofs.Summary.Extremes
import SeriesQuery.Proofs.Summary.Percentiles
