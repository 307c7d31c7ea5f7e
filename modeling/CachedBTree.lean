import CachedBTree.Model.Lookup
import CachedBTree.Contents
import CachedBTree.Descent
import CachedBTree.Queues
import CachedBTree.Insertion.Runs
import CachedBTree.Insertion.Atomicity
import CachedBTree.Insertion.Splits
import CachedBTree.Caching.Growth
import CachedBTree.Caching.Operations
import CachedBTree.Caching.Lookup
import CachedBTree.Caching.Runs
import CachedBTree.Caching.Sizes
import CachedBTree.Layout
import CachedBTree.Removal.Faults
import CachedBTree.Removal.Runs
import CachedBTree.Removal.Quiet
import CachedBTree.Removal.Returns
import CachedBTree.Routes
import CachedBTree.Caching.Cold
import CachedBTree.Caching.Updates
import CachedBTree.Caching.Agreement
import CachedBTree.Caching.Answers
import CachedBTree.Caching.Coherence
import CachedBTree.Caching.Lifecycle
import CachedBTree.Caching.Rounds
import CachedBTree.Caching.Supply
import CachedBTree.Removal.Absent
import CachedBTree.Removal.Fills
import CachedBTree.Iteration.Predecessor
import CachedBTree.Iteration.Walk
import CachedBTree.Iteration.Reaping
import CachedBTree.Iteration.Cycling
import CachedBTree.Iteration.Removing
import CachedBTree.Typed.Iteration
import CachedBTree.Merging.Merge
import CachedBTree.Monitoring.Visits
import CachedBTree.Monitoring.Report
import CachedBTree.Monitoring.Conservation
import CachedBTree.Monitoring.Races
import CachedBTree.Timing.Commas
import CachedBTree.Timing.Percentage
import CachedBTree.Timing.Measures
import CachedBTree.Timing.Lines
import CachedBTree.Caching.Sticking
import CachedBTree.Caching.Transparency
import CachedBTree.Caching.Profile
import CachedBTree.Caching.Teardown
