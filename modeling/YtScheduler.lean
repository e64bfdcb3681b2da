import YtScheduler.Laws.Release
import YtScheduler.Laws.Rows
import YtScheduler.Laws.Claims
import YtScheduler.Laws.Marks
import YtScheduler.Laws.Pending
import YtScheduler.Laws.Shards
import YtScheduler.Laws.Retries
import YtScheduler.Laws.Callbacks
import YtScheduler.Laws.Deadlock
import YtScheduler.Laws.Shutdown
import YtScheduler.Laws.Storage
import YtScheduler.Laws.Acyclic
import YtScheduler.Laws.Progress
import YtScheduler.Laws.Finalize
import YtScheduler.Laws.Refs
import YtScheduler.Laws.Creation
import YtScheduler.Laws.Verdict
import YtScheduler.Laws.Metas
import YtScheduler.Laws.Skips
import YtScheduler.Laws.Updates
import YtScheduler.Laws.Starts
import YtScheduler.Laws.Datetimes
import YtScheduler.Laws.Payloads
import YtScheduler.Laws.Drift
import YtScheduler.Laws.Guarded
import YtScheduler.Laws.Dependencies
import YtScheduler.Laws.Moduli
import YtScheduler.Laws.Stamps
import YtScheduler.Laws.Orphans
import YtScheduler.Laws.Backoff
import YtScheduler.Laws.Invocations
import YtScheduler.Laws.Sharing
import YtScheduler.Laws.Crashes
import YtScheduler.Laws.Filters
import YtScheduler.Laws.Lookups
import YtScheduler.Laws.Rendered
import YtScheduler.Laws.Traces
import YtScheduler.Laws.Births
import YtScheduler.Laws.Advances
import YtScheduler.Services.Walks
import YtScheduler.Laws.Operations
import YtScheduler.Laws.Contexts
import YtScheduler.Laws.Commands
import YtScheduler.Laws.Completion
