import Catalyst.Runs.Lease
import Catalyst.Access.TokenAuthority
import Catalyst.Users.Concurrent
import Catalyst.Web.Fetcher
import Catalyst.Access.Semantics
import Catalyst.Gateway.Accounting
import Catalyst.Runs.WorkerEnd
import Catalyst.Operations.Replay
import Catalyst.Starts.Idempotency
import Catalyst.Grants.Follow
import Catalyst.Usage.Summed
import Catalyst.Jobs.Schedule
import Catalyst.Namespaces.Sound
import Catalyst.ExecutionWorkspaces.Retained
import Catalyst.ChatUi.ExactlyOnce
import Catalyst.Pages.Shell
import Catalyst.ModelContext.Ordering
import Catalyst.Approvals.Once
import Catalyst.Sql.Statements
import Catalyst.Conversations.Closed
import Catalyst.Passwords.Links
import Catalyst.FileSets.Cleanup
import Catalyst.Migrations.Once
import Catalyst.Closing.Closed
import Catalyst.Deletions.Kept
import Catalyst.Usage.Refusals
import Catalyst.Gateway.Retries
import Catalyst.Usage.Covered
import Catalyst.ModelContext.OutputBound
import Catalyst.ModelContext.Window
import Catalyst.ModelContext.ImageBudget
import Catalyst.Runs.EventLog
import Catalyst.ChatUi.Parts
import Catalyst.WorkspaceCommands.Synced
import Catalyst.Assets.Paging
import Catalyst.Patches.RoundTrip
import Catalyst.Patches.Tool
import Catalyst.Sql.Arrays
import Catalyst.WorkspaceCommands.Lifecycle
import Catalyst.Assets.SyncAnswers
import Catalyst.Audit.Evidence
import Catalyst.ConfigCli.Diff
import Catalyst.Gateway.Assembly
import Catalyst.Messages.Created
import Catalyst.Operations.Policy
import Catalyst.RateLimiter.Limits
import Catalyst.Skills.Faithful
import Catalyst.Users.Superadmins
import Catalyst.Workspaces.Authority
import Catalyst.Access.BearerTokens
import Catalyst.ModelContext.Decisions
import Catalyst.Sql.Rows
import Catalyst.StructuredData.Lost
import Catalyst.Conversations.Order
import Catalyst.Pages.ContentToken
import Catalyst.Usage.Backfill
import Catalyst.ObjectStorage.Filesystem
import Catalyst.Assets.ChangeCheck
import Catalyst.Conversations.Moving
import Catalyst.Previews.Runs
import Catalyst.Previews.Settled
import Catalyst.WorkspaceCommands.Hydration
import Catalyst.ModelContext.Turns
