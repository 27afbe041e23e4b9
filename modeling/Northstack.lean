import Northstack.Core.Task
import Northstack.Core.TaskRules
import Northstack.Core.Trace
import Northstack.Core.PyText
import Northstack.Core.JsonText
import Northstack.Core.Json
import Northstack.Domain.Budget
import Northstack.Domain.Status
import Northstack.Domain.Contract
import Northstack.Domain.Graph
import Northstack.Domain.Outcome
import Northstack.Domain.SecretsPolicy
import Northstack.Application.ReleaseLaw
import Northstack.Application.HardGates
import Northstack.Application.SoftRubric
import Northstack.Adapters.Wire
import Northstack.Events.Catalog
import Northstack.Events.Projection
import Northstack.Application.Recovery
import Northstack.Application.BudgetAuthority
import Northstack.Application.Scheduling
import Northstack.Application.Routing
import Northstack.Application.Run
import Northstack.Application.Accounts
import Northstack.Application.Worker
import Northstack.Application.CellRunner
import Northstack.Application.Planning
import Northstack.Application.Contracting
import Northstack.Application.CellSteps
import Northstack.Application.CellAudit
import Northstack.Application.Orchestrator
import Northstack.Application.Waves
import Northstack.Application.Lifecycle
import Northstack.Application.Refinement
import Northstack.Application.Ending
import Northstack.Application.Auditing
import Northstack.Application.Release
import Northstack.Application.Reservations
import Northstack.Application.Rounds
import Northstack.Application.Mutation
import Northstack.Application.Accounting
import Northstack.Application.Figures
import Northstack.Application.Chains
import Northstack.Core.DoubleRounding
import Northstack.Application.ProjectionCache
import Northstack.Application.PlanningModel
import Northstack.Adapters.Lease
import Northstack.Application.WorkerLease
import Northstack.Core.TaskRuns
import Northstack.Application.Conversations
import Northstack.Adapters.Pairing
import Northstack.Application.Requests
import Northstack.Application.Attempts
import Northstack.Application.RetryTable
import Northstack.Application.CallLimit
import Northstack.Core.JsonRoundTrip
import Northstack.Adapters.Exchange
import Northstack.Adapters.MessageConversion
import Northstack.Adapters.ResponseParsing
import Northstack.Adapters.Assembly
import Northstack.Adapters.OpenAIResponses
import Northstack.Adapters.AnthropicResponses
import Northstack.Adapters.GeminiResponses
import Northstack.Adapters.StreamedResponses
import Northstack.Core.Peeling
import Northstack.Application.Validation
import Northstack.Application.Hardening
import Northstack.Core.Shares
import Northstack.Application.BudgetShares
import Northstack.Core.Runs
import Northstack.Core.Awaitables
import Northstack.Application.Watchdog
import Northstack.Core.JsonValues
import Northstack.Adapters.Ledger
import Northstack.Adapters.Redaction
import Northstack.Adapters.LedgerIntegrity
import Northstack.Application.Links
import Northstack.Core.Latest
import Northstack.Application.Evidence
import Northstack.Core.Shedding
import Northstack.Application.Compaction
import Northstack.Core.TaskTraces
import Northstack.Application.Turns
import Northstack.Application.Allowances
import Northstack.Application.Handovers
import Northstack.Application.Discipline
import Northstack.Application.Durability
import Northstack.Application.Exhaustion
import Northstack.Core.Solo
import Northstack.Application.Batches
import Northstack.Adapters.ResultMarks
import Northstack.Application.Failures
import Northstack.Core.Substrings
import Northstack.Core.TextFiles
import Northstack.Adapters.Workspace
import Northstack.Adapters.Edits
import Northstack.Core.Window
import Northstack.Adapters.Limiter
import Northstack.Adapters.Writes
import Northstack.Core.FileSystem
import Northstack.Adapters.SafePaths
import Northstack.Core.Records
import Northstack.Core.Worklist
import Northstack.Application.TreeWalk
import Northstack.Application.TreeDigest
import Northstack.Core.Urls
import Northstack.Adapters.WebFetch
import Northstack.Adapters.WebVetting
import Northstack.Adapters.WebRedirects
import Northstack.Adapters.WebErrors
import Northstack.Core.Data
import Northstack.Application.TestGoals
import Northstack.Application.FileGates
import Northstack.Core.Changes
import Northstack.Application.TreeStability
import Northstack.Application.AddedGates
import Northstack.Application.HonestRuns
import Northstack.Application.SuitePins
import Northstack.Core.Fallible
import Northstack.Core.DataText
import Northstack.Application.Acceptance
import Northstack.Application.TypedCriteria
import Northstack.Application.Synthesis
import Northstack.Application.RouteOrder
import Northstack.Application.Calibration
import Northstack.Core.Utf8Stream
import Northstack.Adapters.EventStream
import Northstack.Adapters.GatewayStreams
import Northstack.Core.JsonImages
import Northstack.Core.JsonSpelling
import Northstack.Core.TextLines
import Northstack.Application.JsonExtraction
import Northstack.Application.Falsification
import Northstack.Adapters.LedgerReads
import Northstack.Application.EventPages
import Northstack.Application.LiveView
import Northstack.Application.WorkerSteps
import Northstack.Core.TaskReports
import Northstack.Application.RecoveryRecord
import Northstack.Core.Calls
import Northstack.Adapters.Commands
import Northstack.Application.Frontier
import Northstack.Application.Benchmark
import Northstack.Application.LiveBenchmark
import Northstack.Domain.SensitiveNames
import Northstack.Adapters.TransportRetry
import Northstack.Core.Sightings
import Northstack.Application.RunIndex
import Northstack.Adapters.Artifacts
import Northstack.Core.UniqueRows
import Northstack.Adapters.Memory
import Northstack.Core.Mapping
import Northstack.Domain.ModelProfile
import Northstack.Adapters.RequestHeaders
import Northstack.Core.Toml
import Northstack.Domain.NorthStackConfig
import Northstack.Adapters.ConfigToml
import Northstack.Application.ConfigStore
import Northstack.Application.ConfigEdits
import Northstack.Core.Levels
import Northstack.Application.PlannedWaves
import Northstack.Core.Borders
import Northstack.Application.Elision
import Northstack.Core.Parking
import Northstack.Application.Bumping
import Northstack.Application.AcceptedGraphs
import Northstack.Application.ProposedLevels
import Northstack.Application.PlannedOrder
import Northstack.Application.PlannedGraphs
import Northstack.Adapters.RequestBodies
import Northstack.Application.PlannerReplies
import Northstack.Core.JsonSchema
import Northstack.Adapters.GeminiSchemas
import Northstack.Application.ToolRegistry
import Northstack.Application.RunSupervisor
import Northstack.Application.RunServer
import Northstack.Core.Shielding
import Northstack.Application.Emitting
import Northstack.Core.StackWalk
import Northstack.Application.WorkspaceReads
import Northstack.Core.Counts
import Northstack.Application.IntakeScan
