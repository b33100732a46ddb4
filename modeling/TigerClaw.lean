import TigerClaw.Cost.Ledger
import TigerClaw.Envelope.RoundTrip
import TigerClaw.Plug.Lifecycle
import TigerClaw.Plug.Listing
import TigerClaw.Plug.Registry
import TigerClaw.Plug.SnapshotSharing
import TigerClaw.Channels.Interleaving
import TigerClaw.Channels.Drain
import TigerClaw.Channels.Log
import TigerClaw.Channels.Dispatch
import TigerClaw.Channels.SentOnce
import TigerClaw.Meter
import TigerClaw.Harness.Budget
import TigerClaw.Llm.Sse
import TigerClaw.Gateway.TurnStream
import TigerClaw.Gateway.Sandbox
import TigerClaw.Permissions
import TigerClaw.Context.Compaction
import TigerClaw.Context.Chronology
import TigerClaw.Harness.Persistence
import TigerClaw.Harness.Isolation
import TigerClaw.Harness.Preconditions
import TigerClaw.Memory.Builtin
import TigerClaw.Instances.Sweeper
import TigerClaw.Instances.Registration
import TigerClaw.Cli.LiveRunner
import TigerClaw.Channels.Telegram
import TigerClaw.Memory.SessionStore
import TigerClaw.Channels.Admission
import TigerClaw.Channels.Replies
import TigerClaw.Cli.SharedRunner
import TigerClaw.Channels.Conversations
import TigerClaw.Llm.OpenRouter
import TigerClaw.Llm.ToolBlocks
import TigerClaw.Vcr.Replayer
import TigerClaw.Gateway.Reload
import TigerClaw.Gateway.Shutdown
import TigerClaw.Cli.AgentRegistry
import TigerClaw.Runtime.FanOut
import TigerClaw.Tui.Cascades
import TigerClaw.Tui.Subturns
import TigerClaw.Tui.StaleEvents
import TigerClaw.Tui.Streams
import TigerClaw.Runtime.GatewayRunner
import TigerClaw.Cli.PathLock
import TigerClaw.Library.Json.Strict
import TigerClaw.Library.Json.Reread
import TigerClaw.Library.Json.Printed
import TigerClaw.Settings.Secrets
import TigerClaw.Library.GrowBuffer
import TigerClaw.Db.Stmt
import TigerClaw.Db.Store
import TigerClaw.Library.Transaction
import TigerClaw.Db.Migrations
import TigerClaw.Channels.Router
import TigerClaw.Library.Lines
import TigerClaw.Cli.ToolRead
import TigerClaw.Cli.ReadDedup
import TigerClaw.Library.Like
import TigerClaw.Memory.Search
import TigerClaw.Daemon.Pidfile
import TigerClaw.Cli.Gateway
import TigerClaw.Cost.Pricing
import TigerClaw.Library.Calendar
import TigerClaw.Cli.SmallTools
import TigerClaw.Runtime.HookBus
import TigerClaw.Session.Key
import TigerClaw.Library.Infix
import TigerClaw.Cli.FinishedKind
import TigerClaw.Library.AddressBlock
import TigerClaw.Cli.FetchUrl
import TigerClaw.Cli.GlobBraces
import TigerClaw.Cli.GlobMatch
import TigerClaw.Library.ChainParser
import TigerClaw.Cli.Calculate
import TigerClaw.Llm.Reliability
import TigerClaw.Tools.Glob
import TigerClaw.Tools.Edit
import TigerClaw.Harness.SharedLedger
import TigerClaw.Gateway.Resolve
import TigerClaw.Library.FixedWriter
import TigerClaw.Gateway.Render
import TigerClaw.Agent.Prepared
import TigerClaw.Library.Listing
import TigerClaw.Cli.GlobRun
import TigerClaw.Library.MarkdownV2
import TigerClaw.Channels.Markdown
import TigerClaw.Tui.Signs
import TigerClaw.Tui.Busy
import TigerClaw.Instances.RegisterBody
import TigerClaw.Llm.EventFrames
import TigerClaw.Harness.Respawn
import TigerClaw.Tui.MentionPlaces
import TigerClaw.Tui.Wrap
import TigerClaw.Tui.WrapCache
import TigerClaw.Library.NextFit
import TigerClaw.Tui.HistoryRows
import TigerClaw.Library.Utf8Text
import TigerClaw.Tui.Input
import TigerClaw.Tui.InputText
import TigerClaw.Library.Latest
import TigerClaw.Tui.PeerChatter
import TigerClaw.Library.PdqOrder
import TigerClaw.Library.PdqSorted
import TigerClaw.Context.Fit
import TigerClaw.Tui.Ansi
import TigerClaw.Agent.WindowEstimate
import TigerClaw.Cli.Grep
import TigerClaw.Library.ShellWords
import TigerClaw.Cli.GrepCommand
import TigerClaw.Library.Occurrence
import TigerClaw.Trace.Diff
import TigerClaw.Cli.SandboxSwitch
import TigerClaw.Harness.RuntimeRegistry
import TigerClaw.Memory.PreferenceLog
import TigerClaw.Cli.GatewayLogs
import TigerClaw.Skills.Frontmatter
import TigerClaw.Library.StyledText
import TigerClaw.Tui.Markdown
import TigerClaw.Settings.Loading
import TigerClaw.Harness.StateFile
import TigerClaw.Bench.Scheduler
