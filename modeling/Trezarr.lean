import Trezarr.Lib.Runs
import Trezarr.Output.Ledger
import Trezarr.Output.LedgerSqla
import Trezarr.Bible.Identity
import Trezarr.Bible.Locks
import Trezarr.Output.Backends
import Trezarr.Subtitles.Totality
import Trezarr.Subtitles.Marks
import Trezarr.Translate.Reconcile
import Trezarr.Discover.Gap
import Trezarr.Translate.Continuity
import Trezarr.Translate.Decision
import Trezarr.Translate.Assembly
import Trezarr.Translate.Arbiter
import Trezarr.Translate.NeverClobber
import Trezarr.Translate.Witnesses
import Trezarr.Subtitles.Dispatch
import Trezarr.Translate.Ownership
import Trezarr.Discover.Select
import Trezarr.Cli
import Trezarr.Translate.Transport
import Trezarr.Translate.RepairHints
import Trezarr.Translate.ReviewSources
import Trezarr.Bible.MergeLocks
import Trezarr.Bible.Glossary
import Trezarr.Bible.OneRendering
import Trezarr.Translate.Suggestions
import Trezarr.Bible.Audit
import Trezarr.Subtitles.Clocks
import Trezarr.Web.RetryBudget
import Trezarr.Web.SeriesLocks
import Trezarr.Web.Snapshot
import Trezarr.Discover.Optimal
import Trezarr.Upgrades
import Trezarr.Translate.BlankCues
import Trezarr.Db.LedgerMigration
import Trezarr.Bible.TextOnly
import Trezarr.Translate.RawCues
import Trezarr.Translate.Tokens
import Trezarr.Translate.Markers
import Trezarr.Translate.PromptFraming
import Trezarr.Translate.Echo
import Trezarr.Translate.NameMatching
import Trezarr.Translate.Windows
import Trezarr.Translate.Envelopes
import Trezarr.Translate.RepairSplice
import Trezarr.Translate.ReviewSplice
import Trezarr.Bible.ChunkMerge
import Trezarr.Translate.GlossaryLines
import Trezarr.Translate.Directions
import Trezarr.Translate.OrderIndependence
import Trezarr.Translate.GateAgreement
import Trezarr.Translate.TranslatedCounts
import Trezarr.Web.SettingsReload
import Trezarr.Bible.Deletes
import Trezarr.Discover.SidecarNames
import Trezarr.Web.EpisodeKeys
import Trezarr.Discover.ScanCounts
import Trezarr.Translate.QuarantineArtifacts
import Trezarr.MappedPaths
import Trezarr.Translate.TimecodeValues
import Trezarr.Output.SrtReadBack
import Trezarr.Output.VttReadBack
import Trezarr.Output.AssReadBack
import Trezarr.Lib.JsonDump
import Trezarr.Db.LedgerHandover
import Trezarr.Lib.AtomicReplace
import Trezarr.Output.AtomicWrites
