import My98.Disk.Save
import My98.Web.DiskBuffer
import My98.Lib.Fiber
import My98.Torrent.Protocol
import My98.Torrent.Store
import My98.Torrent.Tables
import My98.Torrent.Publisher
import My98.Torrent.Resume
import My98.Torrent.Race
import My98.Torrent.Adoption
import My98.Disk.Overlay
import My98.Web.WorkerProtocol
import My98.Lib.Json
import My98.Torrent.Records
import My98.Web.TorrentProtocol
import My98.Web.Lookup
import My98.Web.LookupInvariant
import My98.Web.HighWater
import My98.Web.Equivocation
import My98.Lib.Bencode
import My98.Lib.Text
import My98.Torrent.Metadata
import My98.Web.TorrentMetadata
import My98.Web.TorrentEntries
import My98.Web.SameTorrents
import My98.Web.Worker
import My98.Web.WorkerState
import My98.Web.WorkerDisk
import My98.Web.WorkerRuns
import My98.Lib.JsonExact
import My98.Torrent.DescriptorText
import My98.Crypto.Seed
import My98.Disk.Unchanged
import My98.Torrent.Resolver
import My98.Lib.Fifo
import My98.Web.DiskQueue
import My98.Torrent.Sequences
import My98.Disk.RangeProfile
import My98.Disk.BootRanges
import My98.Lib.Double
import My98.Torrent.JsonBytes
import My98.Torrent.Formats
import My98.Web.LoadProfiles
import My98.Relay.Challenge
import My98.Relay.Daemon
import My98.Relay.History
import My98.Relay.Authorization
import My98.Relay.Handshake
import My98.Relay.Adapter
import My98.Relay.Agreement
import My98.Disk.Verify
import My98.Disk.Panics
import My98.Disk.Layout
import My98.Torrent.Create
import My98.Lib.Intervals
import My98.Web.StartupTargets
import My98.Web.BootAnalysis
import My98.Web.StateInput
import My98.Web.StartupPrefetch
import My98.Web.OpeningInvariant
import My98.Web.StartupWindow
import My98.Web.WindowInvariant
import My98.Crypto.Exactness
import My98.Relay.NetworkPolicy
import My98.Disk.CacheRuns
import My98.Web.VerifiedBytes
import My98.Web.PieceCoherence
import My98.Relay.AdapterMachine
import My98.Relay.AdapterSession
import My98.Relay.AdapterRuns
import My98.Web.SameDescriptors
import My98.Web.StateFormat
import My98.Web.StateDecoder
import My98.Web.StateErasure
import My98.Web.StateFile
import My98.Web.StateReading
import My98.Web.StateWriting
import My98.Web.StateVault
