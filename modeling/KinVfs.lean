import KinVfs.Core.Path
import KinVfs.Core.Provider
import KinVfs.Core.Containment
import KinVfs.Core.Writer
import KinVfs.Core.TreeLaw
import KinVfs.Core.ContainmentSpec
import KinVfs.Core.Confined
import KinVfs.Lib.Fallible
import KinVfs.Lib.FirstFree
import KinVfs.Lib.Content
import KinVfs.Posix.Fs
import KinVfs.Posix.Calls
import KinVfs.Posix.Shape
import KinVfs.Posix.Destination
import KinVfs.Posix.CallSpec
import KinVfs.Posix.Attrs
import KinVfs.Lib.Text
import KinVfs.Daemon.KinWriter
import KinVfs.Daemon.DiskSpec
import KinVfs.Daemon.OverlayTree
import KinVfs.Daemon.RenameSpec
import KinVfs.Daemon.RenameSubtree
import KinVfs.Lib.Runs
import KinVfs.Lib.Json
import KinVfs.Lib.Lru
import KinVfs.Lib.Mirror
import KinVfs.Daemon.Admission
import KinVfs.Daemon.StagingLemmas
import KinVfs.Lib.Fold
import KinVfs.Lib.Replay
import KinVfs.Daemon.TreeContract
import KinVfs.Daemon.TreeSpec
import KinVfs.Daemon.OverlaySpec
import KinVfs.Daemon.Sys
import KinVfs.Daemon.Endpoint
import KinVfs.Daemon.AdmitSpec
import KinVfs.Daemon.SendRetry
import KinVfs.Daemon.EndpointMoves
import KinVfs.Daemon.TokenRotation
import KinVfs.Daemon.KinProvider
import KinVfs.Daemon.Succession
import KinVfs.Daemon.HonestDaemon
import KinVfs.Daemon.BlobReads
import KinVfs.Daemon.DirectoryIndex
import KinVfs.Daemon.MembershipDigest
import KinVfs.Daemon.NoLostWrite
import KinVfs.Daemon.Degraded
import KinVfs.Daemon.AtRest
import KinVfs.Daemon.Presence
import KinVfs.Daemon.ReadYourWrites
import KinVfs.Daemon.Replacement
import KinVfs.Daemon.StagedTree
import KinVfs.Nfs.Router
import KinVfs.Nfs.Registry
import KinVfs.Nfs.Restart
import KinVfs.Lib.Loop
import KinVfs.Core.PathLaws
import KinVfs.Core.PathMap
import KinVfs.Core.KeyMap
import KinVfs.Posix.Lexical
import KinVfs.Posix.Search
import KinVfs.Shim.StatCache
import KinVfs.Shim.Resolve
import KinVfs.Shim.Follow
import KinVfs.Shim.Client
import KinVfs.Shim.KeyWalk
import KinVfs.Shim.RoundTrip
import KinVfs.Shim.Targets
import KinVfs.Shim.PosixAgreement
import KinVfs.Shim.Mount
import KinVfs.Shim.FdTable
import KinVfs.Shim.Hooks
import KinVfs.Shim.NoFollow
import KinVfs.Posix.Stream
import KinVfs.Shim.Descriptor
import KinVfs.Shim.Versions
import KinVfs.Shim.Notify
import KinVfs.Shim.ReadThreads
import KinVfs.Shim.WriteTracking
import KinVfs.Shim.CacheThreads
import KinVfs.Daemon.StatStamp
import KinVfs.Shim.TempNames
import KinVfs.Shim.Traversal
import KinVfs.Shim.LeadingParents
import KinVfs.Lib.MsgPack
import KinVfs.Lib.Frames
import KinVfs.Core.Protocol
import KinVfs.Shim.Framing
import KinVfs.Shim.Transport
import KinVfs.Shim.AtomicWrites
import KinVfs.Posix.AnyDisk
import KinVfs.Posix.Shows
import KinVfs.Shim.Process
import KinVfs.Lib.TwoRuns
import KinVfs.Shim.ProcessSpec
import KinVfs.Shim.Noninterference
import KinVfs.Shim.WriteThrough
import KinVfs.Shim.HostFiles
import KinVfs.Lib.Memory
import KinVfs.Shim.Dirents
import KinVfs.Shim.Seek
import KinVfs.Shim.Identity
import KinVfs.Daemon.Subscription
import KinVfs.Daemon.Coverage
import KinVfs.Nfs.Server
import KinVfs.Nfs.Shutdown
import KinVfs.Nfs.Sync
import KinVfs.Nfs.SyncText
import KinVfs.Fuse.Write
import KinVfs.Fuse.Mount
import KinVfs.Fuse.View
import KinVfs.Fuse.Convergence
import KinVfs.Fuse.Acceptance
import KinVfs.Posix.Without
import KinVfs.Daemon.Decision
import KinVfs.Fuse.Rollback
import KinVfs.Fuse.Names
import KinVfs.Shim.ProjectionQueue
import KinVfs.Daemon.RequestFrames
import KinVfs.Shim.Vfds
import KinVfs.Lib.Numbering
import KinVfs.Lib.ObjectTree
import KinVfs.Nfs.Inodes
import KinVfs.Nfs.InodeTables
import KinVfs.Nfs.Handles
import KinVfs.Lib.Interleave
import KinVfs.Lib.Paging
import KinVfs.Nfs.Namespace
import KinVfs.Nfs.NamespaceSpec
import KinVfs.Nfs.Listing
import KinVfs.Nfs.Coherence
import KinVfs.Core.FileTree
import KinVfs.Core.TreePaths
import KinVfs.Daemon.Ranges
import KinVfs.Nfs.ReadEof
import KinVfs.Daemon.Providers
import KinVfs.Lib.Capped
import KinVfs.Core.Canary
import KinVfs.Shim.CanaryRuns
import KinVfs.Cli.Exec
import KinVfs.Daemon.LookupLog
import KinVfs.Posix.Spelling
import KinVfs.Cli.Aliases
import KinVfs.Shim.Health
import KinVfs.Nfs.Slots
import KinVfs.Daemon.ProviderParts
