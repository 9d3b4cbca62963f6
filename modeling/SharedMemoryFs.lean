import SharedMemoryFs.Foundation.OrderedMap
import SharedMemoryFs.Foundation.Spans
import SharedMemoryFs.Foundation.ExactCover
import SharedMemoryFs.Foundation.PosixPath
import SharedMemoryFs.Foundation.PathText
import SharedMemoryFs.Foundation.Async
import SharedMemoryFs.Foundation.Duties
import SharedMemoryFs.Foundation.FileTree
import SharedMemoryFs.Cache.Filesystem
import SharedMemoryFs.Cache.Compaction
import SharedMemoryFs.Cache.Usage
import SharedMemoryFs.Cache.Allocator
import SharedMemoryFs.Cache.Rollback
import SharedMemoryFs.Places.Place
import SharedMemoryFs.Places.PlaceFiles
import SharedMemoryFs.Places.DirectoryIndex
import SharedMemoryFs.Places.Errors
import SharedMemoryFs.Places.Pipeline
import SharedMemoryFs.Places.MapStore
import SharedMemoryFs.Places.MutationQueue
import SharedMemoryFs.Places.SabStore
import SharedMemoryFs.Places.Queues
import SharedMemoryFs.Places.QueueOrder
import SharedMemoryFs.Places.Contents
import SharedMemoryFs.Places.Hierarchy
import SharedMemoryFs.Places.Turn
import SharedMemoryFs.Places.Overlap
import SharedMemoryFs.Places.SabSchedule
import SharedMemoryFs.Places.Serializable
import SharedMemoryFs.Places.FileExt
import SharedMemoryFs.Places.Rekeying
import SharedMemoryFs.Places.Derived
import SharedMemoryFs.Places.Subtree
import SharedMemoryFs.Places.Pairing
import SharedMemoryFs.Places.Bundles
import SharedMemoryFs.Places.Alike
import SharedMemoryFs.Kernel.Pins
import SharedMemoryFs.Kernel.Thread
import SharedMemoryFs.Kernel.Retirement
import SharedMemoryFs.Kernel.Publication
import SharedMemoryFs.Kernel.VfsKernel
import SharedMemoryFs.Kernel.Schedule
import SharedMemoryFs.Kernel.Flush
import SharedMemoryFs.Kernel.Invariant
import SharedMemoryFs.Kernel.Preservation
import SharedMemoryFs.Kernel.Lifetime
import SharedMemoryFs.Kernel.Stability
import SharedMemoryFs.Kernel.Versions
import SharedMemoryFs.Streams.ReadStream
import SharedMemoryFs.Streams.Session
import SharedMemoryFs.Streams.Delivery
import SharedMemoryFs.Streams.Promise
import SharedMemoryFs.Kernel.Projection
import SharedMemoryFs.Kernel.Drain
import SharedMemoryFs.Kernel.Freeing
import SharedMemoryFs.Routing.Router
import SharedMemoryFs.Routing.Registry
import SharedMemoryFs.Routing.PlaceFs
import SharedMemoryFs.Routing.FsPatch
import SharedMemoryFs.Routing.NativeCalls
import SharedMemoryFs.Routing.Symlinks
import SharedMemoryFs.Routing.Installing
import SharedMemoryFs.Routing.PartialCache
import SharedMemoryFs.Facade.Lookup
import SharedMemoryFs.Facade.Territory
import SharedMemoryFs.Facade.Listing
import SharedMemoryFs.Facade.Agreement
import SharedMemoryFs.Workers.MutationRpc
import SharedMemoryFs.Workers.MutationClient
import SharedMemoryFs.Workers.Network
import SharedMemoryFs.Workers.ReadYourWrites
import SharedMemoryFs.Lifecycle.Kernel
import SharedMemoryFs.Lifecycle.Epochs
import SharedMemoryFs.Lifecycle.EventLoop
import SharedMemoryFs.Lifecycle.Contracts
import SharedMemoryFs.Lifecycle.Closing
import SharedMemoryFs.Lifecycle.Finality
import SharedMemoryFs.Lifecycle.Settling
import SharedMemoryFs.Lifecycle.Closed
import SharedMemoryFs.Watch.Disk
import SharedMemoryFs.Watch.World
import SharedMemoryFs.Watch.Admission
import SharedMemoryFs.Watch.Links
import SharedMemoryFs.Watch.Published
import SharedMemoryFs.Watch.Turns
import SharedMemoryFs.Watch.Upcoming
import SharedMemoryFs.Watch.Canonical
import SharedMemoryFs.Watch.Jobs
import SharedMemoryFs.Watch.Epoch
import SharedMemoryFs.Watch.Tending
import SharedMemoryFs.Watch.Clearing
import SharedMemoryFs.Watch.Convergence
import SharedMemoryFs.Foundation.Values
import SharedMemoryFs.Config.Merge
import SharedMemoryFs.Config.Scalars
import SharedMemoryFs.Config.Domains
import SharedMemoryFs.Config.Preparation
import SharedMemoryFs.Config.Places
import SharedMemoryFs.Config.Policies
import SharedMemoryFs.Config.Order
import SharedMemoryFs.Config.Argv
import SharedMemoryFs.Config.Selection
import SharedMemoryFs.Config.Overrides
import SharedMemoryFs.Config.Sequences
import SharedMemoryFs.Config.Schema
import SharedMemoryFs.Config.Defaults
import SharedMemoryFs.Config.Refusals
import SharedMemoryFs.Kernel.DiskEntries
