import NPFoundation.Dispatch.TimerProof
import NPFoundation.Dispatch.DebounceProof
import NPFoundation.Dispatch.DebounceCancel
import NPFoundation.DataStructures.Heap
import NPFoundation.DataStructures.HeapConserve
import NPFoundation.DataStructures.HeapOrder
import NPFoundation.DataStructures.HeapQueue
import NPFoundation.CopyOnWrite.Counts
import NPFoundation.CopyOnWrite.Values
import NPFoundation.CopyOnWrite.Threads
import NPFoundation.CopyOnWrite.ThreadsProof
import NPFoundation.ByteBuffer.Buffer
import NPFoundation.ByteBuffer.Machine
import NPFoundation.ByteBuffer.Ownership
import NPFoundation.ByteBuffer.StorageSpec
import NPFoundation.ByteBuffer.View
import NPFoundation.ByteBuffer.Refinement
import NPFoundation.ByteBuffer.Calls
import NPFoundation.ByteBuffer.Programs
import NPFoundation.ByteBuffer.Aliasing
import NPFoundation.ByteBuffer.Protocol
import NPFoundation.ByteBuffer.Atomicity
import NPFoundation.ByteBuffer.Cursors
import NPFoundation.ByteBuffer.Queues
import NPFoundation.Dispatch.Throttle
import NPFoundation.Dispatch.TimerBalance
import NPFoundation.Lib.Effects
import NPFoundation.Sys.Diagnostics
import NPFoundation.Sys.Sys
import NPFoundation.Sys.Resources
import NPFoundation.Sys.EarlierErrors
import NPFoundation.Lib.Interleaving
import NPFoundation.Sys.FileSystem
import NPFoundation.Sys.Lookups
import NPFoundation.ObjC.Runtime
import NPFoundation.ObjC.Chains
import NPFoundation.ObjC.ReplaceRace
import NPFoundation.ByteBuffer.Rounding
import NPFoundation.ByteBuffer.RandomAccess
import NPFoundation.ByteBuffer.Overlap
import NPFoundation.ByteBuffer.Growth
import NPFoundation.ByteBuffer.GrowthCost
import NPFoundation.DataStructures.HeapSubtree
import NPFoundation.Sys.Logging
import NPFoundation.Sys.ErrorChannel
import NPFoundation.Sys.CheckOnce
import NPFoundation.Sys.SharedDescriptors
import NPFoundation.DataStructures.HeapCost
import NPFoundation.Dispatch.DebounceSpacing
import NPFoundation.Dispatch.DebounceBursts
import NPFoundation.Dispatch.ThrottleSystem
import NPFoundation.ObjC.Locality
import NPFoundation.ObjC.ValueObserving
import NPFoundation.ObjC.ValueObservingControl
import NPFoundation.ObjC.ValueObservingHandlers
import NPFoundation.ObjC.ValueObservingProgress
import NPFoundation.Dispatch.TimerObservable
import NPFoundation.Dispatch.TimerObservableProof
import NPFoundation.CopyOnWrite.ThreadsValues
import NPFoundation.CopyOnWrite.WaitFree
import NPFoundation.CopyOnWrite.CopyCost
import NPFoundation.CopyOnWrite.ThreadsCost
