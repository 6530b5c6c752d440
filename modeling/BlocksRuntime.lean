import BlocksRuntime.ReleaseOrder
import BlocksRuntime.StackFree
import BlocksRuntime.AllocationFailure
import BlocksRuntime.SharedCell
import BlocksRuntime.CopyOrder
import BlocksRuntime.SaturatingCounter
import BlocksRuntime.Lifetime
import BlocksRuntime.MatchedRetains
import BlocksRuntime.ByrefLayout
import BlocksRuntime.SignedPointer
import BlocksRuntime.Metadata
import BlocksRuntime.AssignDispose
import BlocksRuntime.Reentrancy
import BlocksRuntime.ByrefReentry
import BlocksRuntime.CyclicCopy
import BlocksRuntime.CascadeTermination
import BlocksRuntime.Threads.Solo
import BlocksRuntime.Raw.Accessors
import BlocksRuntime.Raw.Client
