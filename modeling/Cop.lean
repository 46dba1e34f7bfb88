import Cop.Strdict.Cstr
import Cop.Threading.Join
import Cop.Alloc.Iface
import Cop.Alloc.Virtual
import Cop.Alloc.Reservation
import Cop.Alloc.GrpTemps
import Cop.Alloc.GrpTempsHeap
import Cop.Alloc.GrpTempsSafety
import Cop.Sort.Cells
import Cop.Sort.Insertion
import Cop.Sort.Quick
import Cop.Sort.Merge
import Cop.Sort.Heap
import Cop.Sort.Safety
import Cop.Theory.HeapOrder
import Cop.Sort.Sorted
import Cop.Alloc.VirtualSizes
import Cop.Alloc.Replay
import Cop.Alloc.VirtualInit
import Cop.Alloc.GrpTempsRestore
import Cop.Alloc.GrpTempsRounds
import Cop.Theory.Packing
import Cop.Alloc.GrpTempsReplay
import Cop.Theory.Postorder
import Cop.Strdict.Enumerate
import Cop.Strdict.Depth
import Cop.Sort.Stability
import Cop.Strdict.StringHash
import Cop.Theory.Extents
import Cop.Theory.LittleEndian
import Cop.Conversions
import Cop.Theory.Interleave
import Cop.Vec.Backends
import Cop.Vec.Lanewise
import Cop.Vec.Stores
import Cop.Vec.Loops
import Cop.Strdict.Several
import Cop.Strdict.Rebuild
import Cop.Tests.Strings
import Cop.Tests.Strdict
import Cop.Tests.Main
import Cop.Theory.Tiling
import Cop.Alloc.VirtualOs
import Cop.Files.Store
import Cop.Theory.Resources
import Cop.Files.Memory
import Cop.Files.Posix
import Cop.Files.Windows
import Cop.Theory.Knockout
import Cop.Vec.Arith
import Cop.Vec.Extremes
import Cop.Vec.Code
import Cop.Theory.Columns
import Cop.Vec.Longest
import Cop.Threading.Monitor
