import RgMemory.Arena.Run
import RgMemory.FreeList.Run
import RgMemory.HashMap.Batch
import RgMemory.HashMap.ForEach
import RgMemory.HashMap.Open
import RgMemory.HashMap.Run
import RgMemory.HashMap.Session
import RgMemory.HashMap.Validate
import RgMemory.Lib.Trie
import RgMemory.Lib.Visit
import RgMemory.HashMap.Checkpoint
import RgMemory.Hash.Separate
import RgMemory.HashMap.Depth
import RgMemory.Arena.Shrink
import RgMemory.Bloom.Model
import RgMemory.Bloom.Run
import RgMemory.Bloom.Shared
import RgMemory.DenseList.Model
import RgMemory.DenseList.Run
import RgMemory.FreeList.Pool
import RgMemory.HashIndex.Model
import RgMemory.HashIndex.Run
import RgMemory.HashMap.Init
import RgMemory.HashTrie.Model
import RgMemory.HashTrie.Run
import RgMemory.HashTrie.Sweep
import RgMemory.HashTrie.NoCopy
import RgMemory.HashMap.Reuse
import RgMemory.Arena.Commit
import RgMemory.Hash.Agree
import RgMemory.Hash.Reads
import RgMemory.HashMap.Failed
import RgMemory.HashMap.Work
import RgMemory.HashIndex.ForEach
import RgMemory.HashIndex.Batch
import RgMemory.HashIndex.PutBatch
import RgMemory.HashMap.Graph
import RgMemory.HashMap.Image
import RgMemory.Bloom.Count
import RgMemory.Bloom.Sizing
import RgMemory.DenseList.Sizing
import RgMemory.DenseList.Sweep
import RgMemory.Hash.Portable
import RgMemory.Slots.Progress
import RgMemory.HashIndex.Beside
import RgMemory.HashIndex.Bounded
import RgMemory.Arena.Temp
import RgMemory.HashMap.OnFile
import RgMemory.Together.Run
import RgMemory.Arena.Stream
