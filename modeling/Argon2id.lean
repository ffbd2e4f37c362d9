import Argon2id.Lib.BitStream
import Argon2id.Lib.Base64
import Argon2id.Lib.Numeral
import Argon2id.Lib.Scan
import Argon2id.Lib.Regexp
import Argon2id.Libargon2.Types
import Argon2id.Libargon2.Core
import Argon2id.Libargon2.Encoding
import Argon2id.Libargon2.Argon2
import Argon2id.Ruby
import Argon2id.Ext
import Argon2id.Password
import Argon2id.JRuby
import Argon2id.Format
import Argon2id.Libargon2.Decimal
import Argon2id.Libargon2.Base64Codec
import Argon2id.Lib.Fallible
import Argon2id.Libargon2.Decoder
import Argon2id.Libargon2.Encoder
import Argon2id.HashEncoded
import Argon2id.Parsing
import Argon2id.Verify
import Argon2id.Validation
import Argon2id.JRubyResults
import Argon2id.RoundTrip
import Argon2id.Backends
import Argon2id.Buffer
import Argon2id.Undecodable
import Argon2id.Heap
import Argon2id.Interleaved
import Argon2id.Snapshot
import Argon2id.InterleavedResults
import Argon2id.Lib.SharedMemory
import Argon2id.Lib.Threads
import Argon2id.Lib.ThreadOutcome
import Argon2id.Lib.Throttle
import Argon2id.Lib.LittleEndian
import Argon2id.Lib.Streaming
import Argon2id.Lib.Mixing
import Argon2id.Libargon2.Blake2Impl
import Argon2id.Libargon2.Blake2b
import Argon2id.Libargon2.Blake2bResults
import Argon2id.Libargon2.Block
import Argon2id.Libargon2.BlockMemory
import Argon2id.Libargon2.Instance
import Argon2id.Libargon2.Segment
import Argon2id.Libargon2.SegmentResults
import Argon2id.Libargon2.Fill
import Argon2id.Libargon2.Compute
import Argon2id.Libargon2.InitialHash
import Argon2id.Libargon2.Matrix
import Argon2id.Libargon2.FillResults
import Argon2id.Libargon2.Tag
import Argon2id.Libargon2.ComputeResults
import Argon2id.Libargon2.Initialized
import Argon2id.Libargon2.AccessPattern
import Argon2id.Libargon2.Computed
