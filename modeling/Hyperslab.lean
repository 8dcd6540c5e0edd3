import Hyperslab.Run.Cursor
import Hyperslab.Run.Plan
import Hyperslab.Grid
import Hyperslab.Segment.Stream
import Hyperslab.Codec.Deflate.Checksum
import Hyperslab.Codec.Deflate.Code
import Hyperslab.Codec.Deflate.Inflater
import Hyperslab.Codec.Basic
import Hyperslab.Codec.Payload
import Hyperslab.Codec.Decoder
import Hyperslab.Codec.Deflate.Stream
import Hyperslab.Codec.Stream
import Hyperslab.Descriptor.ChunkMap
import Hyperslab.Fill
import Hyperslab.Descriptor.Basic
import Hyperslab.Record.Layout
import Hyperslab.Read.Chunk
import Hyperslab.Read.Stream
import Hyperslab.Transfer
import Hyperslab.Transfer.First
import Hyperslab.Transfer.Fold
import Hyperslab.Read.Section
import Hyperslab.Record.Reader
import Hyperslab.Persist.Basic
import Hyperslab.Proofs.Build
import Hyperslab.Proofs.Run.Plan
import Hyperslab.Proofs.Resolve.Exact
import Hyperslab.Proofs.Resolve.Computed
import Hyperslab.Proofs.Resolve.Address
import Hyperslab.Proofs.Resolve.Count
import Hyperslab.Proofs.Bytes
import Hyperslab.Proofs.Read.Compressed
import Hyperslab.Proofs.Read.Direct
import Hyperslab.Proofs.Read.Forward
import Hyperslab.Proofs.Stream.Cursor
import Hyperslab.Proofs.Read.Segmented
import Hyperslab.Proofs.Read.Requests
import Hyperslab.Proofs.Read.Tiles
import Hyperslab.Proofs.Read.Rejection
import Hyperslab.Proofs.Read.Padding
import Hyperslab.Proofs.Read.Field
import Hyperslab.Proofs.Run.Selection
import Hyperslab.Proofs.Grid.Partition
import Hyperslab.Proofs.Read.Fetches
import Hyperslab.Proofs.Persist.RoundTrip
import Hyperslab.Proofs.Section.Localise
import Hyperslab.Proofs.Read.Coalesced
import Hyperslab.Proofs.Read.Fragments
import Hyperslab.Proofs.Descriptor.Consistent
import Hyperslab.Proofs.Resolve.Bounds
import Hyperslab.Proofs.Read.FieldRequests
import Hyperslab.Proofs.Read.Defect
import Hyperslab.Proofs.Run.Maximal
import Hyperslab.Proofs.Descriptor.Size
import Hyperslab.Proofs.Fill
import Hyperslab.Proofs.Stream.Hollow
import Hyperslab.Proofs.Read.Warning
import Hyperslab.Proofs.Run.Cursor
import Hyperslab.Proofs.Source.Meter
import Hyperslab.Proofs.Grid.Tiling
import Hyperslab.Proofs.Index.Ravel
import Hyperslab.Proofs.Stream.Progress
import Hyperslab.Proofs.Record.Layout
