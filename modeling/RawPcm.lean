import RawPcm.CommandLine.Machine
import RawPcm.Format.Parser
import RawPcm.Main
import RawPcm.Sample.Grid
import RawPcm.Transfer.Copy
import RawPcm.Proofs.Codec.Chunks
import RawPcm.Proofs.Transfer.Bounded
import RawPcm.Proofs.Transfer.Complete
import RawPcm.Proofs.File.Conversion
import RawPcm.Proofs.Codec.Staging
import RawPcm.Proofs.Codec.Amplitude
import RawPcm.Proofs.File.Amplitudes
import RawPcm.Proofs.Floating.Datum
import RawPcm.Proofs.Transfer.RoundTrip
import RawPcm.Proofs.Floating.Value
import RawPcm.Proofs.Sample.Quantize
import RawPcm.Proofs.Codec.Floating
import RawPcm.Proofs.Transfer.Decoding
import RawPcm.Proofs.Transfer.Chain
import RawPcm.Proofs.Transfer.Encoding
import RawPcm.Proofs.Codec.Lossless
import RawPcm.Proofs.File.Lossless
import RawPcm.Proofs.Sample.Order
import RawPcm.Proofs.Codec.Truncation
import RawPcm.Proofs.Codec.Projection
import RawPcm.Proofs.File.Strict
import RawPcm.Proofs.Codec.Choice
import RawPcm.Proofs.File.Choice
import RawPcm.Proofs.Transfer.Dispatch
import RawPcm.Proofs.CommandLine.Precedence
import RawPcm.Proofs.Sample.Grid
import RawPcm.Proofs.Codec.Ends
import RawPcm.Proofs.Sample.Nearest
import RawPcm.Proofs.Sample.Duality
import RawPcm.Proofs.Span.Deque
import RawPcm.Proofs.Span.Mixed
import RawPcm.Proofs.Transfer.Counted
import RawPcm.Proofs.Stream.LookAhead
import RawPcm.Proofs.Cursor.Movement
import RawPcm.Proofs.Cursor.Locality
import RawPcm.Proofs.Codec.Positions
import RawPcm.Proofs.Format.Grammar
import RawPcm.Proofs.Sample.Landmarks
import RawPcm.Proofs.Sample.Shortcut
import RawPcm.Proofs.File.Pieces
