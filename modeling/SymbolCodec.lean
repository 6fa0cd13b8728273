import SymbolCodec.Word.Lemmas
import SymbolCodec.Sample.Drawing
import SymbolCodec.Training
import SymbolCodec.Training.AnyOrder
import SymbolCodec.Training.Walk
import SymbolCodec.Encoder.Compress
import SymbolCodec.Encoder.Buffers
import SymbolCodec.Encoder.Numbering
import SymbolCodec.Text
import SymbolCodec.Dictionary.Load
import SymbolCodec.Dictionary.Packed
import SymbolCodec.Dictionary.Checked
import SymbolCodec.Proofs.RoundTrip
import SymbolCodec.Proofs.Greedy
import SymbolCodec.Proofs.Strategies
import SymbolCodec.Proofs.Reloading
import SymbolCodec.Proofs.Repeats
import SymbolCodec.Proofs.Resuming
import SymbolCodec.Proofs.Framing
import SymbolCodec.Proofs.Heads
import SymbolCodec.Proofs.Restoring
import SymbolCodec.Proofs.Matching
import SymbolCodec.Proofs.Lookups
import SymbolCodec.Proofs.HalvedTallies
import SymbolCodec.Proofs.Counting
import SymbolCodec.Proofs.Savings
import SymbolCodec.Proofs.Joining
import SymbolCodec.Proofs.Candidates
import SymbolCodec.Proofs.Selecting
import SymbolCodec.Proofs.Samples
import SymbolCodec.Proofs.Rounds
import SymbolCodec.Proofs.Trained
import SymbolCodec.Proofs.Layouts
import SymbolCodec.Proofs.Adding
import SymbolCodec.Proofs.Numbering
import SymbolCodec.Proofs.ReachedCounts
import SymbolCodec.Proofs.Ranked
import SymbolCodec.Proofs.AnyOrder
import SymbolCodec.Proofs.Buffers
import SymbolCodec.Proofs.Saturation
import SymbolCodec.Proofs.Walks
import SymbolCodec.Proofs.Items
import SymbolCodec.Proofs.Accepting
import SymbolCodec.Proofs.Tallying
import SymbolCodec.Proofs.Gains
import SymbolCodec.Proofs.BestKept
import SymbolCodec.Proofs.Drawing
import SymbolCodec.Proofs.Thresholds
import SymbolCodec.Proofs.ByteStrings
import SymbolCodec.Proofs.Interchange
import SymbolCodec.Proofs.Streams
