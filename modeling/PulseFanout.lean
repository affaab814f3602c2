import PulseFanout.Framework.Codec
import PulseFanout.Framework.Lists
import PulseFanout.Framework.Registry
import PulseFanout.Wire.Message
import PulseFanout.Wire.Frame
import PulseFanout.Dedupe.Window
import PulseFanout.Dedupe.Verdict
import PulseFanout.Dedupe.Accounting
import PulseFanout.Dedupe.Wraparound
import PulseFanout.Framework.Bounds
import PulseFanout.Fec.Decoder
import PulseFanout.Fec.Alike
import PulseFanout.Fec.Safety
import PulseFanout.Fec.Rejection
import PulseFanout.Fec.Checked.Solver
import PulseFanout.Fec.Checked.Recovery
import PulseFanout.Fec.Checked.Decoder
import PulseFanout.Fec.Budget
import PulseFanout.Fec.Retirement
import PulseFanout.Fec.Unrecoverable
import PulseFanout.Fec.Delivery
import PulseFanout.Fec.Erasure
import PulseFanout.Framework.Machine
import PulseFanout.Framework.Missing
import PulseFanout.Framework.Framing
import PulseFanout.Framework.Search
import PulseFanout.Framework.Segments
import PulseFanout.Receiver.Loop
import PulseFanout.Receiver.EndToEnd
import PulseFanout.Receiver.Isolation
import PulseFanout.Receiver.Budget
import PulseFanout.Pipeline.EndToEnd
import PulseFanout.Receiver.Plain
import PulseFanout.Sender.Batch
import PulseFanout.Sender.Fanout
import PulseFanout.Sender.Accounting
import PulseFanout.Sender.Emit
import PulseFanout.Sender.Impairment
import PulseFanout.Sender.General
import PulseFanout.Sender.Generations
import PulseFanout.Sender.FastPath
import PulseFanout.Sender.Steps
import PulseFanout.Sender.Agreement
import PulseFanout.Sender.Overflow
import PulseFanout.Durable.Store
import PulseFanout.Durable.Relay
import PulseFanout.Durable.Delivery
import PulseFanout.Durable.Safety
import PulseFanout.Durable.Drain
import PulseFanout.Durable.Accounting
import PulseFanout.Framework.Mutex
import PulseFanout.Shm.Ring
import PulseFanout.Shm.Integrity
import PulseFanout.Shm.Registry
import PulseFanout.Shm.Backpressure
import PulseFanout.Shm.Loop
import PulseFanout.Shm.Lapping
import PulseFanout.Shm.Edge
import PulseFanout.Supervise.Readiness
import PulseFanout.Metrics.Accumulator
import PulseFanout.Consumer.Report
import PulseFanout.Transport.Stream
import PulseFanout.Transport.Segmentation
import PulseFanout.Durable.Chain
import PulseFanout.Durable.Feeding
import PulseFanout.Durable.Publication
import PulseFanout.Durable.Smooth
import PulseFanout.Durable.Recovery
import PulseFanout.Framework.FileLock
import PulseFanout.Shm.Segment
import PulseFanout.Shm.Handshake
import PulseFanout.Metrics.Percentile
import PulseFanout.Supervise.Discovery
import PulseFanout.Transport.Tunnel
