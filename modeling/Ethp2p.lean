import Ethp2p.Lib.BTree
import Ethp2p.Lib.MinHeap
import Ethp2p.Strategy.Bitmap
import Ethp2p.Strategy.Basic
import Ethp2p.Strategy.Rs.Codec
import Ethp2p.Strategy.Rs.CodecSpec
import Ethp2p.Strategy.Rs.OneShard
import Ethp2p.Strategy.Rs.Planner
import Ethp2p.Strategy.Rs.State
import Ethp2p.Strategy.Rs.StateSpec
import Ethp2p.Session
import Ethp2p.Reconstruction
import Ethp2p.Runtime
import Ethp2p.Engine
import Ethp2p.Engine.Drain
import Ethp2p.Engine.Run
import Ethp2p.Engine.Sessions
import Ethp2p.Agreement
import Ethp2p.Dispatches
import Ethp2p.Subscriptions
import Ethp2p.Handshakes
import Ethp2p.Isolation
import Ethp2p.Deliveries
import Ethp2p.AtMostOnce
import Ethp2p.Strategy.Rs.Budget
import Ethp2p.Engine.Ledger
import Ethp2p.Bookkeeping
import Ethp2p.Places
import Ethp2p.Attachments
import Ethp2p.Versions
import Ethp2p.Opens
import Ethp2p.Lifecycle
import Ethp2p.Resolutions
import Ethp2p.Strategy.Rs.Flights
import Ethp2p.Strategy.Rs.RoundTrip
import Ethp2p.Strategy.Rs.Shapes
import Ethp2p.Strategy.Rs.Starvation
import Ethp2p.Lib.EventQueue
import Ethp2p.Runtime.MemoryNet
import Ethp2p.Sim.Net
import Ethp2p.Sim.State
import Ethp2p.Sim.Baseline
import Ethp2p.Sim.Runner
import Ethp2p.Sim.Quiescence
import Ethp2p.Lib.Protobuf
import Ethp2p.Wire.Messages
import Ethp2p.Wire.Framing
import Ethp2p.Transport.Carries
import Ethp2p.Strategy.Rs.Origin
import Ethp2p.Transport.Limits
import Ethp2p.Publishing
import Ethp2p.Parking
import Ethp2p.SentOnce
import Ethp2p.Noninterference
import Ethp2p.Strategy.Rs.Allocation
import Ethp2p.Lib.BitBlocks
import Ethp2p.Strategy.BitmapSpec
import Ethp2p.Strategy.Rs.Books
import Ethp2p.Strategy.Rs.Turns
import Ethp2p.Strategy.Rs.Forwarding
import Ethp2p.Drains
import Ethp2p.Failures
import Ethp2p.Departures
import Ethp2p.Wire.Reading
import Ethp2p.Transport.Segments
import Ethp2p.Wakeups
import Ethp2p.Wire.Delimiting
import Ethp2p.Lib.FifoSet
import Ethp2p.Transport.Reset
import Ethp2p.Sim.Core
import Ethp2p.Strategy.Rs.Layout
import Ethp2p.Strategy.Rs.Leftovers
import Ethp2p.Strategy.Rs.Routing
import Ethp2p.Engine.Transport
import Ethp2p.Receiving
import Ethp2p.Mesh
import Ethp2p.Sim.Moves
import Ethp2p.Sim.LossTolerance
import Ethp2p.Retention
import Ethp2p.Transport.Node
import Ethp2p.Transport.Registry
import Ethp2p.Transport.Views
import Ethp2p.Transport.Reports
import Ethp2p.Transport.Hosting
import Ethp2p.Transport.Settlement
