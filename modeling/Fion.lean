import Fion.Http.OriginForm
import Fion.Http.AuthorityText
import Fion.Http.FieldLines
import Fion.Http.QueryLaws
import Fion.Http.HeaderHistory
import Fion.Http.StartLine
import Fion.Http.UrlCanonical
import Fion.Machine.Ledger
import Fion.Machine.Reach
import Fion.Machine.Unwinding
import Fion.Machine.Refinement
import Fion.Machine.Fairness
import Fion.Network.RequestFormat
import Fion.Network.ResponseFormat
import Fion.Network.ResponseBytes
import Fion.Network.HeaderText
import Fion.Network.PoolInvariant
import Fion.Network.Delivery
import Fion.Network.Responses
import Fion.Network.EdgeTriggered
import Fion.Network.LengthField
import Fion.Network.Answers
import Fion.Network.Parameters
import Fion.Network.Ownership
import Fion.Groups
import Fion.Removal
import Fion.Mounts
import Fion.Network.Turns
import Fion.Network.BadLength
import Fion.Network.Simulation
import Fion.Network.Handover
import Fion.Network.EventBatch
import Fion.Network.EventLoop
import Fion.Network.Shutdown
import Fion.Network.ThreadPoolSafety
import Fion.Network.ThreadPoolEnd
import Fion.Network.ServerStop
import Fion.Network.ListenerOwnership
import Fion.Network.PollerBackends
import Fion.Network.Isolation
import Fion.Network.Stateless
import Fion.Network.Loops
import Fion.Network.Sessions
import Fion.Network.Exchange
import Fion.Network.Arrivals
import Fion.Network.Levels
import Fion.Network.Service
import Fion.Network.FairServer
import Fion.Network.HalfClose
import Fion.Network.ClientMoves
import Fion.Logging.Logger
import Fion.Network.Teardown
