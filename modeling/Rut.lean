import Rut.Compiler.CarrierOrder
import Rut.Compiler.FoldSound
import Rut.Compiler.Lexer
import Rut.Compiler.ResponseLiterals
import Rut.Conn.Accounting
import Rut.Conn.RoundTrip
import Rut.Conn.Routing
import Rut.Http.ChunkedEncoding
import Rut.Io.Delivery
import Rut.Io.LogRings
import Rut.Io.SlotOwnership
import Rut.Jit.Helpers
import Rut.Jit.Verified
import Rut.Loop.Linkage
import Rut.Loop.YieldHeap
import Rut.Route.Art.Pools
import Rut.Route.Art.Representation
import Rut.Route.Config.Memory
import Rut.Sim.Verified
