import Tributaries.Proto.Integrity
import Tributaries.Proto.Settlement
import Tributaries.Proto.Stream
import Tributaries.Proto.Barrier
import Tributaries.Proto.Coalescing
import Tributaries.Proto.Splicing
import Tributaries.Proto.Actions
import Tributaries.Proto.Obligations
import Tributaries.Proto.Reports
import Tributaries.Proto.Overtaking
import Tributaries.Proto.Glob
import Tributaries.Umbrella.Projection
import Tributaries.Umbrella.Bookkeeping
import Tributaries.Umbrella.Coordinates
import Tributaries.Umbrella.Sessions
import Tributaries.Umbrella.Wording
import Tributaries.Umbrella.View
import Tributaries.Os.RdcwEncode
import Tributaries.Os.UsnEncode
import Tributaries.Os.FidForest
import Tributaries.Os.Admission
import Tributaries.Os.FanotifyShapes
import Tributaries.Os.TransportRuns
import Tributaries.Os.WdTable
import Tributaries.Os.DirscanEncode
import Tributaries.Os.FrnForest
import Tributaries.Umbrella.Returning
import Tributaries.Umbrella.Precedence
import Tributaries.Umbrella.Tickets
