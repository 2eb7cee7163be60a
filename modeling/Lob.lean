import Lob.Book.Pointers
import Lob.Book.Effects
import Lob.Book.Exceptions
import Lob.Book.PriceSet
import Lob.Engine.Refusals
import Lob.Engine.Priority
import Lob.Engine.Lifecycle
import Lob.Engine.Crossing
import Lob.Engine.Independence
import Lob.Engine.Ledger
import Lob.Engine.Splitting
import Lob.Engine.Exceptions
import Lob.Engine.Executions
import Lob.Engine.Isolation
import Lob.Engine.Arrivals
import Lob.Engine.Checkpoint
import Lob.Engine.Recovery
import Lob.Itch.Grammar
import Lob.Spsc.Linearizable
import Lob.App.Program
import Lob.App.LatencyBench
import Lob.Metrics.Precision
