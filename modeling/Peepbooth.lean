import Peepbooth.TornReads
import Peepbooth.Alone
import Peepbooth.RingReader
import Peepbooth.CallHistory
import Peepbooth.PostMortem
import Peepbooth.Lease
import Peepbooth.Lifetime
import Peepbooth.Health
import Peepbooth.HeartbeatReads
import Peepbooth.FinalState
import Peepbooth.LatePoll
import Peepbooth.PidReuse
import Peepbooth.SteadyLeak
import Peepbooth.ObservationRecord
import Peepbooth.ProcStatus
import Peepbooth.SessionMoves
import Peepbooth.Startup
import Peepbooth.Restarts
import Peepbooth.SlotReads
import Peepbooth.ExitReport
import Peepbooth.ProcStat
import Peepbooth.Grammar
import Peepbooth.Severity
import Peepbooth.Plateau
import Peepbooth.MemoryArithmetic
import Peepbooth.SnapshotBounds
import Peepbooth.BeatOrder
import Peepbooth.Discovery
import Peepbooth.EarlyAttach
import Peepbooth.Contention
import Peepbooth.Granted
import Peepbooth.OwnerMoves
import Peepbooth.ProgramEnd
import Peepbooth.TrendRate
import Peepbooth.ConsoleDisplay
import Peepbooth.ConsoleVerdict
import Peepbooth.GuiHeartbeat
import Peepbooth.RingLog
import Peepbooth.Feed
import Peepbooth.Trail
import Peepbooth.ConsoleTrail
import Peepbooth.ConsoleReplay
import Peepbooth.Fleet
import Peepbooth.LiveSnapshot
import Peepbooth.PollBracket
import Peepbooth.StartupAlone
