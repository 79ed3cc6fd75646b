import Peepbooth.ConsoleWatch
import Peepbooth.MemoryArithmetic
import Peepbooth.FixedPoint
import Peepbooth.Decimal

/-! The text of an observation on the console, byte for byte, and what it says. -/

namespace Peepbooth

open FixedPoint

namespace Event

def configurationLoaded : UInt16 := 10
def outputReady : UInt16 := 12
def streamStarted : UInt16 := 22
def streamStopped : UInt16 := 23

end Event

def channelName (value : Channel) : String :=
  if value = Channel.main then "main"
  else if value = Channel.gui then "gui"
  else if value = Channel.core then "core"
  else if value = Channel.worker then "worker"
  else "unknown"

def eventName (value : UInt16) : String :=
  if value = Event.configurationLoaded then "configuration.loaded"
  else if value = Event.outputReady then "output.ready"
  else if value = Event.streamStarted then "stream.started"
  else if value = Event.streamStopped then "stream.stopped"
  else "unknown"

def decimal (n : Nat) : Text := (Digits.ofNat n).bytes

/-- The last `count` digits of a number, leading zeros included. -/
def lastDigits : Nat → Nat → Text
  | 0, _ => []
  | count + 1, n => lastDigits count (n / 10) ++ [UInt8.ofNat (n % 10).digitChar.toNat]

/-- A number as it is shown: its sign and its units of the last place. -/
structure Fixed where
  negative : Bool
  units : Nat
  deriving DecidableEq, Repr

def fixed (precision : Nat) (x : ℚ) : Fixed := ⟨x < 0, units precision x⟩

/-- `std::fixed << std::setprecision(precision)` -/
def Fixed.text (precision : Nat) (showpos : Bool) (v : Fixed) : Text :=
  (if v.negative then [45] else if showpos then [43] else []) ++
    (decimal (v.units / 10 ^ precision) ++ ([46] ++ lastDigits precision v.units))

def seconds (ns : Nat) : ℚ := double (double ns / 1000000000)

/-- The age of a heartbeat, or nothing where it is still to come. -/
def HeartbeatSnapshot.age (h : HeartbeatSnapshot) (now : UInt64) : Option ℚ :=
  if h.timestampNs = 0 then none
  else some (seconds (if now ≥ h.timestampNs then now - h.timestampNs else 0).toNat)

def shownName (o : ProcessObservation) : Text :=
  if o.watchdog.processName = [] then text "process" else o.watchdog.processName

/-- What the text of an observation says. -/
structure Display where
  name : Text
  pid : UInt32
  health : Health
  cpu : Fixed
  rss : Fixed
  highWater : Fixed
  swap : Fixed
  trend : Option (Fixed × Bool)
  beats : List (String × Option Fixed)
  recent : List (String × UInt32 × UInt64 × UInt64)
  deriving DecidableEq, Repr

def HeartbeatSnapshot.display (now : UInt64) (h : HeartbeatSnapshot) : String × Option Fixed :=
  (channelName h.id, (h.age now).map (fixed 3))

def Breadcrumb.display (item : Breadcrumb) : String × UInt32 × UInt64 × UInt64 :=
  (eventName item.eventId, item.sourceId, item.arg0, item.arg1)

/-- The newest eight, which is all there are where there are no more. -/
def recentOf (breadcrumbs : List Breadcrumb) : List Breadcrumb :=
  breadcrumbs.drop (breadcrumbs.length - 8)

/-- What a summary of the trend shows. -/
def MemoryTrendSummary.display (s : MemoryTrendSummary) : Option (Fixed × Bool) :=
  s.signedDelta.map fun delta => (fixed 1 delta, s.sustainedGrowth)

namespace ProcessObservation

def displayOf (o : ProcessObservation) (sample : ProcessSample) (health : Health) : Display where
  name := shownName o
  pid := o.identity.pid
  health := health
  cpu := fixed 1 (o.cpuPercent.getD 0)
  rss := fixed 1 (mib sample.memory.rssBytes)
  highWater := fixed 1 (mib sample.memory.highWaterBytes)
  swap := fixed 1 (mib sample.memory.swapBytes)
  trend := o.memory.display
  beats := (o.watchdog.heartbeats.filter (·.active)).map (·.display o.observedAtNs)
  recent := (recentOf (o.watchdog.breadcrumbs.map (·.2))).map Breadcrumb.display

def display (o : ProcessObservation) : Option Display :=
  match o.sample, o.responsiveness with
  | some sample, some health =>
    if o.status = .sampled then some (o.displayOf sample health) else none
  | _, _ => none

end ProcessObservation

end Peepbooth
