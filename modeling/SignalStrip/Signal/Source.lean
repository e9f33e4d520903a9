import SignalStrip.Signal.Combinator
import SignalStrip.Signal.Noise
import SignalStrip.Signal.Operation

/-! Sources of waveforms, and the rack they are plugged into by name. A rack remembers who was read. -/

namespace SignalStrip

inductive Source (A : Type) where
  | constant (waveform : Waveform A)
  | held (waveform : Waveform A)
  /-- Gives the number of the read, from 1, in every sample. -/
  | counter (rate : A) (length reads : Nat)
  | noise (rate : A) (length : Nat) (stream : WordStream)
  deriving Repr

namespace Source

variable {A : Type} [Sample A]

def read : Source A → Waveform A × Source A
  | constant waveform => (waveform, constant waveform)
  | held waveform => (waveform, held waveform)
  | counter rate length reads =>
    (.constant rate (Sample.dyadic (reads + 1) 0) length, counter rate length (reads + 1))
  | noise rate length stream =>
    let (waveform, stream) := noiseBlock rate length stream
    (waveform, noise rate length stream)

/-- The value of a constant source, which is zero where it has no sample. -/
def level? : Source A → Option A
  | constant waveform => some (waveform.samples.head?.getD 0)
  | held _ | counter .. | noise .. => none

end Source

structure Rack (A : Type) where
  sources : String → Source A
  reads : Array String
  log : Log

namespace Rack

variable {A : Type} [Sample A]

/-- A name that nothing is plugged into gives a waveform without samples. -/
def empty (log : Log) : Rack A :=
  ⟨fun _ => .constant (.silence 0 0), #[], log⟩

omit [Sample A] in
def plug (rack : Rack A) (name : String) (source : Source A) : Rack A :=
  { rack with sources := fun other => if other = name then source else rack.sources other }

omit [Sample A] in
@[simp] theorem plug_same (rack : Rack A) (name : String) (source : Source A) :
    (rack.plug name source).sources name = source := by
  simp [plug]

omit [Sample A] in
@[simp] theorem plug_other (rack : Rack A) {name other : String} (different : other ≠ name)
    (source : Source A) : (rack.plug name source).sources other = rack.sources other := by
  simp [plug, different]

def read (name : String) (rack : Rack A) : Waveform A × Rack A :=
  let (waveform, source) := (rack.sources name).read
  (waveform, { rack.plug name source with reads := rack.reads.push name })

def studio : Studio (Rack A) String (Waveform A) where
  read := read
  note record rack := { rack with log := rack.log.push record }

end Rack

inductive RackRequest (A : Type) where
  | value
  | read (name : String)
  | replace (name : String) (waveform : Waveform A)
  | level (name : String)
  deriving Repr

inductive RackReply (A : Type) where
  | waveform (waveform : Waveform A)
  | level (value : A)
  | unavailable
  deriving Repr

abbrev RackOperation (A : Type) := Operation String (Waveform A) CombinatorFault

/-- Answers one request beside an operation. Replacing a waveform gives the one held before. -/
def Rack.answer {A : Type} [Sample A] (operation : RackOperation A) (request : RackRequest A)
    (rack : Rack A) :
    Except (Halt (OperationFault CombinatorFault)) (RackReply A) × Rack A :=
  match request with
  | .value =>
    let (result, rack) := operation.currentValue Rack.studio rack
    (result.map .waveform, rack)
  | .read name =>
    let (waveform, rack) := rack.read name
    (.ok (.waveform waveform), rack)
  | .replace name waveform =>
    match rack.sources name with
    | .held before => (.ok (.waveform before), rack.plug name (.held waveform))
    | _ => (.ok .unavailable, rack)
  | .level name =>
    match (rack.sources name).level? with
    | some value => (.ok (.level value), rack)
    | none => (.ok .unavailable, rack)

end SignalStrip
