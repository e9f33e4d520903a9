import SignalStrip.Signal.Operator
import SignalStrip.Signal.Waveform

/-! The built-in operators on waveforms. Each of them works sample by sample. -/

namespace SignalStrip

inductive Filter (A : Type) where
  | gain (factor : A)
  | offset (amount : A)
  | invert
  | magnitude
  | clamp (low high : A)
  | gate (threshold : A)
  | map (f : A → A)

inductive Mixer (A : Type) where
  | add
  | subtract
  | multiply
  | lesser
  | greater
  | crossfade (mix : A)
  deriving DecidableEq, Repr

inductive CombinatorFault where
  | clampBounds
  deriving DecidableEq, Repr

def CombinatorFault.message : CombinatorFault → String
  | clampBounds => "min > max, or either was NaN"

variable {A : Type} [Sample A]

namespace Filter

/-- A clamp looks at its bounds only when it has a sample to clamp. A gate lets samples through whose
magnitude exceeds the threshold. -/
def sample : Filter A → A → Except CombinatorFault A
  | gain factor, sample => .ok (sample * factor)
  | offset amount, sample => .ok (sample + amount)
  | invert, sample => .ok (-sample)
  | magnitude, sample => .ok (Sample.magnitude sample)
  | clamp low high, sample =>
    if Sample.atMost low high then .ok (Sample.clip low high sample) else .error .clampBounds
  | gate threshold, sample =>
    .ok (if Sample.below threshold (Sample.magnitude sample) then sample else 0)
  | map f, sample => .ok (f sample)

def apply (filter : Filter A) (waveform : Waveform A) : Except CombinatorFault (Waveform A) :=
  waveform.mapM filter.sample

def operator (filter : Filter A) : SignalOperator (Waveform A) CombinatorFault :=
  .unary filter.apply

end Filter

namespace Mixer

/-- A crossfade is all left at 0 and all right at 1, and goes no further than either. -/
def sample : Mixer A → A → A → A
  | add, left, right => left + right
  | subtract, left, right => left - right
  | multiply, left, right => left * right
  | lesser, left, right => Sample.lesser left right
  | greater, left, right => Sample.greater left right
  | crossfade mix, left, right =>
    let share := Sample.clip 0 1 mix
    left * (1 - share) + right * share

def apply (mixer : Mixer A) (left right : Waveform A) : Waveform A :=
  left.zipWith mixer.sample right

def operator (mixer : Mixer A) : SignalOperator (Waveform A) CombinatorFault :=
  .binary fun left right => .ok (mixer.apply left right)

end Mixer
end SignalStrip
