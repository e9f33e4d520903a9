import SignalStrip.Sample

/-! Waveforms: runs of samples at a fixed rate. -/

namespace SignalStrip

structure Waveform (A : Type) where
  rate : A
  samples : List A
  deriving BEq, Repr

namespace Waveform

variable {A : Type}

def constant (rate value : A) (length : Nat) : Waveform A :=
  ⟨rate, List.replicate length value⟩

def silence [Zero A] (rate : A) (length : Nat) : Waveform A :=
  constant rate 0 length

def length (waveform : Waveform A) : Nat :=
  waveform.samples.length

def isEmpty (waveform : Waveform A) : Bool :=
  waveform.samples.isEmpty

def mapM {F : Type} (f : A → Except F A) (waveform : Waveform A) : Except F (Waveform A) :=
  (waveform.samples.mapM f).map fun samples => ⟨waveform.rate, samples⟩

/-- Combines two waveforms as far as both last. The rate is that of the left one. -/
def zipWith (f : A → A → A) (left right : Waveform A) : Waveform A :=
  ⟨left.rate, List.zipWith f left.samples right.samples⟩

end Waveform
end SignalStrip
