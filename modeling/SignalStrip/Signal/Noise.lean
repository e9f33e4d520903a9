import SignalStrip.Signal.Waveform

/-! White noise out of a stream of random words, which come round again after the last of them. -/

namespace SignalStrip

structure WordStream where
  words : Array UInt64
  taken : Nat
  deriving DecidableEq, Repr

namespace WordStream

def word (stream : WordStream) (index : Nat) : UInt64 :=
  stream.words.getD (index % stream.words.size) 0

def take (stream : WordStream) (count : Nat) : List UInt64 × WordStream :=
  ((List.range count).map fun index => stream.word (stream.taken + index),
    { stream with taken := stream.taken + count })

end WordStream

/-- Spreads the top 52 bits of a word over the range from -1 to 1. The factor is the double above 2, and
the product and the sum are rounded on their own. -/
def noiseSample {A : Type} [Sample A] (word : UInt64) : A :=
  Sample.dyadic (word.toNat / Nat.pow 2 12) 52 * Sample.dyadic (Nat.pow 2 52 + 1) 51 + -1

def noiseBlock {A : Type} [Sample A] (rate : A) (length : Nat) (stream : WordStream) :
    Waveform A × WordStream :=
  let (words, stream) := stream.take length
  (⟨rate, words.map noiseSample⟩, stream)

end SignalStrip
