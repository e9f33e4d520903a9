/-! The arithmetic of samples. Waveforms and terms work over any type that has these operations. No
law is assumed of them, since floating point keeps few; a statement names the laws it needs. `dyadic` divides
by a power of two, and `lesser` and `greater` give the other sample where one is no number. -/

namespace SignalStrip

class Sample (A : Type) extends Zero A, One A, Add A, Sub A, Mul A, Div A, Neg A where
  dyadic (numerator exponent : Nat) : A
  magnitude : A → A
  lesser : A → A → A
  greater : A → A → A
  below : A → A → Bool
  atMost : A → A → Bool

namespace Sample

/-- Brings a sample into a range. One that compares with neither end stays as it is. -/
def clip {A : Type} [Sample A] (low high sample : A) : A :=
  if below sample low then low else if below high sample then high else sample

instance : Sample Float where
  dyadic numerator exponent := Float.ofNat numerator / Float.ofNat (Nat.pow 2 exponent)
  magnitude := Float.abs
  lesser left right :=
    if left.isNaN then right else if right.isNaN then left else if right < left then right else left
  greater left right :=
    if left.isNaN then right else if right.isNaN then left else if left < right then right else left
  below left right := left < right
  atMost left right := left ≤ right

@[reducible]
def whole : Sample Int where
  zero := 0
  one := 1
  dyadic numerator exponent := Int.ofNat (numerator / Nat.pow 2 exponent)
  magnitude sample := sample.natAbs
  lesser := min
  greater := max
  below left right := left < right
  atMost left right := left ≤ right

end Sample
end SignalStrip
