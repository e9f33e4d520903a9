import SignalStrip.Log
import SignalStrip.Sample

/-! Terms: arrays of samples of one length, where an array known to be zero is only tagged as such. -/

namespace SignalStrip

/-- What tells arrays apart. Those that caches made and all others are numbered on their own. -/
inductive ArrayName where
  | cached (number : Nat)
  | other (number : Nat)
  deriving DecidableEq, Repr

/-- The tag is part of a term: samples that happen to be zero do not make it `zero`. An array of data has a name once
it has been handed out. -/
inductive Term (A : Type) where
  | zero (length : Nat)
  | data (samples : List A) (name : Option ArrayName)
  deriving Repr

instance {A : Type} [BEq A] : BEq (Term A) where
  beq
    | .zero length, .zero other => length == other
    | .data samples _, .data others _ => samples == others
    | _, _ => false

inductive TermFault where
  | zeroIndex (index length : Nat)
  | dataIndex (index length : Nat)
  | lengthMismatch
  deriving DecidableEq, Repr

def TermFault.message : TermFault → String
  | zeroIndex index length => s!"index {index} out of bounds for zero term of length {length}"
  | dataIndex index length => s!"index out of bounds: the len is {length} but the index is {index}"
  | lengthMismatch => "term operands must have the same length"

namespace Term

variable {A : Type}

def length : Term A → Nat
  | zero length => length
  | data samples _ => samples.length

def isEmpty (term : Term A) : Bool :=
  term.length == 0

def isZero : Term A → Bool
  | zero _ => true
  | data .. => false

def samples [Zero A] : Term A → List A
  | zero length => List.replicate length 0
  | data samples _ => samples

@[simp] theorem length_samples [Zero A] (term : Term A) : term.samples.length = term.length := by
  cases term <;> simp [samples, length]

def get [Zero A] (term : Term A) (index : Nat) : Except TermFault A :=
  match term with
  | zero length => if index < length then .ok 0 else .error (.zeroIndex index length)
  | data samples _ =>
    match samples[index]? with
    | some sample => .ok sample
    | none => .error (.dataIndex index samples.length)

theorem get_eq_ok [Zero A] {term : Term A} {index : Nat} {sample : A} :
    term.get index = .ok sample ↔ term.samples[index]? = some sample := by
  cases term with
  | zero length => by_cases within : index < length <;> simp [get, samples, within, eq_comm]
  | data values _ => cases held : values[index]? <;> simp [get, samples, held]

end Term

inductive TermOp where
  | add
  | subtract
  | multiply
  deriving DecidableEq, Repr

namespace TermOp

variable {A : Type}

def name : TermOp → String
  | add => "Add"
  | subtract => "Subtract"
  | multiply => "Multiply"

def symbol : TermOp → Char
  | add => '+'
  | subtract => '-'
  | multiply => '*'

def tier : TermOp → Tier
  | add | subtract => .first
  | multiply => .second

def scalar [Sample A] : TermOp → A → A → A
  | add, left, right => left + right
  | subtract, left, right => left - right
  | multiply, left, right => left * right

/-- The result that tags alone decide, and the record that says so. A difference is always computed. -/
def shortcut? : TermOp → Term A → Term A → Option (Record × Term A)
  | add, .zero _, right => some (.zeroSum .left, right)
  | add, left, .zero _ => some (.zeroSum .right, left)
  | multiply, .zero length, _ => some (.zeroProduct .left, .zero length)
  | multiply, _, .zero length => some (.zeroProduct .right, .zero length)
  | _, _, _ => none

def apply [Sample A] (op : TermOp) (left right : Term A) (log : Log) :
    Except TermFault (Term A) × Log :=
  if left.length = right.length then
    match op.shortcut? left right with
    | some (record, term) => (.ok term, log.push record)
    | none => (.ok (.data (List.zipWith op.scalar left.samples right.samples) none), log)
  else (.error .lengthMismatch, log)

end TermOp
end SignalStrip
