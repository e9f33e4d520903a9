import SignalStrip.Strip
import SignalStrip.Evaluation
import SignalStrip.Term.ZeroCache

/-! Combiners evaluate programs over terms of one dimension. Their operators are binary only. -/

namespace SignalStrip

/-- `cache` is the number of the cache it takes zero arrays from, which combiners may share. -/
structure Combiner where
  dimension : Nat
  cache : Nat
  deriving DecidableEq, Repr

inductive CombinerFault where
  | parts (fault : PartsFault)
  | unaryToken
  | operandCount (expected : Nat)
  | operandLength (length dimension : Nat)
  | unaryUse (op : TermOp)
  | term (fault : TermFault)
  deriving DecidableEq, Repr

def CombinerFault.message : CombinerFault → String
  | parts fault => fault.message
  | unaryToken => "term expressions have no unary operators"
  | operandCount expected => s!"program expects {expected} operands"
  | operandLength length dimension =>
    s!"operand of length {length} given to a combiner of dimension {dimension}"
  | unaryUse op => s!"term operator {op.name} used as a unary operator"
  | term fault => fault.message

structure TermSupply (A : Type) where
  terms : List (Term A)
  log : Log

namespace TermSupply

variable {A : Type}

def next (supply : TermSupply A) : Option (Term A × TermSupply A) :=
  match supply.terms with
  | [] => none
  | term :: rest => some (term, { supply with terms := rest })

def interpretation [Sample A] : Interpretation (TermSupply A) TermOp (Term A) CombinerFault where
  next := next
  unary op _ supply := (.error (.unaryUse op), supply)
  binary op left right supply :=
    let (result, log) := op.apply left right supply.log
    (result.mapError .term, { supply with log := log })
  note record supply := { supply with log := supply.log.push record }

end TermSupply

structure Handout (A : Type) where
  samples : List A
  name : ArrayName
  deriving Repr

/-- The place of the first earlier handout of the very same array, given the names of all. -/
def Handout.firstShared {A : Type} (handout : Handout A) (earlier : List (Option ArrayName)) : Option Nat :=
  earlier.idxOf? (some handout.name)

def SharedArray.handout {A : Type} (array : SharedArray A) : Handout A :=
  ⟨array.samples, .cached array.allocation⟩

namespace Combiner

variable {A : Type}

def zero (combiner : Combiner) : Term A :=
  .zero combiner.dimension

def compileLogged (strip : Strip TermOp) (log : Log) : Except CombinerFault (Program TermOp) × Log :=
  if strip.tokens.any Token.isUnary then (.error .unaryToken, log)
  else
    let (result, log) := strip.compileLogged log
    (result.mapError .parts, log)

/-- Evaluates over one term for each operand. The operands are checked before anything runs, and a
program without tokens stands for zero. -/
def evaluateTerm [Sample A] (combiner : Combiner) (program : Program TermOp) (operands : List (Term A))
    (log : Log) : Except (Halt CombinerFault) (Term A) × Log :=
  if program.operandCount = operands.length then
    match operands.find? fun term => term.length != combiner.dimension with
    | some term => (.error (.fault (.operandLength term.length combiner.dimension)), log)
    | none =>
      if program.isEmpty then (.ok combiner.zero, log)
      else
        let (result, supply) := program.evaluate TermSupply.interpretation ⟨operands, log⟩
        (result, supply.log)
  else (.error (.fault (.operandCount program.operandCount)), log)

/-- A zero term is handed out as the shared array of its length, and data as the array it is. -/
def materialize [Zero A] (combiner : Combiner) (term : Term A) (store : ZeroStore A) :
    Handout A × ZeroStore A :=
  match term with
  | .zero length =>
    let (array, store) := store.zeros combiner.cache length
    (array.handout, store)
  | .data samples name =>
    let (name, store) := store.name name
    (⟨samples, name⟩, store)

def evaluate [Sample A] (combiner : Combiner) (program : Program TermOp) (operands : List (Term A))
    (store : ZeroStore A) : Except (Halt CombinerFault) (Handout A) × ZeroStore A :=
  match combiner.evaluateTerm program operands store.log with
  | (.ok term, log) =>
    let (handout, store) := combiner.materialize term { store with log := log }
    (.ok handout, store)
  | (.error halt, log) => (.error halt, { store with log := log })

end Combiner
end SignalStrip
