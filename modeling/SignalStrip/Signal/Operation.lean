import SignalStrip.Strip
import SignalStrip.Evaluation
import SignalStrip.Signal.Operator

/-! Operations: programs of signal operators together with the producers of their operands. Producers
are read while the program runs, so an operation has a fresh value each time. -/

namespace SignalStrip

/-- How producers `P` are read in a world `σ`, which reading may change, and where records go. -/
structure Studio (σ P S : Type) where
  read : P → σ → S × σ
  note : Record → σ → σ

inductive OperationFault (F : Type) where
  | parts (fault : PartsFault)
  | producerCount (expected : Nat)
  | arity (position : Nat) (token : ProgramToken)
  | binaryOnUnary
  | unaryOnBinary
  | operator (cause : F)
  deriving DecidableEq, Repr

def OperationFault.message {F : Type} (describe : F → String) : OperationFault F → String
  | parts fault => fault.message
  | producerCount expected => s!"program expects {expected} producers"
  | arity position token =>
    s!"operator at postfix position {position} does not match the arity of {token.text}"
  | binaryOnUnary => "binary operator placed on a unary token"
  | unaryOnBinary => "unary operator placed on a binary token"
  | operator cause => describe cause

variable {σ P S F : Type}

structure Listening (σ P : Type) where
  pending : List P
  world : σ

namespace Listening

def next (studio : Studio σ P S) (listening : Listening σ P) : Option (S × Listening σ P) :=
  match listening.pending with
  | [] => none
  | producer :: rest =>
    let (signal, world) := studio.read producer listening.world
    some (signal, ⟨rest, world⟩)

/-- An operator is applied only where its arity matches the token it was placed on. -/
def interpretation (studio : Studio σ P S) :
    Interpretation (Listening σ P) (SignalOperator S F) S (OperationFault F) where
  next := next studio
  unary operator signal listening :=
    match operator with
    | .unary apply => ((apply signal).mapError .operator, listening)
    | .binary _ => (.error .binaryOnUnary, listening)
  binary operator left right listening :=
    match operator with
    | .binary apply => ((apply left right).mapError .operator, listening)
    | .unary _ => (.error .unaryOnBinary, listening)
  note record listening := { listening with world := studio.note record listening.world }

end Listening

/-- Reads one producer for each operand, from left to right, and only when its operand's turn comes. -/
def evaluateOperations (studio : Studio σ P S) (program : Program (SignalOperator S F))
    (producers : List P) (world : σ) : Except (Halt (OperationFault F)) S × σ :=
  if program.operandCount = producers.length then
    let (result, listening) := program.evaluate (Listening.interpretation studio) ⟨producers, world⟩
    (result, listening.world)
  else (.error (.fault (.producerCount program.operandCount)), world)

/-- A program and the producers of its operands, in order. Only `Operation.ofProgram` checks that they
fit together. -/
structure Operation (P S F : Type) where
  program : Program (SignalOperator S F)
  producers : List P

def arityMismatch? : Nat → List (Step (SignalOperator S F)) → Option (Nat × ProgramToken)
  | _, [] => none
  | position, (_, none) :: steps => arityMismatch? (position + 1) steps
  | position, (token, some operator) :: steps =>
    if operator.isUnary = token.isUnary then arityMismatch? (position + 1) steps
    else some (position, token)

namespace Operation

def ofProgram (program : Program (SignalOperator S F)) (producers : List P) :
    Except (OperationFault F) (Operation P S F) :=
  if program.operandCount = producers.length then
    match arityMismatch? 0 program.steps with
    | some (position, token) => .error (.arity position token)
    | none => .ok ⟨program, producers⟩
  else .error (.producerCount program.operandCount)

def currentValue (operation : Operation P S F) (studio : Studio σ P S) (world : σ) :
    Except (Halt (OperationFault F)) S × σ :=
  evaluateOperations studio operation.program operation.producers world

end Operation

/-- What lengthens an operation under construction. Each operand comes with its producer, and each
operator at the arity of its key. -/
inductive OperationKey (P S F : Type) where
  | operand (producer : P)
  | unary (tier : Tier) (apply : S → Except F S)
  | binary (tier : Tier) (apply : S → S → Except F S)
  | leftParen
  | rightParen

namespace OperationKey

def toKey : OperationKey P S F → Key (SignalOperator S F)
  | operand _ => .operand
  | unary tier apply => .unary tier (.unary apply)
  | binary tier apply => .binary tier (.binary apply)
  | leftParen => .leftParen
  | rightParen => .rightParen

def producer? : OperationKey P S F → Option P
  | operand producer => some producer
  | unary .. | binary .. | leftParen | rightParen => none

end OperationKey

structure OperationBuilder (P S F : Type) where
  strip : Strip (SignalOperator S F)
  producers : List P

namespace OperationBuilder

def empty : OperationBuilder P S F :=
  ⟨.empty, []⟩

def press (builder : OperationBuilder P S F) (key : OperationKey P S F) : OperationBuilder P S F :=
  ⟨builder.strip.press key.toKey, builder.producers ++ key.producer?.toList⟩

def ofKeys (keys : List (OperationKey P S F)) : OperationBuilder P S F :=
  keys.foldl press empty

def build (builder : OperationBuilder P S F) (log : Log) :
    Except (OperationFault F) (Operation P S F) × Log :=
  match builder.strip.compileLogged log with
  | (.ok program, log) => (Operation.ofProgram program builder.producers, log)
  | (.error fault, log) => (.error (.parts fault), log)

end OperationBuilder
end SignalStrip
