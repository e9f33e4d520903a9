import SignalStrip.Term.Combiner

/-! Sessions with combiners: what can be asked of one, and what the caches hold afterwards. -/

namespace SignalStrip

/-- What lengthens a strip of terms. The operator itself says at which tier it stands. -/
inductive TermKey where
  | term
  | operator (op : TermOp)
  | leftParen
  | rightParen
  deriving DecidableEq, Repr

def TermKey.toKey : TermKey → Key TermOp
  | term => .operand
  | operator op => .binary op.tier op
  | leftParen => .leftParen
  | rightParen => .rightParen

def Strip.ofTermKeys (keys : List TermKey) : Strip TermOp :=
  .ofKeys (keys.map TermKey.toKey)

/-- The ways to a program. Only a combiner refuses unary operators. -/
inductive TermSource where
  | keys (pressed : List TermKey)
  | combinedKeys (pressed : List TermKey)
  | combinedParts (tokens : List Token) (ops : List TermOp)
  | loose (tokens : List Token) (ops : List TermOp)
  deriving DecidableEq, Repr

def TermSource.compileLogged (source : TermSource) (log : Log) :
    Except CombinerFault (Program TermOp) × Log :=
  match source with
  | .keys pressed =>
    let (result, log) := (Strip.ofTermKeys pressed).compileLogged log
    (result.mapError .parts, log)
  | .combinedKeys pressed => Combiner.compileLogged (.ofTermKeys pressed) log
  | .combinedParts tokens ops =>
    match Strip.ofParts tokens ops with
    | .ok strip => Combiner.compileLogged strip log
    | .error fault => (.error (.parts fault), log)
  | .loose tokens ops =>
    let (result, log) := SignalStrip.compileLogged tokens ops log
    (result.mapError .parts, log)

inductive TermRequest (A : Type) where
  | compile (source : TermSource)
  | evaluate (program : Program TermOp) (operands : List (Term A))
  | evaluateTerm (program : Program TermOp) (operands : List (Term A))
  | materialize (term : Term A)
  | zeros (length : Nat)
  | zero
  | clear

inductive TermReply (A : Type) where
  | program (program : Program TermOp)
  | array (handout : Handout A)
  | term (term : Term A)
  | zero (term : Term A) (dimension : Nat)
  | cleared

def TermReply.name? {A : Type} : TermReply A → Option ArrayName
  | array handout => some handout.name
  | term (.data _ name) => name
  | term (.zero _) | program _ | zero .. | cleared => none

/-- A term as a caller gets it, who holds its array from then on. -/
def ZeroStore.hold {A : Type} (store : ZeroStore A) : Term A → Term A × ZeroStore A
  | .zero length => (.zero length, store)
  | .data samples name =>
    let (name, store) := store.name name
    (.data samples (some name), store)

def Combiner.answer {A : Type} [Sample A] (combiner : Combiner) (request : TermRequest A)
    (store : ZeroStore A) : Except (Halt CombinerFault) (TermReply A) × ZeroStore A :=
  match request with
  | .compile source =>
    let (result, log) := source.compileLogged store.log
    ((result.mapError .fault).map .program, { store with log := log })
  | .evaluate program operands =>
    let (result, store) := combiner.evaluate program operands store
    (result.map .array, store)
  | .evaluateTerm program operands =>
    match combiner.evaluateTerm program operands store.log with
    | (.ok term, log) =>
      let (term, store) := { store with log := log }.hold term
      (.ok (.term term), store)
    | (.error halt, log) => (.error halt, { store with log := log })
  | .materialize term =>
    let (handout, store) := combiner.materialize term store
    (.ok (.array handout), store)
  | .zeros length =>
    let (array, store) := store.zeros combiner.cache length
    (.ok (.array array.handout), store)
  | .zero => (.ok (.zero combiner.zero combiner.dimension), store)
  | .clear => (.ok .cleared, store.clear combiner.cache)

end SignalStrip
