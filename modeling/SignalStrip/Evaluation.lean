import SignalStrip.Log

/-! Evaluation of a program on a stack of values. Where values come from, what operators do and what
either of them changes is left to an interpretation; the state it has reached is kept even when the
evaluation stops early. -/

namespace SignalStrip

inductive ShapeError where
  | underflow (position : Nat)
  | tooManyOperands (remaining : Nat)
  | emptyExpression
  deriving DecidableEq, Repr

def ShapeError.message : ShapeError → String
  | underflow position => s!"operator at postfix position {position} has too few operands"
  | tooManyOperands remaining => s!"expression leaves {remaining} values instead of one"
  | emptyExpression => "expression produces no value"

inductive Halt (F : Type) where
  | shape (error : ShapeError)
  | exhausted (position : Nat)
  | unpaired
  | fault (cause : F)
  deriving DecidableEq, Repr

def Halt.message {F : Type} (describe : F → String) : Halt F → String
  | shape error => error.message
  | exhausted position => s!"operand supply exhausted at postfix position {position}"
  | unpaired => "compiled programs pair every operator token with a payload"
  | fault cause => describe cause

/-- What an evaluation needs besides the program. Everything it does to its surroundings goes through
the state `σ`: taking the next operand, applying an operator and noting a record. -/
structure Interpretation (σ O V F : Type) where
  next : σ → Option (V × σ)
  unary : O → V → σ → Except F V × σ
  binary : O → V → V → σ → Except F V × σ
  note : Record → σ → σ

namespace Interpretation

variable {σ O V F : Type}

def settle (stack : List V) : Except F V × σ → Except (Halt F) (List V) × σ
  | (.ok value, state) => (.ok (value :: stack), state)
  | (.error cause, state) => (.error (.fault cause), state)

/-- One step on a stack with its top first. A binary operator finds its right operand on top, since
that one was written last. -/
def perform (interpretation : Interpretation σ O V F) (position : Nat) (step : Step O)
    (stack : List V) (state : σ) : Except (Halt F) (List V) × σ :=
  match step, stack with
  | (.operand, _), stack =>
    match interpretation.next state with
    | some (value, state) => (.ok (value :: stack), state)
    | none => (.error (.exhausted position), state)
  | (.unary _, some payload), value :: stack =>
    settle stack (interpretation.unary payload value state)
  | (.binary _, some payload), right :: left :: stack =>
    settle stack (interpretation.binary payload left right state)
  | (_, some _), _ => (.error (.shape (.underflow position)), state)
  | (_, none), _ => (.error .unpaired, state)

/-- The steps in order, the first of them at `position`. Each is noted before it is performed. -/
def run (interpretation : Interpretation σ O V F) :
    Nat → List (Step O) → List V → σ → Except (Halt F) (List V) × σ
  | _, [], stack, state => (.ok stack, state)
  | position, step :: steps, stack, state =>
    match interpretation.perform position step stack
      (interpretation.note (.step position step.1 stack.length) state) with
    | (.ok stack, state) => run interpretation (position + 1) steps stack state
    | (.error halt, state) => (.error halt, state)

theorem run_append (interpretation : Interpretation σ O V F) (position : Nat)
    (first second : List (Step O)) (stack : List V) (state : σ) :
    interpretation.run position (first ++ second) stack state =
      match interpretation.run position first stack state with
      | (.ok stack, state) => interpretation.run (position + first.length) second stack state
      | (.error halt, state) => (.error halt, state) := by
  induction first generalizing position stack state with
  | nil => rfl
  | cons step steps ih =>
    simp only [List.cons_append, run, List.length_cons]
    split
    · rw [ih, Nat.add_assoc, Nat.add_comm 1]
    · rfl

end Interpretation

def soleValue {V : Type} : List V → Except ShapeError V
  | [] => .error .emptyExpression
  | [value] => .ok value
  | stack => .error (.tooManyOperands stack.length)

def Program.evaluate {σ O V F : Type} (program : Program O)
    (interpretation : Interpretation σ O V F) (state : σ) : Except (Halt F) V × σ :=
  match interpretation.run 0 program.steps [] state with
  | (.ok stack, state) => ((soleValue stack).mapError .shape, state)
  | (.error halt, state) => (.error halt, state)

end SignalStrip
