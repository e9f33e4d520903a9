import SignalStrip.Token

/-! Programs: the tokens of an expression in evaluation order, and the payloads of its operators in
the same order. -/

namespace SignalStrip

structure Program (O : Type) where
  tokens : List ProgramToken
  payloads : List O
  deriving DecidableEq, Repr

/-- One token of a program with its payload, which an operand lacks. -/
abbrev Step (O : Type) := ProgramToken × Option O

namespace Program

variable {O : Type}

def empty : Program O :=
  ⟨[], []⟩

def append (first second : Program O) : Program O :=
  ⟨first.tokens ++ second.tokens, first.payloads ++ second.payloads⟩

instance : Append (Program O) := ⟨append⟩

@[simp] theorem tokens_empty : (empty : Program O).tokens = [] := rfl

@[simp] theorem payloads_empty : (empty : Program O).payloads = [] := rfl

@[simp] theorem tokens_append (first second : Program O) :
    (first ++ second).tokens = first.tokens ++ second.tokens := rfl

@[simp] theorem payloads_append (first second : Program O) :
    (first ++ second).payloads = first.payloads ++ second.payloads := rfl

def length (program : Program O) : Nat :=
  program.tokens.length

def isEmpty (program : Program O) : Bool :=
  program.tokens.isEmpty

def operandCount (program : Program O) : Nat :=
  program.tokens.count .operand

/-- Gives each operator token the next payload. An operator left without one keeps `none`, so that
whoever runs the steps has to say what happens then. -/
def pair : List ProgramToken → List O → List (Step O)
  | [], _ => []
  | .operand :: tokens, payloads => (.operand, none) :: pair tokens payloads
  | token :: tokens, payloads => (token, payloads.head?) :: pair tokens payloads.tail

def steps (program : Program O) : List (Step O) :=
  pair program.tokens program.payloads

theorem map_fst_pair (tokens : List ProgramToken) (payloads : List O) :
    (pair tokens payloads).map Prod.fst = tokens := by
  induction tokens generalizing payloads with
  | nil => rfl
  | cons token tokens ih => cases token <;> simp [pair, ih]

@[simp] theorem map_fst_steps (program : Program O) : program.steps.map Prod.fst = program.tokens :=
  map_fst_pair program.tokens program.payloads

theorem forall_steps {program : Program O} {holds : ProgramToken → Prop}
    (all : ∀ token ∈ program.tokens, holds token) : ∀ step ∈ program.steps, holds step.1 := by
  intro step member
  refine all step.1 ?_
  rw [← program.map_fst_steps]
  exact List.mem_map_of_mem member

theorem length_steps (program : Program O) : program.steps.length = program.length := by
  rw [length, ← program.map_fst_steps, List.length_map]

def textOf (tokens : List ProgramToken) : String :=
  " ".intercalate (tokens.map ProgramToken.text)

def text (program : Program O) : String :=
  textOf program.tokens

end Program
end SignalStrip
