import SignalStrip.Program

/-! Log records. A record keeps what happened; its text is made when it is read. -/

namespace SignalStrip

inductive Level where
  | debug
  | trace
  deriving DecidableEq, Repr

def Level.text : Level → String
  | debug => "DEBUG"
  | trace => "TRACE"

inductive Side where
  | left
  | right
  deriving DecidableEq, Repr

def Side.text : Side → String
  | left => "left"
  | right => "right"

inductive Record where
  /-- A strip of `read` tokens became the program with these tokens. -/
  | compiled (read : Nat) (tokens : List ProgramToken)
  /-- The step at `position` begins with `depth` values on the stack. -/
  | step (position : Nat) (token : ProgramToken) (depth : Nat)
  /-- A sum was its other operand, because the operand on `side` is tagged zero. -/
  | zeroSum (side : Side)
  | zeroProduct (side : Side)
  | allocated (length : Nat)
  deriving DecidableEq, Repr

namespace Record

def level : Record → Level
  | compiled .. | allocated _ => .debug
  | step .. | zeroSum _ | zeroProduct _ => .trace

def message : Record → String
  | compiled read tokens =>
    s!"compiled {read} infix tokens into {tokens.length} postfix tokens: {Program.textOf tokens}"
  | step position token depth => s!"step {position}: {token.text} (depth {depth})"
  | zeroSum side => s!"add: {side.text} operand is zero"
  | zeroProduct side => s!"multiply: {side.text} operand is zero"
  | allocated length => s!"allocating zero array of length {length}"

def text (record : Record) : String :=
  record.level.text ++ " " ++ record.message

end Record

abbrev Log := Array Record

end SignalStrip
