import SignalStrip.Compilation

/-! Strips: tokens in the order a user laid them out, and the payloads of the operators among them in
that same order. -/

namespace SignalStrip

structure Strip (O : Type) where
  tokens : List Token
  payloads : List O
  deriving DecidableEq, Repr

/-- What a user can press to lengthen a strip. A key that places an operator brings its payload. -/
inductive Key (O : Type) where
  | operand
  | binary (tier : Tier) (payload : O)
  | unary (tier : Tier) (payload : O)
  | leftParen
  | rightParen
  deriving DecidableEq, Repr

namespace Key

variable {O : Type}

def token : Key O → Token
  | operand => .operand
  | binary tier _ => .binary tier
  | unary tier _ => .unary tier
  | leftParen => .leftParen
  | rightParen => .rightParen

def payload? : Key O → Option O
  | binary _ payload | unary _ payload => some payload
  | operand | leftParen | rightParen => none

end Key

namespace Strip

variable {O : Type}

def empty : Strip O :=
  ⟨[], []⟩

def press (strip : Strip O) (key : Key O) : Strip O :=
  ⟨strip.tokens ++ [key.token], strip.payloads ++ key.payload?.toList⟩

def ofKeys (keys : List (Key O)) : Strip O :=
  keys.foldl press empty

/-- Puts a strip together from parts made elsewhere: no end of the list among the tokens, and as many
payloads as operators. -/
def ofParts (tokens : List Token) (payloads : List O) : Except PartsFault (Strip O) :=
  let operators := tokens.countP Token.isOperator
  if .endOfList ∈ tokens then .error .endOfList
  else if operators = payloads.length then .ok ⟨tokens, payloads⟩
  else .error (.payloadCount operators payloads.length)

def length (strip : Strip O) : Nat :=
  strip.tokens.length

def isEmpty (strip : Strip O) : Bool :=
  strip.tokens.isEmpty

def operandCount (strip : Strip O) : Nat :=
  strip.tokens.count .operand

def compile (strip : Strip O) : Except PartsFault (Program O) :=
  SignalStrip.compile strip.tokens strip.payloads

def compileLogged (strip : Strip O) (log : Log) : Except PartsFault (Program O) × Log :=
  SignalStrip.compileLogged strip.tokens strip.payloads log

end Strip
end SignalStrip
