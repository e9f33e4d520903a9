/-! Operators on signals. An operator is whatever its caller supplies, and it may refuse its input. -/

namespace SignalStrip

inductive SignalOperator (S F : Type) where
  | unary (apply : S → Except F S)
  | binary (apply : S → S → Except F S)

namespace SignalOperator

variable {S F : Type}

def isUnary : SignalOperator S F → Bool
  | unary _ => true
  | binary _ => false

/-- Operators are opaque, so their text shows nothing but the arity. -/
def text : SignalOperator S F → String
  | unary _ => "Unary(..)"
  | binary _ => "Binary(..)"

end SignalOperator
end SignalStrip
