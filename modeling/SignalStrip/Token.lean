/-! Tokens of a calculator strip, and the priorities that decide which of them group together. -/

namespace SignalStrip

/-- Operators of a higher tier bind more tightly than operators of the same arity in a lower one. -/
inductive Tier where
  | first
  | second
  | third
  deriving DecidableEq, Repr

def Tier.precedence : Tier → Nat
  | .first => 1
  | .second => 2
  | .third => 3

theorem Tier.precedence_pos (tier : Tier) : 0 < tier.precedence := by
  cases tier <;> decide

theorem Tier.precedence_le (tier : Tier) : tier.precedence ≤ 3 := by
  cases tier <;> decide

instance : Ord Tier where
  compare left right := compare left.precedence right.precedence

/-- What a strip can hold. `endOfList` never stands on a strip: it marks the bottom of the
compiler's stack. -/
inductive Token where
  | endOfList
  | operand
  | binary (tier : Tier)
  | unary (tier : Tier)
  | leftParen
  | rightParen
  deriving DecidableEq, Repr

/-- A token is compared by `input` while it is read and by `stack` while it waits. -/
structure Priority where
  input : Int
  stack : Int
  deriving DecidableEq, Repr

namespace Token

/-- Binary tiers take 1 to 3 and unary tiers 4 to 6, so every unary operator binds more tightly
than every binary one. A left paren binds like an operand when it is read and holds back everything
once it waits; a right paren releases everything when it is read and waits like an operand. -/
def priority : Token → Priority
  | endOfList => ⟨-1, -1⟩
  | operand => ⟨7, 7⟩
  | binary tier => ⟨tier.precedence, tier.precedence⟩
  | unary tier => ⟨3 + tier.precedence, 3 + tier.precedence⟩
  | leftParen => ⟨7, 0⟩
  | rightParen => ⟨0, 7⟩

theorem priority_le (token : Token) : token.priority.input ≤ 7 ∧ token.priority.stack ≤ 7 := by
  cases token with
  | endOfList | operand | leftParen | rightParen => decide
  | binary tier | unary tier =>
    have := tier.precedence_le
    simp only [priority]
    omega

theorem priority_nonneg {token : Token} (listed : token ≠ .endOfList) :
    0 ≤ token.priority.input ∧ 0 ≤ token.priority.stack := by
  cases token with
  | endOfList => exact (listed rfl).elim
  | operand | leftParen | rightParen => decide
  | binary tier | unary tier =>
    simp only [priority]
    omega

def isParen : Token → Bool
  | leftParen | rightParen => true
  | _ => false

def isUnary : Token → Bool
  | unary _ => true
  | _ => false

def isOperator : Token → Bool
  | binary _ | unary _ => true
  | _ => false

def text : Token → String
  | endOfList => "$"
  | operand => "x"
  | binary tier => s!"b{tier.precedence}"
  | unary tier => s!"u{tier.precedence}"
  | leftParen => "("
  | rightParen => ")"

def listText (tokens : List Token) : String :=
  " ".intercalate (tokens.map text)

end Token

inductive ProgramToken where
  | operand
  | unary (tier : Tier)
  | binary (tier : Tier)
  deriving DecidableEq, Repr

namespace ProgramToken

def toToken : ProgramToken → Token
  | operand => .operand
  | unary tier => .unary tier
  | binary tier => .binary tier

def ofToken? : Token → Option ProgramToken
  | .operand => some operand
  | .unary tier => some (unary tier)
  | .binary tier => some (binary tier)
  | .endOfList | .leftParen | .rightParen => none

theorem ofToken?_eq_some {token : Token} {kept : ProgramToken} :
    ofToken? token = some kept ↔ token = kept.toToken := by
  cases token <;> cases kept <;> simp [ofToken?, toToken]

def isUnary : ProgramToken → Bool
  | unary _ => true
  | operand | binary _ => false

def text (token : ProgramToken) : String :=
  token.toToken.text

end ProgramToken
end SignalStrip
