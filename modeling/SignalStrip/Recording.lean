import SignalStrip.Evaluation

/-! Evaluation over a given list of values with functions that cannot fail. Every pull and every
application is recorded. -/

namespace SignalStrip

inductive Event (O V : Type) where
  | pull (value : V)
  | unary (payload : O)
  | binary (payload : O)
  deriving DecidableEq, Repr

structure Recording (O V : Type) where
  supply : List V
  events : Array (Event O V)
  log : Log

namespace Recording

variable {O V : Type}

def start (supply : List V) (log : Log) : Recording O V :=
  ⟨supply, #[], log⟩

def add (recording : Recording O V) (event : Event O V) : Recording O V :=
  { recording with events := recording.events.push event }

def next (recording : Recording O V) : Option (V × Recording O V) :=
  match recording.supply with
  | [] => none
  | value :: rest => some (value, { recording with supply := rest }.add (.pull value))

/-- Applies `unary` and `binary` as they are and records that it did. -/
def interpretation (unary : O → V → V) (binary : O → V → V → V) :
    Interpretation (Recording O V) O V Empty where
  next := next
  unary payload value recording := (.ok (unary payload value), recording.add (.unary payload))
  binary payload left right recording :=
    (.ok (binary payload left right), recording.add (.binary payload))
  note record recording := { recording with log := recording.log.push record }

end Recording

/-- Expressions as values: each application is bracketed, so the text shows how the program groups. -/
def bracketed : Interpretation (Recording String String) String String Empty :=
  Recording.interpretation (fun payload value => s!"{payload}({value})")
    (fun payload left right => s!"({left} {payload} {right})")

def Event.text : Event String String → String
  | pull value => "pull " ++ value
  | unary payload => "unary " ++ payload
  | binary payload => "binary " ++ payload

end SignalStrip
