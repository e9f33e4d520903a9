import SignalStrip.Log

/-! Compilation of a strip into a program. Tokens wait on a stack until something that binds no more
tightly is read; their payloads wait on a second stack beside them. A paren never reaches the
program, and one without a partner is dropped. -/

namespace SignalStrip

/-- What can be wrong with the parts of a strip. The first three are noticed in reading order while
compiling, the others when a strip is put together. -/
inductive PartsFault where
  | endOfListAt (position : Nat)
  | missingPayload (position : Nat) (token : Token)
  | unusedPayloads (unused read : Nat)
  | endOfList
  | payloadCount (operators payloads : Nat)
  deriving DecidableEq, Repr

def PartsFault.message : PartsFault → String
  | endOfListAt position =>
    s!"end-of-list token at infix position {position} is reserved for the compiler"
  | missingPayload position token => s!"no operator payload for token {position} ({token.text})"
  | unusedPayloads unused read => s!"{unused} unused operator payloads after {read} infix tokens"
  | endOfList => "EndOfList is reserved for the compiler"
  | payloadCount operators payloads =>
    s!"infix sequence has {operators} operator tokens but {payloads} operator payloads"

/-- A token of a strip with its payload, which only an operator has. -/
abbrev Item (O : Type) := Token × Option O

variable {O : Type}

/-- Gives each operator token the next payload, after `read` tokens have been taken care of. Stops
at the first token that may not be there or finds no payload, and at the end if payloads are left. -/
def attach : Nat → List Token → List O → Except PartsFault (List (Item O))
  | read, [], payloads =>
    if payloads.isEmpty then .ok [] else .error (.unusedPayloads payloads.length read)
  | read, token :: tokens, payloads =>
    if token = .endOfList then .error (.endOfListAt (read + 1))
    else
      match token.isOperator, payloads with
      | false, payloads => (attach (read + 1) tokens payloads).map ((token, none) :: ·)
      | true, payload :: payloads =>
        (attach (read + 1) tokens payloads).map ((token, some payload) :: ·)
      | true, [] => .error (.missingPayload (read + 1) token)

theorem map_eq_ok {ε α β : Type} {f : α → β} {result : Except ε α} {value : β} :
    result.map f = .ok value ↔ ∃ first, result = .ok first ∧ f first = value := by
  cases result <;> simp [Except.map]

theorem parts_of_attach {read : Nat} {tokens : List Token} {payloads : List O} {items : List (Item O)}
    (attached : attach read tokens payloads = .ok items) :
    items.map Prod.fst = tokens ∧ items.filterMap Prod.snd = payloads := by
  induction tokens generalizing read payloads items with
  | nil =>
    cases payloads with
    | nil => cases attached; exact ⟨rfl, rfl⟩
    | cons payload payloads => cases attached
  | cons token tokens ih =>
    unfold attach at attached
    split at attached
    · cases attached
    split at attached
    · obtain ⟨rest, inner, rfl⟩ := map_eq_ok.mp attached
      simp [ih inner]
    · obtain ⟨rest, inner, rfl⟩ := map_eq_ok.mp attached
      simp [ih inner]
    · cases attached

structure Held (O : Type) where
  tokens : List Token
  payloads : List O
  deriving DecidableEq, Repr

namespace Held

def start : Held O :=
  ⟨[.endOfList], []⟩

/-- What a token adds to the program as it leaves the stack, and the payloads that still wait. An
operator takes the top payload along. -/
def release (token : Token) (payloads : List O) : Program O × List O :=
  match ProgramToken.ofToken? token with
  | none => (.empty, payloads)
  | some .operand => (⟨[.operand], []⟩, payloads)
  | some emitted => (⟨[emitted], payloads.take 1⟩, payloads.drop 1)

/-- Releases every waiting token that binds at least as tightly as `incoming`. A right paren goes no
further than the left paren it closes. -/
def evict (incoming : Token) : List Token → List O → Program O × Held O
  | [], payloads => (.empty, ⟨[], payloads⟩)
  | top :: below, payloads =>
    if top.priority.stack < incoming.priority.input then (.empty, ⟨top :: below, payloads⟩)
    else
      let (released, waiting) := release top payloads
      if incoming = .rightParen ∧ top = .leftParen then (released, ⟨below, waiting⟩)
      else
        let (more, held) := evict incoming below waiting
        (released ++ more, held)

def read (held : Held O) (item : Item O) : Program O × Held O :=
  let (released, rest) := evict item.1 held.tokens held.payloads
  (released, ⟨item.1 :: rest.tokens, item.2.toList ++ rest.payloads⟩)

def scan : List (Item O) → Held O → Program O × Held O
  | [], held => (.empty, held)
  | item :: items, held =>
    let (released, next) := held.read item
    let (more, last) := scan items next
    (released ++ more, last)

def drain : List Token → List O → Program O × Held O
  | [], payloads => (.empty, ⟨[], payloads⟩)
  | top :: below, payloads =>
    let (released, waiting) := release top payloads
    if top = .endOfList then (released, ⟨below, waiting⟩)
    else
      let (more, held) := drain below waiting
      (released ++ more, held)

end Held

def Program.ofItems (items : List (Item O)) : Program O :=
  let (released, held) := Held.scan items .start
  released ++ (Held.drain held.tokens held.payloads).1

def compile (tokens : List Token) (payloads : List O) : Except PartsFault (Program O) :=
  (attach 0 tokens payloads).map Program.ofItems

def compileLogged (tokens : List Token) (payloads : List O) (log : Log) :
    Except PartsFault (Program O) × Log :=
  match compile tokens payloads with
  | .ok program => (.ok program, log.push (.compiled tokens.length program.tokens))
  | .error fault => (.error fault, log)

end SignalStrip
