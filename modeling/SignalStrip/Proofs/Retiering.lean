import SignalStrip.Proofs.Nesting
import SignalStrip.Proofs.Origins
import SignalStrip.Proofs.Supply

/-! Other tiers. Compilation compares tiers of one arity with each other and with nothing else, so a change that keeps
their order moves no token. What is performed does not depend on tiers at all; they only show in what is noted. -/

namespace SignalStrip

variable {σ O V F : Type}

namespace Token

def retier (binaries unaries : Tier → Tier) : Token → Token
  | binary tier => binary (binaries tier)
  | unary tier => unary (unaries tier)
  | token => token

/-- Among the tokens of a strip, tiers of the same arity keep their order. -/
structure Increasing (binaries unaries : Tier → Tier) (tokens : List Token) : Prop where
  binary {low high : Tier} (first : .binary low ∈ tokens) (second : .binary high ∈ tokens)
    (less : low.precedence < high.precedence) : (binaries low).precedence < (binaries high).precedence
  unary {low high : Tier} (first : .unary low ∈ tokens) (second : .unary high ∈ tokens)
    (less : low.precedence < high.precedence) : (unaries low).precedence < (unaries high).precedence

end Token

theorem Tier.precedence_injective : Function.Injective precedence := by
  intro low high same
  cases low <;> cases high <;> first | rfl | cases same

theorem Tier.precedence_lt_iff {change : Tier → Tier} {among : Tier → Prop}
    (increasing : ∀ {low high : Tier}, among low → among high → low.precedence < high.precedence →
      (change low).precedence < (change high).precedence)
    {low high : Tier} (one : among low) (other : among high) :
    (change low).precedence < (change high).precedence ↔ low.precedence < high.precedence := by
  refine ⟨fun less => ?_, increasing one other⟩
  rcases Nat.lt_trichotomy low.precedence high.precedence with below | same | above
  · exact below
  · rw [precedence_injective same] at less
    exact (Nat.lt_irrefl _ less).elim
  · exact (Nat.lt_asymm less (increasing other one above)).elim

namespace Token

variable {binaries unaries : Tier → Tier} {tokens : List Token}

private theorem priority_of_operator {token : Token} (operates : token.isOperator = true) :
    token.priority.stack = token.priority.input ∧ 0 < token.priority.input ∧ token.priority.input < 7 := by
  obtain ⟨level, above⟩ := priority_of_isKept (isKept_of_isOperator operates)
  have below := priority_of_isOperator operates
  rw [level] at below
  exact ⟨level, above, below⟩

/-- What is no operator stands below all operators or above all of them. -/
private theorem priority_of_plain {token : Token} (plain : token.isOperator = false) :
    (token.priority.stack ≤ 0 ∨ token.priority.stack = 7) ∧
      (token.priority.input ≤ 0 ∨ token.priority.input = 7) := by
  cases token with
  | endOfList | operand | leftParen | rightParen => decide
  | binary tier | unary tier => cases plain

@[simp] theorem isOperator_retier (binaries unaries : Tier → Tier) (token : Token) :
    (token.retier binaries unaries).isOperator = token.isOperator := by
  cases token <;> rfl

private theorem retier_of_plain {token : Token} (plain : token.isOperator = false) :
    token.retier binaries unaries = token := by
  cases token with
  | endOfList | operand | leftParen | rightParen => rfl
  | binary tier | unary tier => cases plain

private theorem compares_operators (increasing : Increasing binaries unaries tokens) {top incoming : Token}
    (waits : top ∈ tokens) (reads : incoming ∈ tokens) (operates : top.isOperator = true)
    (also : incoming.isOperator = true) :
    (top.retier binaries unaries).priority.stack < (incoming.retier binaries unaries).priority.input ↔
      top.priority.stack < incoming.priority.input := by
  cases top with
  | endOfList | operand | leftParen | rightParen => cases operates
  | binary low =>
    have below := low.precedence_le
    have renamed := (binaries low).precedence_le
    cases incoming with
    | endOfList | operand | leftParen | rightParen => cases also
    | binary high =>
      have same := Tier.precedence_lt_iff increasing.binary waits reads
      simp only [retier, priority]
      omega
    | unary high =>
      have above := high.precedence_pos
      have also := (unaries high).precedence_pos
      simp only [retier, priority]
      omega
  | unary high =>
    have above := high.precedence_pos
    have renamed := (unaries high).precedence_pos
    cases incoming with
    | endOfList | operand | leftParen | rightParen => cases also
    | binary low =>
      have below := low.precedence_le
      have also := (binaries low).precedence_le
      simp only [retier, priority]
      omega
    | unary low =>
      have same := Tier.precedence_lt_iff increasing.unary waits reads
      simp only [retier, priority]
      omega

theorem renames_retier (increasing : Increasing binaries unaries tokens) :
    Renames (retier binaries unaries) (· ∈ tokens) where
  compares {top incoming} waits reads := by
    have before := isOperator_retier binaries unaries top
    have after := isOperator_retier binaries unaries incoming
    cases operates : top.isOperator with
    | false =>
      rw [retier_of_plain operates]
      cases also : incoming.isOperator with
      | false => rw [retier_of_plain also]
      | true =>
        have plain := priority_of_plain operates
        have here := priority_of_operator also
        have there := priority_of_operator (after.trans also)
        omega
    | true =>
      cases also : incoming.isOperator with
      | false =>
        rw [retier_of_plain also]
        have plain := priority_of_plain also
        have here := priority_of_operator operates
        have there := priority_of_operator (before.trans operates)
        omega
      | true => exact compares_operators increasing waits reads operates also
  opens token := by cases token <;> simp [retier]
  closes token := by cases token <;> simp [retier]

end Token

section

variable (binaries unaries : Tier → Tier)

def ProgramToken.retier : ProgramToken → ProgramToken
  | operand => operand
  | unary tier => unary (unaries tier)
  | binary tier => binary (binaries tier)

def Step.retier (step : Step O) : Step O :=
  (step.1.retier binaries unaries, step.2)

def Item.retier (item : Item O) : Item O :=
  (item.1.retier binaries unaries, item.2)

def Program.retier (program : Program O) : Program O :=
  ⟨program.tokens.map (ProgramToken.retier binaries unaries), program.payloads⟩

def Record.retier : Record → Record
  | compiled read tokens => compiled read (tokens.map (ProgramToken.retier binaries unaries))
  | step position token depth => step position (token.retier binaries unaries) depth
  | record => record

private theorem Item.step?_retier (item : Item O) :
    (item.retier binaries unaries).step? = item.step?.map (Step.retier binaries unaries) := by
  obtain ⟨token, payload⟩ := item
  cases token <;> rfl

private theorem Item.steps_retier (items : List (Item O)) :
    steps (items.map (Item.retier binaries unaries)) = (steps items).map (Step.retier binaries unaries) := by
  rw [steps, List.filterMap_map, steps, List.map_filterMap]
  exact List.filterMap_congr fun item _ => item.step?_retier binaries unaries

private theorem Item.join_retier (tokens : List Token) (payloads : List O) :
    join (tokens.map (Token.retier binaries unaries)) payloads =
      (join tokens payloads).map (Item.retier binaries unaries) := by
  induction tokens generalizing payloads with
  | nil => rfl
  | cons token tokens ih =>
    rw [List.map_cons, join, join, Token.isOperator_retier]
    split
    · rw [ih, List.map_cons]
      rfl
    · rw [ih, List.map_cons]
      rfl

private theorem Program.ofSteps_retier (steps : List (Step O)) :
    ofSteps (steps.map (Step.retier binaries unaries)) = (ofSteps steps).retier binaries unaries := by
  rw [ofSteps, List.map_map, List.filterMap_map, retier, ofSteps, List.map_map]
  rfl

private theorem Program.steps_retier (program : Program O) :
    (program.retier binaries unaries).steps = program.steps.map (Step.retier binaries unaries) := by
  obtain ⟨tokens, payloads⟩ := program
  show pair (tokens.map _) payloads = (pair tokens payloads).map _
  induction tokens generalizing payloads with
  | nil => rfl
  | cons token tokens ih =>
    cases token with
    | operand => exact congrArg (_ :: ·) (ih payloads)
    | unary tier | binary tier => exact congrArg (_ :: ·) (ih payloads.tail)

end

theorem compile_retier {binaries unaries : Tier → Tier} {tokens : List Token} {payloads : List O}
    (listed : .endOfList ∉ tokens) (counted : tokens.countP Token.isOperator = payloads.length)
    (increasing : Token.Increasing binaries unaries tokens) :
    compile (tokens.map (Token.retier binaries unaries)) payloads =
      (compile tokens payloads).map (Program.retier binaries unaries) := by
  have relisted : .endOfList ∉ tokens.map (Token.retier binaries unaries) := by
    intro member
    obtain ⟨token, among, same⟩ := List.mem_map.mp member
    cases token <;> cases same
    exact listed among
  have recounted : (tokens.map (Token.retier binaries unaries)).countP Token.isOperator = payloads.length := by
    rw [List.countP_map, ← counted]
    exact congrArg (tokens.countP ·) (funext (Token.isOperator_retier binaries unaries))
  have reads : ∀ item ∈ Item.join tokens payloads, item.1 ∈ tokens := by
    intro item member
    rw [← Item.map_fst_join tokens payloads]
    exact List.mem_map_of_mem member
  have order : Waiting.order ((Item.join tokens payloads).map (Item.retier binaries unaries)) [] =
      (Waiting.order (Item.join tokens payloads) []).map (Item.retier binaries unaries) :=
    Waiting.order_map _ (Token.renames_retier increasing) (fun _ => rfl) reads (List.forall_mem_nil _)
  rw [compile_eq_emitted relisted recounted, compile_eq_emitted listed counted, Item.join_retier, order,
    Held.emitted, Item.steps_retier, Program.ofSteps_retier]
  rfl

namespace Interpretation

/-- Notes something else in the place of each record. -/
def noting (change : Record → Record) (interpretation : Interpretation σ O V F) : Interpretation σ O V F :=
  { interpretation with note := fun record => interpretation.note (change record) }

variable (binaries unaries : Tier → Tier) (interpretation : Interpretation σ O V F)

private theorem perform_retier (change : Record → Record) (position : Nat) (step : Step O) (stack : List V)
    (state : σ) :
    interpretation.perform position (step.retier binaries unaries) stack state =
      (interpretation.noting change).perform position step stack state := by
  obtain ⟨token, payload⟩ := step
  cases token <;> cases payload <;> rcases stack with _ | ⟨_, _ | ⟨_, _⟩⟩ <;> rfl

theorem run_retier (position : Nat) (steps : List (Step O)) (stack : List V) (state : σ) :
    interpretation.run position (steps.map (Step.retier binaries unaries)) stack state =
      (interpretation.noting (Record.retier binaries unaries)).run position steps stack state := by
  induction steps generalizing position stack state with
  | nil => rfl
  | cons step steps ih =>
    simp only [List.map_cons, run, perform_retier binaries unaries interpretation (Record.retier binaries unaries), ih]
    rfl

end Interpretation

theorem Program.evaluate_retier (binaries unaries : Tier → Tier) (program : Program O)
    (interpretation : Interpretation σ O V F) (state : σ) :
    (program.retier binaries unaries).evaluate interpretation state =
      program.evaluate (interpretation.noting (Record.retier binaries unaries)) state := by
  rw [evaluate_eq, evaluate_eq, steps_retier, Interpretation.run_retier]

private theorem Recording.corresponds_noting (change : Record → Record) (unary : O → V → V) (binary : O → V → V → V) :
    Interpretation.Corresponds (fun _ => True) Eq Eq
      (fun recording other : Recording O V => recording.supply = other.supply ∧ recording.events = other.events)
      ((interpretation unary binary).noting change) (interpretation unary binary) where
  next := by
    intro recording beside same
    obtain ⟨supply, events, log⟩ := recording
    obtain ⟨_, _, other⟩ := beside
    obtain ⟨rfl, rfl⟩ := same
    cases supply with
    | nil => exact .none
    | cons value rest => exact .some ⟨rfl, rfl, rfl⟩
  unary := by
    intro tier payload value _ recording beside _ same kept
    subst same
    exact .ok rfl ⟨kept.1, congrArg (fun events : Array (Event O V) => events.push (.unary payload)) kept.2⟩
  binary := by
    intro tier payload left right _ _ recording beside _ onLeft onRight kept
    subst onLeft onRight
    exact .ok rfl ⟨kept.1, congrArg (fun events : Array (Event O V) => events.push (.binary payload)) kept.2⟩
  note _ _ _ kept := kept

/-- As long as tiers of the same arity keep their order, other tiers change neither the order of the steps nor their
payloads, nor what an evaluation gives, pulls and applies. Only what is noted names the other tiers. -/
theorem exists_retiered {binaries unaries : Tier → Tier} {tokens : List Token} {payloads : List O}
    (listed : .endOfList ∉ tokens) (counted : tokens.countP Token.isOperator = payloads.length)
    (increasing : Token.Increasing binaries unaries tokens) :
    ∃ program, compile tokens payloads = .ok program ∧
      compile (tokens.map (Token.retier binaries unaries)) payloads = .ok (program.retier binaries unaries) ∧
      (program.retier binaries unaries).steps = program.steps.map (Step.retier binaries unaries) ∧
      (∀ {σ V F : Type} (interpretation : Interpretation σ O V F) (state : σ),
        (program.retier binaries unaries).evaluate interpretation state =
          program.evaluate (interpretation.noting (Record.retier binaries unaries)) state) ∧
      ∀ {V : Type} (unary : O → V → V) (binary : O → V → V → V) (supply : List V) (log : Log),
        let retiered := (program.retier binaries unaries).evaluate (Recording.interpretation unary binary)
          (.start supply log)
        let plain := program.evaluate (Recording.interpretation unary binary) (.start supply log)
        retiered.1 = plain.1 ∧ retiered.2.supply = plain.2.supply ∧ retiered.2.events = plain.2.events := by
  obtain ⟨program, compiles, _⟩ := exists_program listed counted
  have again := compile_retier listed counted increasing
  rw [compiles] at again
  refine ⟨program, compiles, again, program.steps_retier binaries unaries,
    program.evaluate_retier binaries unaries, fun unary binary supply log => ?_⟩
  rw [program.evaluate_retier]
  have answers := Program.evaluate_answers
    (Recording.corresponds_noting (Record.retier binaries unaries) unary binary) program (fun _ _ => trivial)
    (.start supply log) (.start supply log) ⟨rfl, rfl⟩
  exact ⟨answers.fst_eq, answers.kept⟩

/-- Operators that lack operands, between parens that do not pair up. -/
theorem exists_retiered_of_stray_parens :
    let binaries : Tier → Tier := fun tier => if tier = .first then .second else .third
    let unaries : Tier → Tier := fun _ => .first
    let tokens : List Token :=
      [.rightParen, .operand, .binary .first, .leftParen, .unary .third, .operand, .binary .second]
    let others : List Token :=
      [.rightParen, .operand, .binary .second, .leftParen, .unary .first, .operand, .binary .third]
    (.endOfList ∉ tokens ∧ tokens.countP Token.isOperator = ["+", "!", "*"].length ∧
      Token.Increasing binaries unaries tokens) ∧
    tokens.map (Token.retier binaries unaries) = others ∧
    ∃ program, compile tokens ["+", "!", "*"] = .ok program ∧
      compile others ["+", "!", "*"] = .ok (program.retier binaries unaries) := by
  intro binaries unaries tokens others
  have listed : .endOfList ∉ tokens := by decide
  have increasing : Token.Increasing binaries unaries tokens := by
    constructor
    · intro low high _ above less
      cases low <;> cases high <;> first | exact absurd less (by decide) | exact absurd above (by decide) | decide
    · intro low high below above less
      have first : low = .third := by simpa [tokens] using below
      have second : high = .third := by simpa [tokens] using above
      rw [first, second] at less
      exact absurd less (by decide)
  have counted : tokens.countP Token.isOperator = ["+", "!", "*"].length := rfl
  obtain ⟨program, compiles, again, _⟩ := exists_retiered listed counted increasing
  exact ⟨⟨listed, counted, increasing⟩, rfl, program, compiles, again⟩

end SignalStrip
