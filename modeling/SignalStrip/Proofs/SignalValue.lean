import SignalStrip.Proofs.ExpressionValue
import SignalStrip.Proofs.Listening

/-! Values of operations. The payloads of a program only name its operators here. An evaluation over given signals
succeeds exactly where its program is an expression whose operators accept what stands below them. -/

namespace SignalStrip

variable {σ P Q O S V F : Type}

def Program.map (change : O → Q) (program : Program O) : Program Q :=
  ⟨program.tokens, program.payloads.map change⟩

def Step.map (change : O → Q) (step : Step O) : Step Q :=
  (step.1, step.2.map change)

private theorem pair_map (change : O → Q) (tokens : List ProgramToken) (payloads : List O) :
    Program.pair tokens (payloads.map change) = (Program.pair tokens payloads).map (Step.map change) := by
  induction tokens generalizing payloads with
  | nil => rfl
  | cons token tokens ih => cases token <;> simp [Program.pair, Step.map, ih, ← List.map_tail]

private theorem Program.steps_map (change : O → Q) (program : Program O) :
    (program.map change).steps = program.steps.map (Step.map change) :=
  pair_map change program.tokens program.payloads

namespace Interpretation

/-- Takes each payload for what it changes to. -/
def through (change : O → Q) (interpretation : Interpretation σ Q V F) : Interpretation σ O V F where
  next := interpretation.next
  unary payload := interpretation.unary (change payload)
  binary payload := interpretation.binary (change payload)
  note := interpretation.note

private theorem perform_through (change : O → Q) (interpretation : Interpretation σ Q V F) (position : Nat)
    (step : Step O) (stack : List V) (state : σ) :
    (interpretation.through change).perform position step stack state =
      interpretation.perform position (step.map change) stack state := by
  obtain ⟨token, payload⟩ := step
  cases token <;> cases payload <;> rcases stack with _ | ⟨_, _ | ⟨_, _⟩⟩ <;> rfl

private theorem run_through (change : O → Q) (interpretation : Interpretation σ Q V F) (position : Nat)
    (steps : List (Step O)) (stack : List V) (state : σ) :
    (interpretation.through change).run position steps stack state =
      interpretation.run position (steps.map (Step.map change)) stack state := by
  induction steps generalizing position stack state with
  | nil => rfl
  | cons step steps ih =>
    simp only [run, List.map_cons, perform_through, ih]
    rfl

end Interpretation

theorem Program.evaluate_map (change : O → Q) (interpretation : Interpretation σ Q V F) (program : Program O)
    (state : σ) :
    (program.map change).evaluate interpretation state =
      program.evaluate (interpretation.through change) state := by
  rw [evaluate_eq, evaluate_eq, Interpretation.run_through, steps_map]

namespace Listening

variable {studio : Studio σ P S} {below after : List S} {listening last : Listening σ P}

private theorem settle_unary {operator : SignalOperator S F} {signal : S} :
    Interpretation.settle below ((interpretation studio).unary operator signal listening) = (.ok after, last) ↔
      ∃ apply result, operator = .unary apply ∧ apply signal = .ok result ∧ after = result :: below ∧
        last = listening := by
  cases operator with
  | binary apply => simp [interpretation, Interpretation.settle]
  | unary apply =>
    cases outcome : apply signal <;>
      simp [interpretation, Interpretation.settle, outcome, Except.mapError, eq_comm]

private theorem settle_binary {operator : SignalOperator S F} {first second : S} :
    Interpretation.settle below ((interpretation studio).binary operator first second listening) =
        (.ok after, last) ↔
      ∃ apply result, operator = .binary apply ∧ apply first second = .ok result ∧ after = result :: below ∧
        last = listening := by
  cases operator with
  | unary apply => simp [interpretation, Interpretation.settle]
  | binary apply =>
    cases outcome : apply first second <;>
      simp [interpretation, Interpretation.settle, outcome, Except.mapError, eq_comm]

end Listening

/-- With these signals for its operands, from left to right, an expression gives this one. `operate` says what the
operators do. -/
inductive Yields (operate : O → SignalOperator S F) : Expression O → List S → S → Prop where
  | operand (signal : S) : Yields operate .operand [signal] signal
  | unary {tier : Tier} {payload : O} {inner : Expression O} {apply : S → Except F S} {signals : List S}
    {signal result : S} (operator : operate payload = .unary apply) (inside : Yields operate inner signals signal)
    (applied : apply signal = .ok result) : Yields operate (.unary tier payload inner) signals result
  | binary {tier : Tier} {payload : O} {left right : Expression O} {apply : S → S → Except F S}
    {before behind : List S} {first second result : S} (operator : operate payload = .binary apply)
    (onLeft : Yields operate left before first) (onRight : Yields operate right behind second)
    (applied : apply first second = .ok result) :
    Yields operate (.binary tier payload left right) (before ++ behind) result

namespace Yields

variable {operate : O → SignalOperator S F}

private theorem length_signals {tree : Expression O} {signals : List S} {result : S}
    (yields : Yields operate tree signals result) : signals.length = tree.operandCount := by
  induction yields with
  | operand signal => rfl
  | unary operator inside applied ih => exact ih
  | binary operator onLeft onRight applied ihLeft ihRight =>
    rw [List.length_append, ihLeft, ihRight, Expression.operandCount]

theorem run_postorder {tree : Expression O} {signals : List S} {result : S}
    (yields : Yields operate tree signals result) (position : Nat) (stack rest : List S) :
    ((Listening.interpretation .given).through operate).run position tree.postorder stack ⟨signals ++ rest, ()⟩ =
      (.ok (result :: stack), ⟨rest, ()⟩) := by
  induction yields generalizing position stack rest with
  | operand signal => rfl
  | unary operator inside applied ih =>
    rw [Expression.postorder, Interpretation.run_append, ih]
    simp only [Interpretation.run, Interpretation.perform, Interpretation.through,
      Listening.settle_unary.mpr ⟨_, _, operator, applied, rfl, rfl⟩]
    rfl
  | binary operator onLeft onRight applied ihLeft ihRight =>
    rw [Expression.postorder, List.append_assoc, List.append_assoc, Interpretation.run_append, ihLeft]
    simp only
    rw [Interpretation.run_append, ihRight]
    simp only [Interpretation.run, Interpretation.perform, Interpretation.through,
      Listening.settle_binary.mpr ⟨_, _, operator, applied, rfl, rfl⟩]
    rfl

theorem exists_of_run (tree : Expression O) {position : Nat} {stack after : List S}
    {listening last : Listening Unit S}
    (runs : ((Listening.interpretation .given).through operate).run position tree.postorder stack listening =
      (.ok after, last)) :
    ∃ signals result, listening.pending = signals ++ last.pending ∧ Yields operate tree signals result ∧
      after = result :: stack := by
  induction tree generalizing position stack after listening last with
  | operand =>
    obtain ⟨pending, _⟩ := listening
    cases pending with
    | nil => cases runs
    | cons signal pending =>
      cases runs
      exact ⟨[signal], signal, rfl, .operand signal, rfl⟩
  | unary tier payload inner ih =>
    rw [Expression.postorder, Interpretation.run_append] at runs
    split at runs
    next ran =>
      obtain ⟨signals, signal, taken, inside, rfl⟩ := ih ran
      simp only [Interpretation.run, Interpretation.perform, Interpretation.through] at runs
      split at runs
      next settled =>
        obtain ⟨apply, result, operator, applied, rfl, rfl⟩ := Listening.settle_unary.mp settled
        cases runs
        exact ⟨signals, result, taken, .unary operator inside applied, rfl⟩
      next => cases runs
    next => cases runs
  | binary tier payload left right ihLeft ihRight =>
    rw [Expression.postorder, List.append_assoc, Interpretation.run_append] at runs
    split at runs
    next ran =>
      obtain ⟨before, first, taken, onLeft, rfl⟩ := ihLeft ran
      rw [Interpretation.run_append] at runs
      split at runs
      next ran =>
        obtain ⟨behind, second, others, onRight, rfl⟩ := ihRight ran
        simp only [Interpretation.run, Interpretation.perform, Interpretation.through] at runs
        split at runs
        next settled =>
          obtain ⟨apply, result, operator, applied, rfl, rfl⟩ := Listening.settle_binary.mp settled
          cases runs
          refine ⟨before ++ behind, result, ?_, .binary operator onLeft onRight applied, rfl⟩
          rw [taken, others, List.append_assoc]
          rfl
        next => cases runs
      next => cases runs
    next => cases runs

end Yields

/-- An evaluation over signals that are given succeeds exactly with what an expression yields that has the program for
its postorder. -/
theorem evaluateOperations_eq_ok_iff {operate : O → SignalOperator S F} {program : Program O} {signals : List S}
    {result : S} :
    (evaluateOperations .given (program.map operate) signals ()).1 = .ok result ↔
      ∃ tree : Expression O, tree.postorder = program.steps ∧ Yields operate tree signals result := by
  have operands : (program.map operate).operandCount = program.operandCount := rfl
  unfold evaluateOperations
  rw [operands, Program.evaluate_map]
  constructor
  · intro done
    split at done
    next counted =>
      obtain ⟨tree, steps⟩ := Program.exists_postorder done
      obtain ⟨last, runs⟩ := Program.evaluate_eq_ok.mp done
      rw [← steps] at runs
      obtain ⟨taken, _, all, yields, same⟩ := Yields.exists_of_run tree runs
      cases same
      have first : taken <+: signals := ⟨last.pending, all.symm⟩
      have size : taken.length = signals.length := by
        rw [yields.length_signals, ← Expression.operandCount_of_postorder steps, counted]
      exact ⟨tree, steps, first.eq_of_length size ▸ yields⟩
    next => cases done
  · intro exists_tree
    obtain ⟨tree, steps, yields⟩ := exists_tree
    have counted : program.operandCount = signals.length :=
      (Expression.operandCount_of_postorder steps).trans yields.length_signals.symm
    have runs := yields.run_postorder 0 [] []
    rw [List.append_nil, steps] at runs
    rw [if_pos counted]
    exact Program.evaluate_eq_ok.mpr ⟨_, runs⟩

namespace Operation

/-- An evaluation that succeeds has read all producers. -/
theorem map_fst_heard_of_currentValue {operation : Operation P S F} {studio : Studio σ P S} {world : σ}
    {result : S} (done : (operation.currentValue studio world).1 = .ok result) :
    (operation.heard studio world).map Prod.fst = operation.producers := by
  rw [map_fst_heard, operandsPassed]
  unfold currentValue evaluateOperations at done
  split at done
  next counted =>
    obtain ⟨last, runs⟩ := Program.evaluate_eq_ok.mp done
    have size : operation.program.steps.length = operation.program.tokens.length := by
      rw [← operation.program.map_fst_steps, List.length_map]
    simp only [if_pos counted, Interpretation.completed_of_run runs, size, List.take_length]
    exact List.take_of_length_le (Nat.le_of_eq counted.symm)
  next => cases done

theorem given_of_currentValue {operation : Operation P S F} {studio : Studio σ P S} {world : σ} {result : S}
    (done : (operation.currentValue studio world).1 = .ok result) :
    (evaluateOperations .given operation.program ((operation.heard studio world).map Prod.snd) ()).1 =
      .ok result := by
  have size := congrArg List.length (map_fst_heard_of_currentValue done)
  rw [List.length_map] at size
  have all : (operation.heard studio world).length + ([] : List S).length = operation.producers.length := size
  have same := (operation.currentValue_eq_given studio world all).1
  rwa [List.append_nil, done, eq_comm] at same

end Operation

end SignalStrip
