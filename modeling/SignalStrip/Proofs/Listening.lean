import SignalStrip.Signal.Operation
import SignalStrip.Proofs.Runs

/-! What operations listen to. An evaluation reads its producers in order as far as it gets, and beyond what
they give nothing decides its result. -/

namespace SignalStrip

variable {σ τ P Q S F : Type}

namespace Studio

def recorded (studio : Studio σ P S) : Studio (σ × List (P × S)) P S where
  read producer world :=
    let (signal, after) := studio.read producer world.1
    (signal, after, world.2 ++ [(producer, signal)])
  note record world := (studio.note record world.1, world.2)

/-- A studio in which signals stand for themselves and nothing can change. -/
def given : Studio Unit S S where
  read signal _ := (signal, ())
  note _ _ := ()

end Studio

namespace Listening

private theorem exists_perform_operator (first : Studio σ P S) (second : Studio τ Q S) (position : Nat)
    {step : Step (SignalOperator S F)} (operator : step.1 ≠ .operand) (stack : List S) :
    ∃ outcome,
      (∀ listening, (interpretation first).perform position step stack listening =
        (outcome, listening)) ∧
      ∀ listening, (interpretation second).perform position step stack listening =
        (outcome, listening) := by
  obtain ⟨token, payload⟩ := step
  cases token with
  | operand => exact (operator rfl).elim
  | unary tier =>
    cases payload with
    | none => exact ⟨_, fun _ => rfl, fun _ => rfl⟩
    | some payload =>
      cases stack with
      | nil => exact ⟨_, fun _ => rfl, fun _ => rfl⟩
      | cons signal stack =>
        cases payload with
        | binary apply => exact ⟨_, fun _ => rfl, fun _ => rfl⟩
        | unary apply =>
          simp only [Interpretation.perform, interpretation]
          cases apply signal <;> exact ⟨_, fun _ => rfl, fun _ => rfl⟩
  | binary tier =>
    cases payload with
    | none => exact ⟨_, fun _ => rfl, fun _ => rfl⟩
    | some payload =>
      rcases stack with _ | ⟨right, _ | ⟨left, stack⟩⟩
      · exact ⟨_, fun _ => rfl, fun _ => rfl⟩
      · exact ⟨_, fun _ => rfl, fun _ => rfl⟩
      · cases payload with
        | unary apply => exact ⟨_, fun _ => rfl, fun _ => rfl⟩
        | binary apply =>
          simp only [Interpretation.perform, interpretation]
          cases apply left right <;> exact ⟨_, fun _ => rfl, fun _ => rfl⟩

/-- What a run writes down are the producers of the operands it completes, and signals that decide how far the run
gets and how it ends, whatever comes after them. -/
theorem exists_run_recorded (studio : Studio σ P S) (position : Nat)
    (steps : List (Step (SignalOperator S F))) (stack : List S) (pending : List P) (world : σ)
    (heard : List (P × S)) :
    let start : Listening (σ × List (P × S)) P := ⟨pending, world, heard⟩
    let ran := (interpretation studio.recorded).run position steps stack start
    let done := (interpretation studio.recorded).completed position steps stack start
    ∃ more, ran.2.world.2 = heard ++ more ∧
      more.map Prod.fst = pending.take (((steps.take done).map Prod.fst).count .operand) ∧
      ∀ unread : List S, more.length + unread.length = pending.length →
        ((interpretation .given).run position steps stack ⟨more.map Prod.snd ++ unread, ()⟩).1 = ran.1 ∧
        (interpretation .given).completed position steps stack ⟨more.map Prod.snd ++ unread, ()⟩ = done := by
  induction steps generalizing position stack pending world heard with
  | nil => exact ⟨[], (List.append_nil heard).symm, rfl, fun _ _ => ⟨rfl, rfl⟩⟩
  | cons step steps ih =>
    by_cases operand : step.1 = .operand
    · obtain ⟨_, payload⟩ := step
      subst operand
      cases pending with
      | nil =>
        refine ⟨[], (List.append_nil heard).symm, rfl, fun unread size => ?_⟩
        rw [List.length_eq_zero_iff.mp ((Nat.zero_add _).symm.trans size)]
        exact ⟨rfl, rfl⟩
      | cons producer pending =>
        let reading := studio.read producer (studio.note (.step position .operand stack.length) world)
        obtain ⟨more, listed, names, decides⟩ := ih (position + 1) (reading.1 :: stack) pending reading.2
          (heard ++ [(producer, reading.1)])
        refine ⟨(producer, reading.1) :: more, ?_, ?_, fun unread size => ?_⟩
        · exact listed.trans (List.append_assoc ..)
        · show producer :: more.map Prod.fst =
            (producer :: pending).take ((.operand :: (steps.take _).map Prod.fst).count .operand)
          rw [List.count_cons_self, List.take_succ_cons, names]
          rfl
        · obtain ⟨same, level⟩ := decides unread (by simpa [Nat.add_right_comm] using size)
          exact ⟨same, congrArg (· + 1) level⟩
    · obtain ⟨outcome, here, there⟩ :=
        exists_perform_operator (F := F) studio.recorded .given position operand stack
      simp only [Interpretation.run, Interpretation.completed, here, there]
      cases outcome with
      | ok below =>
        obtain ⟨more, listed, names, decides⟩ := ih (position + 1) below pending
          (studio.note (.step position step.1 stack.length) world) heard
        refine ⟨more, listed, ?_, fun unread size => ?_⟩
        · rw [List.take_succ_cons, List.map_cons, List.count_cons_of_ne operand]
          exact names
        · obtain ⟨same, level⟩ := decides unread size
          exact ⟨same, congrArg (· + 1) level⟩
      | error halt => exact ⟨[], (List.append_nil heard).symm, rfl, fun _ _ => ⟨rfl, rfl⟩⟩

private theorem corresponds_recorded (studio : Studio σ P S) :
    Interpretation.Corresponds (fun _ => True) Eq Eq
      (fun (recorded : Listening (σ × List (P × S)) P) (plain : Listening σ P) =>
        recorded.pending = plain.pending ∧ recorded.world.1 = plain.world)
      (interpretation (F := F) studio.recorded) (interpretation studio) where
  next := by
    rintro ⟨pending, world, heard⟩ ⟨_, _⟩ ⟨rfl, rfl⟩
    cases pending with
    | nil => exact .none
    | cons producer pending => exact .some ⟨rfl, rfl, rfl⟩
  unary := by
    rintro tier operator signal _ recorded plain _ rfl kept
    cases operator with
    | binary apply => exact .error rfl kept
    | unary apply =>
      simp only [interpretation]
      cases apply signal with
      | ok value => exact .ok rfl kept
      | error cause => exact .error rfl kept
  binary := by
    rintro tier operator left right _ _ recorded plain _ rfl rfl kept
    cases operator with
    | unary apply => exact .error rfl kept
    | binary apply =>
      simp only [interpretation]
      cases apply left right with
      | ok value => exact .ok rfl kept
      | error cause => exact .error rfl kept
  note record := by
    rintro ⟨pending, world, heard⟩ ⟨_, _⟩ ⟨rfl, rfl⟩
    exact ⟨rfl, rfl⟩

private theorem completed_recorded (studio : Studio σ P S) (position : Nat)
    (steps : List (Step (SignalOperator S F))) (pending : List P) (world : σ) (heard : List (P × S)) :
    (interpretation studio.recorded).completed position steps [] ⟨pending, world, heard⟩ =
      (interpretation studio).completed position steps [] ⟨pending, world⟩ :=
  (corresponds_recorded studio).completed_eq position (fun _ _ => trivial) .nil ⟨rfl, rfl⟩

private theorem keeps {studio : Studio σ P S} {holds : σ → Prop}
    (read : ∀ producer {world}, holds world → holds (studio.read producer world).2)
    (note : ∀ record {world}, holds world → holds (studio.note record world)) :
    (interpretation (F := F) studio).Keeps fun listening => holds listening.world where
  next {listening _ _} held taken := by
    obtain ⟨pending, world⟩ := listening
    cases pending with
    | nil => cases taken
    | cons producer pending =>
      cases taken
      exact read producer held
  unary operator _ _ held := by cases operator <;> exact held
  binary operator _ _ _ held := by cases operator <;> exact held
  note position token depth _ held := note (.step position token depth) held

end Listening

theorem evaluateOperations_keeps (studio : Studio σ P S) (holds : σ → Prop)
    (read : ∀ producer {world}, holds world → holds (studio.read producer world).2)
    (note : ∀ record {world}, holds world → holds (studio.note record world))
    (program : Program (SignalOperator S F)) (producers : List P) (world : σ) (held : holds world) :
    holds (evaluateOperations studio program producers world).2 := by
  unfold evaluateOperations
  split
  · exact Program.evaluate_keeps (Listening.keeps read note) program held
  · exact held

namespace Operation

def heard (operation : Operation P S F) (studio : Studio σ P S) (world : σ) : List (P × S) :=
  (operation.currentValue studio.recorded (world, [])).2.2

/-- How many operands an evaluation passes before something stops it. One whose producers do not fit its
program does not begin. -/
def operandsPassed (operation : Operation P S F) (studio : Studio σ P S) (world : σ) : Nat :=
  if operation.program.operandCount = operation.producers.length then
    let done := (Listening.interpretation studio).completed 0 operation.program.steps []
      ⟨operation.producers, world⟩
    (operation.program.tokens.take done).count .operand
  else 0

theorem currentValue_recorded (operation : Operation P S F) (studio : Studio σ P S) (world : σ)
    (heard : List (P × S)) :
    (operation.currentValue studio.recorded (world, heard)).1 = (operation.currentValue studio world).1 ∧
      (operation.currentValue studio.recorded (world, heard)).2.1 =
        (operation.currentValue studio world).2 := by
  have answers := Program.evaluate_answers (Listening.corresponds_recorded (F := F) studio)
    operation.program (fun _ _ => trivial) ⟨operation.producers, world, heard⟩
    ⟨operation.producers, world⟩ ⟨rfl, rfl⟩
  unfold currentValue evaluateOperations
  split
  · exact ⟨answers.fst_eq, answers.kept.2⟩
  · exact ⟨rfl, rfl⟩

theorem heard_eq (operation : Operation P S F) (studio : Studio σ P S) (world : σ)
    (counted : operation.program.operandCount = operation.producers.length) :
    operation.heard studio world =
      ((Listening.interpretation studio.recorded).run 0 operation.program.steps []
        ⟨operation.producers, world, []⟩).2.world.2 := by
  simp only [heard, currentValue, evaluateOperations, if_pos counted, Program.evaluate_eq]

theorem map_fst_heard (operation : Operation P S F) (studio : Studio σ P S) (world : σ) :
    (operation.heard studio world).map Prod.fst =
      operation.producers.take (operation.operandsPassed studio world) := by
  by_cases counted : operation.program.operandCount = operation.producers.length
  · obtain ⟨more, listed, names, _⟩ := Listening.exists_run_recorded studio 0 operation.program.steps []
      operation.producers world []
    rw [operation.heard_eq studio world counted, listed, List.nil_append, names,
      Listening.completed_recorded, List.map_take, Program.map_fst_steps, operandsPassed, if_pos counted]
  · simp only [heard, currentValue, evaluateOperations, operandsPassed, if_neg counted, List.map_nil,
      List.take_zero]

theorem length_heard (operation : Operation P S F) (studio : Studio σ P S) (world : σ) :
    (operation.heard studio world).length = operation.operandsPassed studio world := by
  rw [← List.length_map Prod.fst, map_fst_heard, List.length_take, Nat.min_eq_left]
  unfold operandsPassed
  split
  next counted =>
    rw [← counted]
    exact (List.take_sublist _ _).count_le _
  next => exact Nat.zero_le _

/-- The signals that were heard are all that a result depends on, and how many there are of them. -/
theorem currentValue_eq_given (operation : Operation P S F) (studio : Studio σ P S) (world : σ)
    {unread : List S}
    (size : (operation.heard studio world).length + unread.length = operation.producers.length) :
    let given : Operation S S F := ⟨operation.program, (operation.heard studio world).map Prod.snd ++ unread⟩
    (operation.currentValue studio world).1 = (given.currentValue .given ()).1 ∧
      operation.operandsPassed studio world = given.operandsPassed .given () := by
  intro given
  have fits : given.producers.length = operation.producers.length := by
    rw [List.length_append, List.length_map, size]
  rw [← (operation.currentValue_recorded studio world []).1]
  unfold currentValue evaluateOperations operandsPassed
  rw [fits]
  split
  next counted =>
    obtain ⟨more, listed, _, decides⟩ := Listening.exists_run_recorded studio 0 operation.program.steps []
      operation.producers world []
    have heard := (operation.heard_eq studio world counted).trans listed
    rw [List.nil_append] at heard
    rw [heard] at size
    obtain ⟨same, level⟩ := decides unread size
    constructor
    · simp only [given, heard, Program.evaluate_eq, same]
    · simp only [given, heard, level, Listening.completed_recorded]
  next => exact ⟨rfl, rfl⟩

end Operation

namespace OperationBuilder

theorem producers_foldl (keys : List (OperationKey P S F)) (builder : OperationBuilder P S F) :
    (keys.foldl press builder).producers = builder.producers ++ keys.filterMap OperationKey.producer? := by
  induction keys generalizing builder with
  | nil => exact (List.append_nil _).symm
  | cons key keys ih =>
    rw [List.foldl_cons, ih, press, List.append_assoc]
    cases key <;> rfl

theorem producers_of_build {keys : List (OperationKey P S F)} {log : Log} {operation : Operation P S F}
    (built : ((ofKeys keys).build log).1 = .ok operation) :
    operation.producers = keys.filterMap OperationKey.producer? := by
  unfold build at built
  split at built
  next program last compiled =>
    unfold Operation.ofProgram at built
    split at built
    · split at built
      · cases built
      · cases built
        exact producers_foldl keys empty
    · cases built
  next => cases built

end OperationBuilder

end SignalStrip
