import SignalStrip.Proofs.Assembly
import SignalStrip.Proofs.Depth

/-! Arities are looked at twice: all of them before an operation is put together, and each of them when its
operator is applied. An evaluation that nobody checked beforehand comes to the same mismatch, unless it runs short of
values on the way. -/

namespace SignalStrip

variable {σ P O S F : Type}

theorem arityMismatch?_append {before after : List (Step (SignalOperator S F))} {step : Step (SignalOperator S F)}
    (fits : ∀ earlier ∈ before, Step.Fits earlier) (wrong : ¬ step.Fits) (position : Nat) :
    arityMismatch? position (before ++ step :: after) = some (position + before.length, step.1) := by
  induction before generalizing position with
  | nil =>
    obtain ⟨token, payload⟩ := step
    cases payload with
    | none => exact (wrong nofun).elim
    | some operator =>
      have different : operator.isUnary ≠ token.isUnary := fun same => wrong fun _ here => by
        cases here
        exact same
      rw [List.nil_append, arityMismatch?, if_neg different]
      rfl
  | cons other before ih =>
    obtain ⟨here, others⟩ := List.forall_mem_cons.mp fits
    have rest := ih others (position + 1)
    rw [Nat.add_right_comm, Nat.add_assoc] at rest
    obtain ⟨token, payload⟩ := other
    cases payload with
    | none => exact rest
    | some operator =>
      rw [List.cons_append, arityMismatch?, if_pos (here operator rfl)]
      exact rest

private theorem Program.mem_payloads {program : Program O} {step : Step O} (member : step ∈ program.steps) {payload : O}
    (carries : payload ∈ step.2) : payload ∈ program.payloads := by
  obtain ⟨tokens, payloads⟩ := program
  simp only [steps] at member ⊢
  induction tokens generalizing payloads with
  | nil => cases member
  | cons token tokens ih =>
    cases token with
    | operand =>
      rcases List.mem_cons.mp member with rfl | later
      · cases carries
      · exact ih payloads later
    | unary tier | binary tier =>
      rcases List.mem_cons.mp member with rfl | later
      · exact List.mem_of_head? carries
      · exact List.mem_of_mem_tail (ih payloads.tail later)

namespace Listening

private theorem only_shape (studio : Studio σ P S) {steps : List (Step (SignalOperator S F))}
    (paired : ∀ step ∈ steps, step.Paired) (fits : ∀ step ∈ steps, step.Fits)
    (accepting : ∀ step ∈ steps, ∀ operator ∈ step.2, ∀ cause, ¬ operator.Refuses cause) {producers : List P}
    (enough : (steps.map Prod.fst).count .operand ≤ producers.length) (world : σ) :
    ∀ halt, ((interpretation studio).run 0 steps [] ⟨producers, world⟩).1 = .error halt →
      ∃ error, halt = .shape error := by
  intro halt stopped
  have foreseen := (provides studio fun operator => ∀ cause, ¬ operator.Refuses cause).run 0
    (fun step member => ⟨fits step member, accepting step member⟩) paired [] enough halt stopped
  apply Halt.exists_shape_of_foreseen _ foreseen
  rintro fault ⟨operator, accepts, cause, refuses, _⟩
  exact accepts cause refuses

private theorem perform_of_mismatch (studio : Studio σ P S) (position : Nat) {step : Step (SignalOperator S F)}
    (paired : step.Paired) (wrong : ¬ step.Fits) (stack : List S) (listening : Listening σ P)
    (found : ¬ step.1.Lacks stack.length) :
    ((interpretation studio).perform position step stack listening).1 =
      .error (.fault (if step.1.isUnary then .binaryOnUnary else .unaryOnBinary)) := by
  obtain ⟨token, payload⟩ := step
  cases token with
  | operand =>
    cases paired
    exact (wrong nofun).elim
  | unary tier =>
    obtain ⟨operator, rfl⟩ := Option.isSome_iff_exists.mp paired
    cases operator with
    | unary apply => exact (wrong fun _ here => by cases here; rfl).elim
    | binary apply =>
      cases stack with
      | nil => exact (found Int.zero_lt_one).elim
      | cons signal stack => rfl
  | binary tier =>
    obtain ⟨operator, rfl⟩ := Option.isSome_iff_exists.mp paired
    cases operator with
    | binary apply => exact (wrong fun _ here => by cases here; rfl).elim
    | unary apply =>
      rcases stack with _ | ⟨second, _ | ⟨first, stack⟩⟩
      · exact (found (by simp [ProgramToken.Lacks])).elim
      · exact (found (by simp [ProgramToken.Lacks])).elim
      · rfl

end Listening

section Mismatch

variable {program : Program (SignalOperator S F)} {producers : List P}

theorem evaluateOperations_fst (counted : program.operandCount = producers.length) (studio : Studio σ P S)
    (world : σ) :
    (evaluateOperations studio program producers world).1 =
      (program.evaluate (Listening.interpretation studio) ⟨producers, world⟩).1 := by
  rw [evaluateOperations, if_pos counted]

/-- The first operator that does not fit its token ends an evaluation, if the evaluation gets that far. -/
private theorem evaluateOperations_of_mismatch (paired : ∀ step ∈ program.steps, step.Paired)
    (accepting : ∀ operator ∈ program.payloads, ∀ cause, ¬ operator.Refuses cause)
    (counted : program.operandCount = producers.length) {before after : List (Step (SignalOperator S F))}
    {step : Step (SignalOperator S F)} (parted : program.steps = before ++ step :: after)
    (fits : ∀ earlier ∈ before, Step.Fits earlier) (wrong : ¬ step.Fits) (studio : Studio σ P S) (world : σ) :
    let result := (evaluateOperations studio program producers world).1
    (∃ position ≤ before.length, ProgramToken.FirstUnderflow program.tokens position ∧
      result = .error (.shape (.underflow position))) ∨
    (∀ position ≤ before.length, ¬ ProgramToken.Underflows program.tokens position) ∧
      result = .error (.fault (if step.1.isUnary then .binaryOnUnary else .unaryOnBinary)) ∧
      (Listening.interpretation studio).completed 0 program.steps [] ⟨producers, world⟩ = before.length := by
  have member : ∀ earlier ∈ before, earlier ∈ program.steps := fun earlier here => by
    rw [parted]
    exact List.mem_append_left _ here
  have pairs : step.Paired := paired step (by simp [parted])
  rw [evaluateOperations_fst counted]
  apply Program.evaluate_of_refused parted pairs
  · apply Listening.only_shape studio (fun earlier among => paired earlier (member earlier among)) fits
    · exact fun earlier among operator carried =>
        accepting operator (Program.mem_payloads (member earlier among) carried)
    · exact counted ▸ Program.count_operand_of_parted parted
  · exact fun stack reached => Listening.perform_of_mismatch studio before.length pairs wrong stack reached

private theorem only_shape_of_evaluateOperations (paired : ∀ step ∈ program.steps, step.Paired)
    (accepting : ∀ operator ∈ program.payloads, ∀ cause, ¬ operator.Refuses cause)
    (counted : program.operandCount = producers.length) (fits : ∀ step ∈ program.steps, step.Fits)
    (studio : Studio σ P S) (world : σ) :
    ∀ halt, (evaluateOperations studio program producers world).1 = .error halt → ∃ error, halt = .shape error := by
  rw [evaluateOperations_fst counted]
  apply Program.only_shape_of_run
  apply Listening.only_shape studio paired fits
  · exact fun step member operator carried => accepting operator (Program.mem_payloads member carried)
  · rw [program.map_fst_steps]
    exact Nat.le_of_eq counted

private theorem fits_of_evaluateOperations (paired : ∀ step ∈ program.steps, step.Paired)
    (accepting : ∀ operator ∈ program.payloads, ∀ cause, ¬ operator.Refuses cause) {studio : Studio σ P S} {world : σ}
    (done : (∃ signal, (evaluateOperations studio program producers world).1 = .ok signal) ∨
      ∃ remaining, (evaluateOperations studio program producers world).1 =
        .error (.shape (.tooManyOperands remaining))) :
    program.operandCount = producers.length ∧ ∀ step ∈ program.steps, step.Fits := by
  by_cases counted : program.operandCount = producers.length
  · refine ⟨counted, ?_⟩
    obtain fits | ⟨before, step, after, parted, fits, wrong⟩ := forall_or_exists_first Step.Fits program.steps
    · exact fits
    · obtain ⟨place, _, _, stopped⟩ | ⟨_, stopped, _⟩ :=
        evaluateOperations_of_mismatch paired accepting counted parted fits wrong studio world
      all_goals
        rw [stopped] at done
        obtain ⟨_, same⟩ | ⟨_, same⟩ := done <;> cases same
  · rw [evaluateOperations, if_neg counted] at done
    obtain ⟨_, same⟩ | ⟨_, same⟩ := done <;> cases same

end Mismatch

namespace Operation

variable {program : Program (SignalOperator S F)} {producers : List P}

theorem ofProgram_of_mismatch (counted : program.operandCount = producers.length)
    {before after : List (Step (SignalOperator S F))} {step : Step (SignalOperator S F)}
    (parted : program.steps = before ++ step :: after) (fits : ∀ earlier ∈ before, Step.Fits earlier)
    (wrong : ¬ step.Fits) : ofProgram program producers = .error (.arity before.length step.1) := by
  rw [ofProgram, if_pos counted, parted, arityMismatch?_append fits wrong, Nat.zero_add]

theorem ofProgram_of_fits (counted : program.operandCount = producers.length)
    (fits : ∀ step ∈ program.steps, step.Fits) : ofProgram program producers = .ok ⟨program, producers⟩ := by
  rw [ofProgram, if_pos counted, arityMismatch?_eq_none fits]

theorem exists_ofProgram_iff :
    (∃ operation, ofProgram program producers = .ok operation) ↔
      program.operandCount = producers.length ∧ ∀ step ∈ program.steps, step.Fits := by
  constructor
  · rintro ⟨operation, accepted⟩
    by_cases counted : program.operandCount = producers.length
    · refine ⟨counted, ?_⟩
      obtain fits | ⟨before, step, after, parted, fits, wrong⟩ := forall_or_exists_first Step.Fits program.steps
      · exact fits
      · rw [ofProgram_of_mismatch counted parted fits wrong] at accepted
        cases accepted
    · rw [ofProgram, if_neg counted] at accepted
      cases accepted
  · rintro ⟨counted, fits⟩
    exact ⟨_, ofProgram_of_fits counted fits⟩

private theorem map_fst_heard_of_completed (counted : program.operandCount = producers.length) {studio : Studio σ P S}
    {world : σ} {position : Nat}
    (completed : (Listening.interpretation studio).completed 0 program.steps [] ⟨producers, world⟩ = position) :
    ((Operation.mk program producers).heard studio world).map Prod.fst =
      producers.take ((program.tokens.take position).count .operand) := by
  rw [map_fst_heard, operandsPassed, if_pos counted, completed]

/-- An operation can be put together exactly if all counts and arities are right, and then nothing but the shape of
its program stops it. Otherwise the check names the first mismatch, and an evaluation without the check stops there
unless it has run short of values by then. -/
theorem ofProgram_agrees (compiled : program.Compiled)
    (accepting : ∀ operator ∈ program.payloads, ∀ cause, ¬ operator.Refuses cause) (producers : List P)
    (studio : Studio σ P S) (world : σ) :
    let result := (evaluateOperations studio program producers world).1
    ((∃ operation, ofProgram program producers = .ok operation) ↔
      program.operandCount = producers.length ∧ ∀ step ∈ program.steps, step.Fits) ∧
    (∀ operation, ofProgram program producers = .ok operation →
      operation.currentValue studio world = evaluateOperations studio program producers world ∧
      ∀ halt, result = .error halt → ∃ error, halt = .shape error) ∧
    (program.operandCount = producers.length → ∀ position step, program.steps[position]? = some step →
      ¬ step.Fits → (∀ earlier < position, ∀ other ∈ program.steps[earlier]?, other.Fits) →
      ofProgram program producers = .error (.arity position step.1) ∧
      (∀ first ≤ position, ProgramToken.FirstUnderflow program.tokens first →
        result = .error (.shape (.underflow first))) ∧
      ((∀ first ≤ position, ¬ ProgramToken.FirstUnderflow program.tokens first) →
        result = .error (.fault (if step.1.isUnary then .binaryOnUnary else .unaryOnBinary)) ∧
        (Listening.interpretation studio).completed 0 program.steps [] ⟨producers, world⟩ = position ∧
        ((Operation.mk program producers).heard studio world).map Prod.fst =
          producers.take ((program.tokens.take position).count .operand))) ∧
    ((∃ signal, result = .ok signal) ∨ (∃ remaining, result = .error (.shape (.tooManyOperands remaining))) →
      ∃ operation, ofProgram program producers = .ok operation) := by
  have paired := compiled.paired
  refine ⟨exists_ofProgram_iff, fun operation accepted => ?_, fun counted position step found wrong fits => ?_,
    fun done => exists_ofProgram_iff.mpr (fits_of_evaluateOperations paired accepting done)⟩
  · obtain ⟨counted, fits⟩ := exists_ofProgram_iff.mp ⟨operation, accepted⟩
    rw [ofProgram_of_fits counted fits] at accepted
    cases accepted
    exact ⟨rfl, only_shape_of_evaluateOperations paired accepting counted fits studio world⟩
  · obtain ⟨before, after, parted, rfl, fine⟩ := exists_parted_of_earlier found fits
    refine ⟨ofProgram_of_mismatch counted parted fine wrong, fun first within here => ?_, fun none => ?_⟩
    all_goals
      obtain ⟨place, inside, there, stopped⟩ | ⟨enough, stopped, completed⟩ :=
        evaluateOperations_of_mismatch paired accepting counted parted fine wrong studio world
    · rw [here.unique there]
      exact stopped
    · exact (enough first within here.1).elim
    · exact (none place inside there).elim
    · exact ⟨stopped, completed, map_fst_heard_of_completed counted completed⟩

/-- The third producer stands behind the misplaced operator, so nobody reads it. -/
theorem ofProgram_agrees_on_unary_between_operands :
    let program : Program (SignalOperator Int String) :=
      ⟨[.operand, .operand, .binary .first, .operand, .binary .first],
        [.unary fun signal => .ok (-signal), .binary fun left right => .ok (left + right)]⟩
    let studio : Studio Int String Int := ⟨fun _ count => (count, count + 1), fun _ count => count⟩
    program.Compiled ∧ (∀ operator ∈ program.payloads, ∀ cause, ¬ operator.Refuses cause) ∧
      ofProgram program ["n", "m", "k"] = .error (.arity 2 (.binary .first)) ∧
      (evaluateOperations studio program ["n", "m", "k"] 0).1 = .error (.fault .unaryOnBinary) ∧
      ((Operation.mk program ["n", "m", "k"]).heard studio 0).map Prod.fst = ["n", "m"] := by
  intro program studio
  have compiled : program.Compiled :=
    .inr ⟨[.operand, .binary .first, .operand, .binary .first, .operand], program.payloads, rfl⟩
  have accepting : ∀ operator ∈ program.payloads, ∀ cause, ¬ operator.Refuses cause := by
    simp [program, SignalOperator.Refuses]
  have wrong : ¬ Step.Fits ((.binary .first, program.payloads[0]?) : Step (SignalOperator Int String)) :=
    fun fits => Bool.noConfusion (fits _ rfl)
  have fits : ∀ earlier < 2, ∀ other ∈ program.steps[earlier]?, other.Fits := by
    intro earlier less other found operator paired
    obtain rfl | rfl := Nat.le_one_iff_eq_zero_or_eq_one.mp (Nat.le_of_lt_succ less)
    · cases found
      cases paired
    · cases found
      cases paired
  have enough : ∀ first < 3, ¬ ProgramToken.Underflows program.tokens first := by decide
  obtain ⟨named, _, faults⟩ :=
    (ofProgram_agrees compiled accepting ["n", "m", "k"] studio 0).2.2.1 rfl 2 _ rfl wrong fits
  obtain ⟨stopped, _, read⟩ := faults fun first within here => enough first (Nat.lt_succ_of_le within) here.1
  exact ⟨compiled, accepting, named, stopped, read⟩

end Operation

end SignalStrip
