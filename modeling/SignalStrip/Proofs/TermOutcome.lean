import SignalStrip.Proofs.Depth
import SignalStrip.Proofs.TermValue

/-! Outcomes of evaluations over terms. Counts, lengths and tokens alone decide between a mistake of the caller, a
term and an answer about the shape of the program, whatever the terms hold. -/

namespace SignalStrip

variable {A : Type}

def Halt.IsMistake {F : Type} : Halt F → Prop
  | shape _ => False
  | exhausted _ | unpaired | fault _ => True

namespace ProgramToken

/-- The first unary operator gets the value it takes. -/
def ReachesUnary (tokens : List ProgramToken) : Prop :=
  ∃ first ∈ tokens.findIdx? isUnary, ∀ position ≤ first, ¬ Underflows tokens position

instance (tokens : List ProgramToken) : Decidable (ReachesUnary tokens) :=
  inferInstanceAs (Decidable (∃ first ∈ tokens.findIdx? isUnary, ∀ position ≤ first, ¬ Underflows tokens position))

end ProgramToken

private theorem Program.binary_or_first_unary {O : Type} (program : Program O) :
    (∀ step ∈ program.steps, step.1.isUnary = false) ∧ program.tokens.findIdx? ProgramToken.isUnary = none ∨
    ∃ before step after, program.steps = before ++ step :: after ∧
      (∀ earlier ∈ before, earlier.1.isUnary = false) ∧ step.1.isUnary = true ∧
      program.tokens.findIdx? ProgramToken.isUnary = some before.length := by
  rw [← program.map_fst_steps]
  obtain binary | ⟨before, step, after, parted, binary, unary⟩ :=
    forall_or_exists_first (fun step : Step O => step.1.isUnary = false) program.steps
  · refine .inl ⟨binary, List.findIdx?_eq_none_iff.mpr fun token member => ?_⟩
    obtain ⟨step, among, rfl⟩ := List.mem_map.mp member
    exact binary step among
  · have here : step.1.isUnary = true := eq_true_of_ne_false unary
    have none : (before.map Prod.fst).findIdx? ProgramToken.isUnary = none := by
      simpa [List.findIdx?_eq_none_iff] using binary
    refine .inr ⟨before, step, after, parted, binary, here, ?_⟩
    simp [parted, List.findIdx?_append, none, List.findIdx?_cons, here]

namespace TermSupply

variable [Sample A] {dimension : Nat} {operands : List (Term A)}
  (dimensions : ∀ term ∈ operands, term.length = dimension) (log : Log)

include dimensions

private theorem level_start :
    List.Forall₂ (fun (term : Term A) (_ : A) => term.length = dimension) (mk operands log).terms
      (Recording.start (operands.map (Term.sampleAt 0)) log : Recording TermOp A).supply := by
  show List.Forall₂ _ operands (operands.map _)
  rw [List.forall₂_map_right_iff, List.forall₂_same]
  exact dimensions

private theorem only_shape {steps : List (Step TermOp)} (binary : ∀ step ∈ steps, step.1.isUnary = false)
    (paired : ∀ step ∈ steps, step.Paired) (enough : (steps.map Prod.fst).count .operand ≤ operands.length) :
    ∀ halt, (interpretation.run 0 steps [] ⟨operands, log⟩).1 = .error halt → ∃ error, halt = .shape error := by
  intro halt stopped
  have answers := (corresponds_length dimension fun _ => id).run 0 binary .nil (level_start dimensions log)
  obtain ⟨cause, same, rfl⟩ := (Halt.error_iff_of_answers answers).mp stopped
  have samples : (steps.map Prod.fst).count .operand ≤ (operands.map (Term.sampleAt 0)).length := by
    rwa [List.length_map]
  have foreseen := (Recording.provides _ _).run 0 (fun _ _ => trivial) paired [] samples cause same
  obtain ⟨error, rfl⟩ := Halt.exists_shape_of_foreseen (fun _ => id) foreseen
  exact ⟨error, rfl⟩

omit dimensions in
private theorem perform_unary (position : Nat) {tier : Tier} (op : TermOp) {stack : List (Term A)}
    (found : ¬ (ProgramToken.unary tier).Lacks stack.length) (supply : TermSupply A) :
    (interpretation.perform position (.unary tier, some op) stack supply).1 = .error (.fault (.unaryUse op)) := by
  cases stack with
  | nil => exact (found Int.zero_lt_one).elim
  | cons term stack => rfl

variable {program : Program TermOp} (paired : ∀ step ∈ program.steps, step.Paired)
  (enough : program.operandCount ≤ operands.length)

include paired enough

theorem evaluate_outcome :
    let result := (program.evaluate interpretation ⟨operands, log⟩).1
    ProgramToken.ReachesUnary program.tokens ∧ (∃ op, result = .error (.fault (.unaryUse op))) ∨
    ¬ ProgramToken.ReachesUnary program.tokens ∧
      (∀ halt, result = .error halt → ∃ error, halt = .shape error) ∧
      ∀ term, result = .ok term → term.length = dimension := by
  intro result
  obtain ⟨binary, none⟩ | ⟨before, ⟨token, payload⟩, after, parted, binary, unary, found⟩ :=
    program.binary_or_first_unary
  · refine .inr ⟨?_, ?_, fun term done => ?_⟩
    · rintro ⟨first, found, _⟩
      cases none.symm.trans found
    · apply Program.only_shape_of_run
      exact only_shape dimensions log binary paired (by rwa [program.map_fst_steps])
    · obtain ⟨_, _, length⟩ := (Program.evaluate_answers (corresponds_length dimension fun _ => id) program binary
        _ _ (level_start dimensions log)).exists_ok done
      exact length
  · cases token with
    | operand | binary tier => cases unary
    | unary tier =>
      have pairs : Step.Paired (.unary tier, payload) := paired _ (by simp [parted])
      obtain ⟨op, rfl⟩ := Option.isSome_iff_exists.mp pairs
      have fits := Nat.le_trans (Program.count_operand_of_parted parted) enough
      have pairsBefore : ∀ earlier ∈ before, Step.Paired earlier := fun earlier among =>
        paired earlier (by simp [parted, among])
      obtain ⟨position, within, first, stopped⟩ | ⟨enough, stopped, _⟩ :=
        Program.evaluate_of_refused parted pairs
          (only_shape dimensions log binary pairsBefore fits)
          (fun stack supply lacks => perform_unary before.length op lacks supply)
      · refine .inr ⟨?_, ?_, ?_⟩
        · rintro ⟨place, same, reached⟩
          cases found.symm.trans same
          exact reached position within first.1
        · rintro halt said
          cases stopped.symm.trans said
          exact ⟨_, rfl⟩
        · rintro term said
          cases stopped.symm.trans said
      · exact .inl ⟨⟨_, found, enough⟩, op, stopped⟩

end TermSupply

namespace Combiner

section Outcome

variable (combiner : Combiner) (program : Program TermOp) (operands : List (Term A))

structure Accepts : Prop where
  counted : program.operandCount = operands.length
  dimensions : ∀ term ∈ operands, term.length = combiner.dimension
  unreached : ¬ ProgramToken.ReachesUnary program.tokens

/-- How an evaluation ends, and what is the case when it ends so. -/
inductive Outcome : Except (Halt CombinerFault) (Term A) → Prop where
  | count (wrong : program.operandCount ≠ operands.length) :
      Outcome (.error (.fault (.operandCount program.operandCount)))
  | length {term : Term A} (member : term ∈ operands) (wrong : term.length ≠ combiner.dimension)
      (counted : program.operandCount = operands.length) :
      Outcome (.error (.fault (.operandLength term.length combiner.dimension)))
  | unary {op : TermOp} (reached : ProgramToken.ReachesUnary program.tokens)
      (counted : program.operandCount = operands.length)
      (dimensions : ∀ term ∈ operands, term.length = combiner.dimension) :
      Outcome (.error (.fault (.unaryUse op)))
  | shape {error : ShapeError} (accepts : combiner.Accepts program operands) : Outcome (.error (.shape error))
  | term {term : Term A} (accepts : combiner.Accepts program operands)
      (length : term.length = combiner.dimension) : Outcome (.ok term)

end Outcome

variable {combiner : Combiner} {program : Program TermOp} {operands : List (Term A)}

namespace Outcome

variable {result : Except (Halt CombinerFault) (Term A)} (outcome : combiner.Outcome program operands result)

include outcome

theorem isMistake_iff :
    (∃ halt, result = .error halt ∧ halt.IsMistake) ↔
      program.operandCount ≠ operands.length ∨ (∃ term ∈ operands, term.length ≠ combiner.dimension) ∨
        ProgramToken.ReachesUnary program.tokens := by
  have refused (accepts : combiner.Accepts program operands) :
      ¬ (program.operandCount ≠ operands.length ∨ (∃ term ∈ operands, term.length ≠ combiner.dimension) ∨
        ProgramToken.ReachesUnary program.tokens) := by
    rintro (wrong | ⟨term, member, wrong⟩ | reached)
    · exact wrong accepts.counted
    · exact wrong (accepts.dimensions term member)
    · exact accepts.unreached reached
  cases outcome with
  | count wrong => exact ⟨fun _ => .inl wrong, fun _ => ⟨_, rfl, trivial⟩⟩
  | length member wrong _ => exact ⟨fun _ => .inr (.inl ⟨_, member, wrong⟩), fun _ => ⟨_, rfl, trivial⟩⟩
  | unary reached _ _ => exact ⟨fun _ => .inr (.inr reached), fun _ => ⟨_, rfl, trivial⟩⟩
  | shape accepts => exact ⟨by rintro ⟨_, ⟨⟩, ⟨⟩⟩, fun wrong => (refused accepts wrong).elim⟩
  | term accepts _ => exact ⟨by rintro ⟨_, ⟨⟩, _⟩, fun wrong => (refused accepts wrong).elim⟩

private theorem eq_of_miscounted (wrong : program.operandCount ≠ operands.length) :
    result = .error (.fault (.operandCount program.operandCount)) := by
  cases outcome with
  | count _ => rfl
  | length _ _ counted | unary _ counted _ => exact (wrong counted).elim
  | shape accepts | term accepts _ => exact (wrong accepts.counted).elim

private theorem unreachable {halt : Halt CombinerFault} (stopped : result = .error halt) :
    (∀ fault, halt ≠ .fault (.term fault)) ∧ (∀ position, halt ≠ .exhausted position) ∧ halt ≠ .unpaired := by
  cases outcome <;> cases stopped <;> exact ⟨nofun, nofun, nofun⟩

private theorem isMistake_or_accepts :
    (∃ halt, result = .error halt ∧ halt.IsMistake) ∨ combiner.Accepts program operands := by
  cases outcome with
  | count _ | length _ _ _ | unary _ _ _ => exact .inl ⟨_, rfl, trivial⟩
  | shape accepts | term accepts _ => exact .inr accepts

end Outcome

variable [Sample A]

private theorem evaluateTerm_of_empty (empty : program.tokens = []) (counted : program.operandCount = operands.length)
    (dimensions : ∀ term ∈ operands, term.length = combiner.dimension) (log : Log) :
    (combiner.evaluateTerm program operands log).1 = .ok (.zero combiner.dimension) := by
  rw [evaluateTerm_of_isEmpty (List.isEmpty_iff.mpr empty) counted dimensions]
  rfl

/-- Counts are looked at first, lengths next, and then the program runs. -/
theorem outcome_of_evaluateTerm (paired : ∀ step ∈ program.steps, step.Paired) (combiner : Combiner)
    (operands : List (Term A)) (log : Log) :
    combiner.Outcome program operands (combiner.evaluateTerm program operands log).1 := by
  by_cases counted : program.operandCount = operands.length
  · cases found : operands.find? fun term => term.length != combiner.dimension with
    | some term =>
      simp only [evaluateTerm, if_pos counted, found]
      exact .length (List.mem_of_find?_eq_some found) (by simpa using List.find?_some found) counted
    | none =>
      have dimensions := find?_misfit.mp found
      cases nonempty : program.isEmpty with
      | true =>
        have empty := List.isEmpty_iff.mp nonempty
        rw [evaluateTerm_of_empty empty counted dimensions]
        refine .term ⟨counted, dimensions, ?_⟩ rfl
        rintro ⟨first, unary, _⟩
        rw [empty] at unary
        cases unary
      | false =>
        rw [combiner.evaluateTerm_eq_evaluate nonempty counted dimensions]
        obtain ⟨reached, op, stopped⟩ | ⟨unreached, only, length⟩ :=
          TermSupply.evaluate_outcome dimensions log paired (Nat.le_of_eq counted)
        · rw [stopped]
          exact .unary reached counted dimensions
        · cases result : (program.evaluate TermSupply.interpretation ⟨operands, log⟩).1 with
          | ok term => exact .term ⟨counted, dimensions, unreached⟩ (length term result)
          | error halt =>
            obtain ⟨error, rfl⟩ := only halt result
            exact .shape ⟨counted, dimensions, unreached⟩
  · simp only [evaluateTerm, if_neg counted]
    exact .count counted

theorem evaluateTerm_alike (accepts : combiner.Accepts program operands) (compiled : program.Compiled)
    (present : program.tokens ≠ []) (log : Log) {σ V F : Type} {plain : Interpretation σ TermOp V F}
    {room : Nat → σ → Prop} (provides : plain.Provides (fun _ => True) (fun _ => False) room) {state : σ}
    (enough : room program.operandCount state) :
    let result := (combiner.evaluateTerm program operands log).1
    (∃ term, result = .ok term ∧ term.length = combiner.dimension) ∧
        (∃ value, (program.evaluate plain state).1 = .ok value) ∨
      ∃ error, result = .error (.shape error) ∧ (program.evaluate plain state).1 = .error (.shape error) := by
  have nonempty : program.isEmpty = false := List.isEmpty_eq_false_iff.mpr present
  rw [combiner.evaluateTerm_eq_evaluate nonempty accepts.counted accepts.dimensions]
  obtain ⟨reached, _⟩ | ⟨_, only, length⟩ :=
    TermSupply.evaluate_outcome accepts.dimensions log compiled.paired (Nat.le_of_eq accepts.counted)
  · exact (accepts.unreached reached).elim
  · obtain ⟨⟨term, done⟩, value⟩ | stopped :=
      Program.evaluate_alike only (Program.only_shape compiled provides enough)
    · exact .inl ⟨⟨term, done, length term done⟩, value⟩
    · exact .inr stopped

private theorem findIdx?_isUnary_of_compileLogged {strip : Strip TermOp} {before : Log}
    (compiles : (compileLogged strip before).1 = .ok program) :
    program.tokens.findIdx? ProgramToken.isUnary = none := by
  unfold compileLogged at compiles
  split at compiles
  · cases compiles
  next binary =>
    have inner : compile strip.tokens strip.payloads = .ok program := by
      simp only [Strip.compileLogged, SignalStrip.compileLogged] at compiles
      cases compiled : compile strip.tokens strip.payloads with
      | ok other =>
        rw [compiled] at compiles
        cases compiles
        rfl
      | error fault =>
        rw [compiled] at compiles
        cases compiles
    rw [List.findIdx?_eq_none_iff, ← program.map_fst_steps]
    intro token member
    obtain ⟨⟨token, _⟩, among, rfl⟩ := List.mem_map.mp member
    have written := toToken_mem_of_compile inner _ among
    cases token with
    | operand | binary tier => rfl
    | unary tier => exact (binary (List.any_eq_true.mpr ⟨_, written, rfl⟩)).elim

/-- The caller's mistakes are a wrong number of operands, which is noticed first, an operand of another length, and a
unary operator that gets its value. -/
theorem evaluateTerm_outcome (compiled : program.Compiled) (combiner : Combiner) (operands : List (Term A))
    (log : Log) :
    let result := (combiner.evaluateTerm program operands log).1
    ((∃ halt, result = .error halt ∧ halt.IsMistake) ↔
      program.operandCount ≠ operands.length ∨ (∃ term ∈ operands, term.length ≠ combiner.dimension) ∨
        ProgramToken.ReachesUnary program.tokens) ∧
    (program.operandCount ≠ operands.length →
      result = .error (.fault (.operandCount program.operandCount))) ∧
    (∀ halt, result = .error halt →
      (∀ fault, halt ≠ .fault (.term fault)) ∧ (∀ position, halt ≠ .exhausted position) ∧ halt ≠ .unpaired) ∧
    ((∃ halt, result = .error halt ∧ halt.IsMistake) ∨
      program.tokens = [] ∧ result = .ok (.zero combiner.dimension) ∨
      program.tokens ≠ [] ∧
        ∀ {σ V F : Type} {plain : Interpretation σ TermOp V F} {room : Nat → σ → Prop} {state : σ},
          plain.Provides (fun _ => True) (fun _ => False) room → room program.operandCount state →
            (∃ term, result = .ok term ∧ term.length = combiner.dimension) ∧
                (∃ value, (program.evaluate plain state).1 = .ok value) ∨
              ∃ error, result = .error (.shape error) ∧
                (program.evaluate plain state).1 = .error (.shape error)) ∧
    ∀ strip before, (compileLogged strip before).1 = .ok program →
      program.tokens.findIdx? ProgramToken.isUnary = none := by
  have ends := outcome_of_evaluateTerm compiled.paired combiner operands log
  refine ⟨ends.isMistake_iff, ends.eq_of_miscounted, fun _ => ends.unreachable, ?_,
    fun _ _ => findIdx?_isUnary_of_compileLogged⟩
  rcases ends.isMistake_or_accepts with mistake | accepts
  · exact .inl mistake
  · by_cases empty : program.tokens = []
    · exact .inr (.inl ⟨empty, evaluateTerm_of_empty empty accepts.counted accepts.dimensions log⟩)
    · exact .inr (.inr ⟨empty, fun provides enough => evaluateTerm_alike accepts compiled empty log provides enough⟩)

/-- A unary operator does no harm where a binary one before it lacks an operand. -/
theorem evaluateTerm_outcome_of_underflow_before_unary :
    letI := Sample.whole
    let program : Program TermOp := ⟨[.operand, .binary .first, .operand, .unary .first], [.add, .multiply]⟩
    let operands : List (Term Int) := [.zero 2, .data [3, 4] none]
    let result := ((Combiner.mk 2 0).evaluateTerm program operands #[]).1
    let plain := Recording.interpretation (fun (_ : TermOp) (value : Int) => -value) TermOp.scalar
    program.Compiled ∧ ¬ ProgramToken.ReachesUnary program.tokens ∧ result = .error (.shape (.underflow 1)) ∧
      (program.evaluate plain (.start [5, 6] #[])).1 = .error (.shape (.underflow 1)) := by
  let := Sample.whole
  intro program operands result plain
  have compiled : program.Compiled :=
    .inr ⟨[.operand, .binary .first, .rightParen, .unary .first, .operand], [.add, .multiply], rfl⟩
  have stopped : result = .error (.shape (.underflow 1)) := rfl
  refine ⟨compiled, by decide, stopped, ?_⟩
  obtain ⟨_, said, mistake⟩ | ⟨empty, _⟩ | ⟨_, alike⟩ :=
    (evaluateTerm_outcome compiled ⟨2, 0⟩ operands #[]).2.2.2.1
  · cases said
    cases mistake
  · cases empty
  · have enough : program.operandCount ≤ (Recording.start [5, 6] #[] : Recording TermOp Int).supply.length := by
      decide
    obtain ⟨⟨_, done, _⟩, _⟩ | ⟨_, said, same⟩ := alike (Recording.provides _ _) enough
    · cases done
    · cases said
      exact same

end Combiner
end SignalStrip
