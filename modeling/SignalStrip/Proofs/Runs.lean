import Mathlib.Data.List.Forall2
import SignalStrip.Evaluation
import SignalStrip.Proofs.Expression

/-! Runs of programs. Two interpretations whose values, states and refusals correspond at every operand taken
and every operator applied correspond over whole runs: neither gets further than the other, and they stop for
the same reason. -/

namespace SignalStrip

variable {σ τ O V W F G : Type}

/-- Outcomes of the same kind: values on both sides or refusals on both sides, and states either way. -/
inductive Answers {α β ε δ : Type} (values : α → β → Prop) (refusals : ε → δ → Prop)
    (states : σ → τ → Prop) : Except ε α × σ → Except δ β × τ → Prop where
  | ok {value : α} {other : β} {state : σ} {beside : τ} (same : values value other)
      (kept : states state beside) : Answers values refusals states (.ok value, state) (.ok other, beside)
  | error {cause : ε} {other : δ} {state : σ} {beside : τ} (same : refusals cause other)
      (kept : states state beside) :
      Answers values refusals states (.error cause, state) (.error other, beside)

namespace Answers

variable {α β ε δ : Type} {values : α → β → Prop} {refusals : ε → δ → Prop} {states : σ → τ → Prop}
  {outcome : Except ε α × σ} {opposite : Except δ β × τ}

theorem outcomes (answers : Answers values refusals states outcome opposite) :
    (∃ value other state beside, outcome = (.ok value, state) ∧ opposite = (.ok other, beside) ∧
      values value other ∧ states state beside) ∨
    ∃ cause other state beside, outcome = (.error cause, state) ∧ opposite = (.error other, beside) ∧
      refusals cause other ∧ states state beside := by
  cases answers with
  | ok same kept => exact .inl ⟨_, _, _, _, rfl, rfl, same, kept⟩
  | error same kept => exact .inr ⟨_, _, _, _, rfl, rfl, same, kept⟩

theorem exists_ok (answers : Answers values refusals states outcome opposite) {value : α}
    (done : outcome.1 = .ok value) : ∃ other, opposite.1 = .ok other ∧ values value other := by
  cases answers with
  | ok same kept =>
    cases done
    exact ⟨_, rfl, same⟩
  | error same kept => cases done

theorem kept (answers : Answers values refusals states outcome opposite) :
    states outcome.2 opposite.2 := by
  cases answers with
  | ok same kept | error same kept => exact kept

end Answers

namespace Halt

/-- The same reason to stop, except that causes which the interpretations know only correspond. -/
inductive Matches (faults : F → G → Prop) : Halt F → Halt G → Prop where
  | shape (error : ShapeError) : Matches faults (.shape error) (.shape error)
  | exhausted (position : Nat) : Matches faults (.exhausted position) (.exhausted position)
  | unpaired : Matches faults .unpaired .unpaired
  | fault {cause : F} {other : G} (same : faults cause other) :
      Matches faults (.fault cause) (.fault other)

theorem eq_of_matches {halt other : Halt F} (same : Matches Eq halt other) : halt = other := by
  cases same with
  | shape _ | exhausted _ | unpaired => rfl
  | fault same => rw [same]

end Halt

theorem Answers.fst_eq {α : Type} {states : σ → τ → Prop} {outcome : Except (Halt F) α × σ}
    {opposite : Except (Halt F) α × τ} (answers : Answers Eq (Halt.Matches Eq) states outcome opposite) :
    outcome.1 = opposite.1 := by
  cases answers with
  | ok same kept => rw [same]
  | error same kept => rw [Halt.eq_of_matches same]

namespace Interpretation

/-- What has to correspond wherever one of the steps `among` is performed. -/
structure Corresponds (among : Step O → Prop) (values : V → W → Prop) (faults : F → G → Prop)
    (states : σ → τ → Prop) (first : Interpretation σ O V F) (second : Interpretation τ O W G) :
    Prop where
  next {state : σ} {beside : τ} (kept : states state beside) :
    Option.Rel (fun taken other => values taken.1 other.1 ∧ states taken.2 other.2)
      (first.next state) (second.next beside)
  unary {tier : Tier} {payload : O} {value : V} {other : W} {state : σ} {beside : τ}
    (step : among (.unary tier, some payload)) (same : values value other) (kept : states state beside) :
    Answers values faults states (first.unary payload value state) (second.unary payload other beside)
  binary {tier : Tier} {payload : O} {left right : V} {leftOther rightOther : W} {state : σ}
    {beside : τ} (step : among (.binary tier, some payload)) (onLeft : values left leftOther)
    (onRight : values right rightOther) (kept : states state beside) :
    Answers values faults states (first.binary payload left right state)
      (second.binary payload leftOther rightOther beside)
  note (record : Record) {state : σ} {beside : τ} (kept : states state beside) :
    states (first.note record state) (second.note record beside)

variable {among : Step O → Prop} {values : V → W → Prop} {faults : F → G → Prop}
  {states : σ → τ → Prop} {first : Interpretation σ O V F} {second : Interpretation τ O W G}

private theorem settle_answers {below : List V} {beside : List W} (level : List.Forall₂ values below beside)
    {outcome : Except F V × σ} {other : Except G W × τ}
    (answers : Answers values faults states outcome other) :
    Answers (List.Forall₂ values) (Halt.Matches faults) states (settle below outcome)
      (settle beside other) := by
  cases answers with
  | ok same kept => exact .ok (.cons same level) kept
  | error same kept => exact .error (.fault same) kept

theorem Corresponds.perform (corresponds : Corresponds among values faults states first second)
    (position : Nat) {step : Step O} (member : among step) {stack : List V} {beside : List W}
    (level : List.Forall₂ values stack beside) {state : σ} {other : τ} (kept : states state other) :
    Answers (List.Forall₂ values) (Halt.Matches faults) states
      (first.perform position step stack state) (second.perform position step beside other) := by
  obtain ⟨token, payload⟩ := step
  cases token with
  | operand =>
    have taken := corresponds.next kept
    simp only [Interpretation.perform]
    cases here : first.next state <;> cases there : second.next other <;> rw [here, there] at taken
    · exact .error (.exhausted position) kept
    · cases taken
    · cases taken
    · cases taken with
      | some both => exact .ok (.cons both.1 level) both.2
  | unary tier =>
    cases payload with
    | none => cases level <;> exact .error .unpaired kept
    | some payload =>
      cases level with
      | nil => exact .error (.shape _) kept
      | cons same level => exact settle_answers level (corresponds.unary member same kept)
  | binary tier =>
    cases payload with
    | none => cases level <;> exact .error .unpaired kept
    | some payload =>
      cases level with
      | nil => exact .error (.shape _) kept
      | cons onRight level =>
        cases level with
        | nil => exact .error (.shape _) kept
        | cons onLeft level =>
          exact settle_answers level (corresponds.binary member onLeft onRight kept)

theorem Corresponds.run (corresponds : Corresponds among values faults states first second)
    (position : Nat) {steps : List (Step O)} (members : ∀ step ∈ steps, among step) {stack : List V}
    {beside : List W} (level : List.Forall₂ values stack beside) {state : σ} {other : τ}
    (kept : states state other) :
    Answers (List.Forall₂ values) (Halt.Matches faults) states
      (first.run position steps stack state) (second.run position steps beside other) := by
  induction steps generalizing position stack beside state other with
  | nil => exact .ok level kept
  | cons step steps ih =>
    obtain ⟨member, members⟩ := List.forall_mem_cons.mp members
    have noted := corresponds.note (.step position step.1 stack.length) kept
    simp only [Interpretation.run, ← level.length_eq]
    obtain ⟨_, _, _, _, here, there, level, kept⟩ | ⟨_, _, _, _, here, there, same, kept⟩ :=
      (corresponds.perform position member level noted).outcomes
    · simp only [here, there]
      exact ih (position + 1) members level kept
    · simp only [here, there]
      exact .error same kept

end Interpretation

namespace Interpretation

/-- How many steps a run performs before one of them stops it. -/
def completed (interpretation : Interpretation σ O V F) : Nat → List (Step O) → List V → σ → Nat
  | _, [], _, _ => 0
  | position, step :: steps, stack, state =>
    match interpretation.perform position step stack
      (interpretation.note (.step position step.1 stack.length) state) with
    | (.ok stack, state) => completed interpretation (position + 1) steps stack state + 1
    | (.error _, _) => 0

/-- The completed steps all succeed, and the one after them, if there is one, does not. -/
theorem exists_run_completed (interpretation : Interpretation σ O V F) (position : Nat)
    (steps : List (Step O)) (stack : List V) (state : σ) :
    let done := interpretation.completed position steps stack state
    ∃ below reached, interpretation.run position (steps.take done) stack state = (.ok below, reached) ∧
      ∀ step ∈ (steps.drop done).head?, ∃ halt last,
        interpretation.perform (position + done) step below
          (interpretation.note (.step (position + done) step.1 below.length) reached) =
            (.error halt, last) := by
  induction steps generalizing position stack state with
  | nil => exact ⟨stack, state, rfl, nofun⟩
  | cons step steps ih =>
    unfold completed
    split
    next settled after performed =>
      obtain ⟨below, reached, ran, stops⟩ := ih (position + 1) settled after
      refine ⟨below, reached, ?_, ?_⟩
      · rw [List.take_succ_cons, run, performed]
        exact ran
      · rw [Nat.add_right_comm] at stops
        exact stops
    next halt last performed =>
      refine ⟨stack, state, rfl, ?_⟩
      rintro _ ⟨⟩
      exact ⟨halt, last, performed⟩

theorem completed_of_run {interpretation : Interpretation σ O V F} {position : Nat} {steps : List (Step O)}
    {stack after : List V} {state last : σ}
    (runs : interpretation.run position steps stack state = (.ok after, last)) :
    interpretation.completed position steps stack state = steps.length := by
  induction steps generalizing position stack state with
  | nil => rfl
  | cons step steps ih =>
    unfold run at runs
    split at runs
    next performed =>
      rw [completed, performed]
      exact congrArg (· + 1) (ih runs)
    next => cases runs

theorem completed_append {interpretation : Interpretation σ O V F} {position : Nat} {first : List (Step O)}
    {stack below : List V} {state reached : σ}
    (ran : interpretation.run position first stack state = (.ok below, reached)) (second : List (Step O)) :
    interpretation.completed position (first ++ second) stack state =
      first.length + interpretation.completed (position + first.length) second below reached := by
  induction first generalizing position stack state with
  | nil =>
    cases ran
    exact (Nat.zero_add _).symm
  | cons step first ih =>
    unfold run at ran
    split at ran
    next performed =>
      rw [List.cons_append, completed, performed]
      simp only [ih ran, List.length_cons]
      rw [Nat.add_right_comm, Nat.add_assoc position, Nat.add_comm 1]
    next => cases ran

theorem Corresponds.completed_eq (corresponds : Corresponds among values faults states first second)
    (position : Nat) {steps : List (Step O)} (members : ∀ step ∈ steps, among step) {stack : List V}
    {beside : List W} (level : List.Forall₂ values stack beside) {state : σ} {other : τ}
    (kept : states state other) :
    first.completed position steps stack state = second.completed position steps beside other := by
  induction steps generalizing position stack beside state other with
  | nil => rfl
  | cons step steps ih =>
    obtain ⟨member, members⟩ := List.forall_mem_cons.mp members
    have noted := corresponds.note (.step position step.1 stack.length) kept
    simp only [completed, ← level.length_eq]
    obtain ⟨_, _, _, _, here, there, level, kept⟩ | ⟨_, _, _, _, here, there, _, _⟩ :=
      (corresponds.perform position member level noted).outcomes
    · simp only [here, there]
      rw [ih (position + 1) members level kept]
    · simp only [here, there]

/-- What holds of a state stays true through everything an evaluation may do to it. -/
structure Keeps (interpretation : Interpretation σ O V F) (holds : σ → Prop) : Prop where
  next {state after : σ} {value : V} (held : holds state)
    (taken : interpretation.next state = some (value, after)) : holds after
  unary (payload : O) (value : V) {state : σ} (held : holds state) :
    holds (interpretation.unary payload value state).2
  binary (payload : O) (left right : V) {state : σ} (held : holds state) :
    holds (interpretation.binary payload left right state).2
  note (position : Nat) (token : ProgramToken) (depth : Nat) {state : σ} (held : holds state) :
    holds (interpretation.note (.step position token depth) state)

theorem settle_snd (below : List V) (outcome : Except F V × σ) : (settle below outcome).2 = outcome.2 := by
  obtain ⟨result, state⟩ := outcome
  cases result <;> rfl

theorem length_of_settle {below after : List V} {outcome : Except F V × σ} {last : σ}
    (settles : settle below outcome = (.ok after, last)) : after.length = below.length + 1 := by
  obtain ⟨result, state⟩ := outcome
  cases result <;> cases settles
  rfl

variable {interpretation : Interpretation σ O V F} {holds : σ → Prop}

theorem Keeps.perform (keeps : interpretation.Keeps holds) (position : Nat) (step : Step O)
    (stack : List V) {state : σ} (held : holds state) :
    holds (interpretation.perform position step stack state).2 := by
  unfold Interpretation.perform
  split
  · split
    next value after taken => exact keeps.next held taken
    next => exact held
  · rw [settle_snd]
    exact keeps.unary _ _ held
  · rw [settle_snd]
    exact keeps.binary _ _ _ held
  · exact held
  · exact held

theorem Keeps.run (keeps : interpretation.Keeps holds) (position : Nat) (steps : List (Step O))
    (stack : List V) {state : σ} (held : holds state) :
    holds (interpretation.run position steps stack state).2 := by
  induction steps generalizing position stack state with
  | nil => exact held
  | cons step steps ih =>
    have performed := keeps.perform position step stack (keeps.note position step.1 stack.length held)
    unfold Interpretation.run
    split
    next below after reached =>
      rw [reached] at performed
      exact ih (position + 1) below performed
    next halt last stopped =>
      rwa [stopped] at performed

end Interpretation

/-- An evaluation is a run, whose stack is looked at in the end. -/
theorem Program.evaluate_eq (program : Program O) (interpretation : Interpretation σ O V F) (state : σ) :
    program.evaluate interpretation state =
      ((interpretation.run 0 program.steps [] state).1.bind fun stack => (soleValue stack).mapError .shape,
        (interpretation.run 0 program.steps [] state).2) := by
  unfold evaluate
  split
  next stack last reached => rw [reached]; rfl
  next halt last stopped => rw [stopped]; rfl

private theorem soleValue_eq_ok {stack : List V} {value : V} :
    soleValue stack = .ok value ↔ stack = [value] := by
  match stack with
  | [] | [_] | _ :: _ :: _ => simp [soleValue]

theorem Program.evaluate_eq_ok {program : Program O} {interpretation : Interpretation σ O V F}
    {state : σ} {value : V} :
    (program.evaluate interpretation state).1 = .ok value ↔
      ∃ last, interpretation.run 0 program.steps [] state = (.ok [value], last) := by
  unfold evaluate
  split
  next stack last runs =>
    constructor
    · intro evaluates
      cases sole : soleValue stack with
      | error error =>
        rw [sole] at evaluates
        cases evaluates
      | ok result =>
        rw [sole] at evaluates
        cases evaluates
        rw [runs, soleValue_eq_ok.mp sole]
        exact ⟨last, rfl⟩
    · intro ran
      obtain ⟨_, same⟩ := ran
      cases runs.symm.trans same
      rfl
  next halt last runs =>
    constructor
    · intro evaluates
      cases evaluates
    · intro ran
      obtain ⟨_, same⟩ := ran
      cases runs.symm.trans same

theorem Program.evaluate_eq_error {program : Program O} {interpretation : Interpretation σ O V F} {state : σ}
    {halt : Halt F} :
    (program.evaluate interpretation state).1 = .error halt ↔
      (interpretation.run 0 program.steps [] state).1 = .error halt ∨
        ∃ stack last error, interpretation.run 0 program.steps [] state = (.ok stack, last) ∧
          soleValue stack = .error error ∧ halt = .shape error := by
  unfold evaluate
  split
  next stack last runs =>
    rw [runs]
    cases sole : soleValue stack with
    | ok value =>
      constructor
      · exact nofun
      · rintro (⟨⟨⟩⟩ | ⟨_, _, _, ⟨⟩, wrong, _⟩)
        cases sole.symm.trans wrong
    | error error =>
      constructor
      · rintro ⟨⟩
        exact .inr ⟨stack, last, error, rfl, sole, rfl⟩
      · rintro (⟨⟨⟩⟩ | ⟨_, _, _, ⟨⟩, wrong, rfl⟩)
        cases sole.symm.trans wrong
        rfl
  next cause last runs =>
    rw [runs]
    constructor
    · rintro ⟨⟩
      exact .inl rfl
    · rintro (⟨⟨⟩⟩ | ⟨_, _, _, ⟨⟩, _⟩)
      rfl

theorem Program.evaluate_keeps {interpretation : Interpretation σ O V F} {holds : σ → Prop}
    (keeps : interpretation.Keeps holds) (program : Program O) {state : σ} (held : holds state) :
    holds (program.evaluate interpretation state).2 := by
  rw [evaluate_eq]
  exact keeps.run 0 program.steps [] held

private theorem soleValue_answers {values : V → W → Prop} {faults : F → G → Prop} {states : σ → τ → Prop}
    {stack : List V} {beside : List W} (level : List.Forall₂ values stack beside) {state : σ} {other : τ}
    (kept : states state other) :
    Answers values (Halt.Matches faults) states ((soleValue stack).mapError .shape, state)
      ((soleValue beside).mapError .shape, other) := by
  cases level with
  | nil => exact .error (.shape _) kept
  | cons same level =>
    cases level with
    | nil => exact .ok same kept
    | cons next level =>
      have size := level.length_eq
      simp only [soleValue, List.length_cons, size]
      exact .error (.shape _) kept

theorem Program.evaluate_answers {among : Step O → Prop} {values : V → W → Prop}
    {faults : F → G → Prop} {states : σ → τ → Prop} {first : Interpretation σ O V F}
    {second : Interpretation τ O W G}
    (corresponds : Interpretation.Corresponds among values faults states first second)
    (program : Program O) (members : ∀ step ∈ program.steps, among step) (state : σ) (other : τ)
    (kept : states state other) :
    Answers values (Halt.Matches faults) states (program.evaluate first state)
      (program.evaluate second other) := by
  simp only [Program.evaluate]
  obtain ⟨_, _, _, _, here, there, level, kept⟩ | ⟨_, _, _, _, here, there, same, kept⟩ :=
    (corresponds.run 0 members .nil kept).outcomes
  · simp only [here, there]
    exact soleValue_answers level kept
  · simp only [here, there]
    exact .error same kept

namespace Interpretation

variable (interpretation : Interpretation σ O V F)

private theorem settle_ne_unpaired (below : List V) (outcome : Except F V × σ) :
    (settle below outcome).1 ≠ .error .unpaired := by
  obtain ⟨result, state⟩ := outcome
  cases result <;> exact nofun

private theorem perform_ne_unpaired (position : Nat) {step : Step O} (paired : step.Paired) (stack : List V)
    (state : σ) : (interpretation.perform position step stack state).1 ≠ .error .unpaired := by
  obtain ⟨token, payload⟩ := step
  cases token with
  | operand =>
    simp only [perform]
    split <;> exact nofun
  | unary tier =>
    obtain ⟨operator, rfl⟩ := Option.isSome_iff_exists.mp paired
    match stack with
    | [] => exact nofun
    | _ :: _ => exact settle_ne_unpaired _ _
  | binary tier =>
    obtain ⟨operator, rfl⟩ := Option.isSome_iff_exists.mp paired
    match stack with
    | [] | [_] => exact nofun
    | _ :: _ :: _ => exact settle_ne_unpaired _ _

private theorem run_ne_unpaired (position : Nat) {steps : List (Step O)} (paired : ∀ step ∈ steps, step.Paired)
    (stack : List V) (state : σ) :
    (interpretation.run position steps stack state).1 ≠ .error .unpaired := by
  induction steps generalizing position stack state with
  | nil => exact nofun
  | cons step steps ih =>
    obtain ⟨here, others⟩ := List.forall_mem_cons.mp paired
    unfold run
    split
    · exact ih (position + 1) others _ _
    next halt last stopped =>
      have reason := interpretation.perform_ne_unpaired position here stack
        (interpretation.note (.step position step.1 stack.length) state)
      rwa [stopped] at reason

end Interpretation

theorem Program.evaluate_ne_unpaired {program : Program O} (paired : ∀ step ∈ program.steps, step.Paired)
    (interpretation : Interpretation σ O V F) (state : σ) :
    (program.evaluate interpretation state).1 ≠ .error .unpaired := by
  unfold evaluate
  split
  next stack _ _ => cases soleValue stack <;> exact nofun
  next halt last stopped =>
    intro unpaired
    cases unpaired
    exact interpretation.run_ne_unpaired 0 paired [] state (by rw [stopped])

end SignalStrip
