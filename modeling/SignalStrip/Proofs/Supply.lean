import SignalStrip.Recording
import SignalStrip.Proofs.Runs

/-! Runs that are provided for. As long as there is a value for every operand that is still to come and every
operator has its payload, only the shape of a program or a refusal can stop an evaluation. -/

namespace SignalStrip

variable {σ O V F : Type}

theorem countP_take_le {α : Type} {takes : α → Bool} {items : List α} {supplied count : Nat}
    (left : ∀ position < count, ∀ item ∈ items[position]?, takes item = true →
      (items.take position).countP takes < supplied) :
    (items.take count).countP takes ≤ supplied := by
  induction count with
  | zero => simp
  | succ count ih =>
    have bound := ih fun position less => left position (Nat.lt_succ_of_lt less)
    cases found : items[count]? with
    | none => simpa [List.take_add_one, found] using bound
    | some item =>
      rw [List.take_add_one, found, Option.toList_some, List.countP_append, List.countP_singleton]
      split
      next here => exact left count (Nat.lt_succ_self count) item found here
      next => exact bound

/-- What may stop a run that is provided for. Causes that only the interpretation knows are among `causes`. -/
def Halt.Foreseen (causes : F → Prop) : Halt F → Prop
  | shape _ => True
  | fault cause => causes cause
  | exhausted _ | unpaired => False

theorem Halt.exists_shape_of_foreseen {causes : F → Prop} (none : ∀ cause, ¬ causes cause) {halt : Halt F}
    (foreseen : halt.Foreseen causes) : ∃ error, halt = .shape error := by
  cases halt with
  | shape error => exact ⟨error, rfl⟩
  | fault cause => exact (none cause foreseen).elim
  | exhausted _ | unpaired => exact foreseen.elim

namespace Interpretation

/-- While `room count` holds of a state, `count` more operands can be taken. Where one of the steps `among` is
performed, nothing but `causes` is refused. -/
structure Provides (among : Step O → Prop) (causes : F → Prop) (room : Nat → σ → Prop)
    (interpretation : Interpretation σ O V F) : Prop where
  next {count : Nat} {state : σ} (left : room (count + 1) state) :
    ∃ value after, interpretation.next state = some (value, after) ∧ room count after
  unary {tier : Tier} {payload : O} (step : among (.unary tier, some payload)) (value : V) {count : Nat}
    {state : σ} (left : room count state) :
    (∀ cause, (interpretation.unary payload value state).1 = .error cause → causes cause) ∧
      room count (interpretation.unary payload value state).2
  binary {tier : Tier} {payload : O} (step : among (.binary tier, some payload)) (first second : V)
    {count : Nat} {state : σ} (left : room count state) :
    (∀ cause, (interpretation.binary payload first second state).1 = .error cause → causes cause) ∧
      room count (interpretation.binary payload first second state).2
  note (record : Record) {count : Nat} {state : σ} (left : room count state) :
    room count (interpretation.note record state)

variable {among : Step O → Prop} {causes : F → Prop} {room : Nat → σ → Prop}
  {interpretation : Interpretation σ O V F}

private theorem settle_foreseen {below : List V} {outcome : Except F V × σ}
    (refused : ∀ cause, outcome.1 = .error cause → causes cause) :
    ∀ halt, (settle below outcome).1 = .error halt → halt.Foreseen causes := by
  obtain ⟨result, state⟩ := outcome
  intro halt stopped
  cases result <;> cases stopped
  exact refused _ rfl

private theorem foreseen_of_error {halt : Halt F} (foreseen : halt.Foreseen causes) (other : Halt F)
    (same : (Except.error halt : Except (Halt F) (List V)) = .error other) : other.Foreseen causes := by
  cases same
  exact foreseen

theorem Provides.perform (provides : interpretation.Provides among causes room) (position : Nat)
    {step : Step O} (member : among step) (paired : step.Paired) (stack : List V) {count : Nat} {state : σ}
    (left : room ([step.1].count .operand + count) state) :
    (∀ halt, (interpretation.perform position step stack state).1 = .error halt → halt.Foreseen causes) ∧
      room count (interpretation.perform position step stack state).2 := by
  obtain ⟨token, payload⟩ := step
  cases token with
  | operand =>
    rw [List.count_singleton_self, Nat.add_comm] at left
    obtain ⟨value, after, taken, less⟩ := provides.next left
    simp only [Interpretation.perform, taken]
    exact ⟨by rintro _ ⟨⟩, less⟩
  | unary tier =>
    obtain ⟨operator, rfl⟩ := Option.isSome_iff_exists.mp paired
    have kept : room count state := by simpa using left
    cases stack with
    | nil => exact ⟨foreseen_of_error trivial, kept⟩
    | cons value below =>
      obtain ⟨refused, after⟩ := provides.unary member value kept
      refine ⟨settle_foreseen refused, ?_⟩
      rwa [Interpretation.perform, settle_snd]
  | binary tier =>
    obtain ⟨operator, rfl⟩ := Option.isSome_iff_exists.mp paired
    have kept : room count state := by simpa using left
    rcases stack with _ | ⟨second, _ | ⟨first, below⟩⟩
    · exact ⟨foreseen_of_error trivial, kept⟩
    · exact ⟨foreseen_of_error trivial, kept⟩
    · obtain ⟨refused, after⟩ := provides.binary member first second kept
      refine ⟨settle_foreseen refused, ?_⟩
      rwa [Interpretation.perform, settle_snd]

theorem Provides.run (provides : interpretation.Provides among causes room) (position : Nat)
    {steps : List (Step O)} (members : ∀ step ∈ steps, among step) (paired : ∀ step ∈ steps, step.Paired)
    (stack : List V) {state : σ} (left : room ((steps.map Prod.fst).count .operand) state) :
    ∀ halt, (interpretation.run position steps stack state).1 = .error halt → halt.Foreseen causes := by
  induction steps generalizing position stack state with
  | nil => exact nofun
  | cons step steps ih =>
    obtain ⟨member, members⟩ := List.forall_mem_cons.mp members
    obtain ⟨pairs, paired⟩ := List.forall_mem_cons.mp paired
    rw [List.map_cons, ← List.singleton_append, List.count_append] at left
    obtain ⟨refused, kept⟩ := provides.perform position member pairs stack
      (provides.note (.step position step.1 stack.length) left)
    unfold Interpretation.run
    split
    next below after performed =>
      rw [performed] at kept
      exact ih (position + 1) members paired below kept
    next halt last stopped =>
      rw [stopped] at refused
      exact foreseen_of_error (refused halt rfl)

end Interpretation

theorem Program.evaluate_foreseen {among : Step O → Prop} {causes : F → Prop} {room : Nat → σ → Prop}
    {interpretation : Interpretation σ O V F} (provides : interpretation.Provides among causes room)
    (program : Program O) (members : ∀ step ∈ program.steps, among step)
    (paired : ∀ step ∈ program.steps, step.Paired) (state : σ) (left : room program.operandCount state) :
    ∀ halt, (program.evaluate interpretation state).1 = .error halt → halt.Foreseen causes := by
  intro halt stopped
  obtain early | ⟨_, _, _, _, _, rfl⟩ := evaluate_eq_error.mp stopped
  · exact provides.run 0 members paired [] (by rwa [program.map_fst_steps]) halt early
  · trivial

theorem Recording.provides {V : Type} (unary : O → V → V) (binary : O → V → V → V) :
    (interpretation unary binary).Provides (fun _ => True) (fun _ => False)
      (fun count (recording : Recording O V) => count ≤ recording.supply.length) where
  next := by
    rintro count ⟨supply, events, log⟩ left
    cases supply with
    | nil => exact (Nat.not_succ_le_zero count left).elim
    | cons value rest => exact ⟨_, _, rfl, Nat.le_of_succ_le_succ left⟩
  unary _ _ _ _ left := ⟨nofun, left⟩
  binary _ _ _ _ _ left := ⟨nofun, left⟩
  note _ _ _ left := left

theorem Program.value_or_shape {V : Type} (program : Program O) (paired : ∀ step ∈ program.steps, step.Paired)
    (unary : O → V → V) (binary : O → V → V → V) {supply : List V}
    (enough : program.operandCount ≤ supply.length) (log : Log) :
    (∃ value, (program.evaluate (Recording.interpretation unary binary) (.start supply log)).1 = .ok value) ∨
      ∃ error,
        (program.evaluate (Recording.interpretation unary binary) (.start supply log)).1 = .error (.shape error) := by
  have foreseen := program.evaluate_foreseen (Recording.provides unary binary) (fun _ _ => trivial) paired
    (.start supply log) enough
  cases outcome : (program.evaluate (Recording.interpretation unary binary) (.start supply log)).1 with
  | ok value => exact .inl ⟨value, rfl⟩
  | error halt =>
    obtain ⟨error, rfl⟩ := Halt.exists_shape_of_foreseen (fun _ => id) (foreseen halt outcome)
    exact .inr ⟨error, rfl⟩

namespace Recording

variable {V : Type} (unary : O → V → V) (binary : O → V → V → V)

private theorem exists_perform (position : Nat) (step : Step O) {supplied : List V}
    (counted : [step.1].count .operand = supplied.length) (stack : List V) :
    ∃ outcome, ∀ (rest : List V) (recording : Recording O V), recording.supply = supplied ++ rest →
      ∃ last, (interpretation unary binary).perform position step stack recording = (outcome, last) ∧
        last.supply = rest := by
  obtain ⟨token, payload⟩ := step
  cases token with
  | operand =>
    obtain ⟨value, rfl⟩ := List.length_eq_one_iff.mp counted.symm
    refine ⟨.ok (value :: stack), ?_⟩
    rintro rest ⟨_, events, log⟩ rfl
    exact ⟨_, rfl, rfl⟩
  | unary tier =>
    cases List.length_eq_zero_iff.mp counted.symm
    cases payload with
    | none => exact ⟨.error .unpaired, fun rest recording held => ⟨recording, by cases stack <;> rfl, held⟩⟩
    | some payload =>
      cases stack with
      | nil => exact ⟨.error (.shape (.underflow position)), fun rest recording held => ⟨recording, rfl, held⟩⟩
      | cons value below => exact ⟨_, fun rest recording held => ⟨_, rfl, held⟩⟩
  | binary tier =>
    cases List.length_eq_zero_iff.mp counted.symm
    cases payload with
    | none => exact ⟨.error .unpaired, fun rest recording held => ⟨recording, by cases stack <;> rfl, held⟩⟩
    | some payload =>
      rcases stack with _ | ⟨second, _ | ⟨first, below⟩⟩
      · exact ⟨.error (.shape (.underflow position)), fun rest recording held => ⟨recording, rfl, held⟩⟩
      · exact ⟨.error (.shape (.underflow position)), fun rest recording held => ⟨recording, rfl, held⟩⟩
      · exact ⟨_, fun rest recording held => ⟨_, rfl, held⟩⟩

/-- A run takes as many values as it has operands. What comes after them makes no difference to it. -/
theorem exists_run (position : Nat) {steps : List (Step O)} {supplied : List V}
    (counted : (steps.map Prod.fst).count .operand = supplied.length) (stack : List V) :
    ∃ outcome, ∀ (rest : List V) (recording : Recording O V), recording.supply = supplied ++ rest →
      ∃ last, (interpretation unary binary).run position steps stack recording = (outcome, last) ∧
        ∀ below, outcome = .ok below → last.supply = rest := by
  induction steps generalizing position supplied stack with
  | nil =>
    cases List.length_eq_zero_iff.mp counted.symm
    refine ⟨.ok stack, fun rest recording held => ⟨recording, rfl, fun below _ => held⟩⟩
  | cons step steps ih =>
    rw [List.map_cons, ← List.singleton_append, List.count_append] at counted
    obtain ⟨here, later, rfl, own, others⟩ : ∃ here later : List V, supplied = here ++ later ∧
        [step.1].count .operand = here.length ∧ (steps.map Prod.fst).count .operand = later.length := by
      refine ⟨supplied.take ([step.1].count .operand), supplied.drop ([step.1].count .operand),
        (List.take_append_drop _ supplied).symm, ?_, ?_⟩
      · rw [List.length_take, ← counted, Nat.min_eq_left (Nat.le_add_right _ _)]
      · rw [List.length_drop, ← counted, Nat.add_sub_cancel_left]
    obtain ⟨outcome, performs⟩ := exists_perform unary binary position step own stack
    cases outcome with
    | ok below =>
      obtain ⟨outcome, runs⟩ := ih (position + 1) others below
      refine ⟨outcome, fun rest recording held => ?_⟩
      rw [List.append_assoc] at held
      obtain ⟨middle, performed, left⟩ := performs (later ++ rest)
        ((interpretation unary binary).note (.step position step.1 stack.length) recording) held
      rw [Interpretation.run, performed]
      exact runs rest middle left
    | error halt =>
      refine ⟨.error halt, fun rest recording held => ?_⟩
      rw [List.append_assoc] at held
      obtain ⟨last, performed, _⟩ := performs (later ++ rest)
        ((interpretation unary binary).note (.step position step.1 stack.length) recording) held
      rw [Interpretation.run, performed]
      exact ⟨last, rfl, fun below same => by cases same⟩

end Recording

end SignalStrip
