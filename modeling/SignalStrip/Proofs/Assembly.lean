import SignalStrip.Proofs.Listening
import SignalStrip.Proofs.Origins
import SignalStrip.Proofs.Supply

/-! Operations that are assembled key by key. Every key brings what it needs: an operand its producer, an operator
a payload of its own arity. Compilation keeps each payload with its token, so however the keys are pressed there
is nothing left to check that could fail. -/

namespace SignalStrip

variable {σ P S F : Type}

namespace SignalOperator

/-- There is a signal, or there are two, that the operator does not accept. -/
def Refuses (cause : F) : SignalOperator S F → Prop
  | unary apply => ∃ signal, apply signal = .error cause
  | binary apply => ∃ left right, apply left right = .error cause

end SignalOperator

def Step.Fits (step : Step (SignalOperator S F)) : Prop :=
  ∀ operator ∈ step.2, operator.isUnary = step.1.isUnary

theorem arityMismatch?_eq_none {position : Nat} {steps : List (Step (SignalOperator S F))}
    (fits : ∀ step ∈ steps, step.Fits) : arityMismatch? position steps = none := by
  induction steps generalizing position with
  | nil => rfl
  | cons step steps ih =>
    obtain ⟨here, others⟩ := List.forall_mem_cons.mp fits
    obtain ⟨token, payload⟩ := step
    cases payload with
    | none => exact ih others
    | some operator => rw [arityMismatch?, if_pos (here operator rfl), ih others]

theorem Listening.provides (studio : Studio σ P S) (among : SignalOperator S F → Prop) :
    (interpretation studio).Provides (fun step => step.Fits ∧ ∀ operator ∈ step.2, among operator)
      (fun fault => ∃ operator, among operator ∧ ∃ cause, operator.Refuses cause ∧ fault = .operator cause)
      (fun count (listening : Listening σ P) => count ≤ listening.pending.length) where
  next := by
    rintro count ⟨pending, world⟩ left
    cases pending with
    | nil => exact (Nat.not_succ_le_zero count left).elim
    | cons producer pending => exact ⟨_, _, rfl, Nat.le_of_succ_le_succ left⟩
  unary := by
    rintro tier operator ⟨fits, member⟩ signal count listening left
    cases operator with
    | binary apply => cases fits _ rfl
    | unary apply =>
      refine ⟨fun fault refused => ?_, left⟩
      cases outcome : apply signal with
      | ok value => simp [interpretation, outcome, Except.mapError] at refused
      | error cause =>
        simp only [interpretation, outcome, Except.mapError, Except.error.injEq] at refused
        exact ⟨_, member _ rfl, cause, ⟨signal, outcome⟩, refused.symm⟩
  binary := by
    rintro tier operator ⟨fits, member⟩ first second count listening left
    cases operator with
    | unary apply => cases fits _ rfl
    | binary apply =>
      refine ⟨fun fault refused => ?_, left⟩
      cases outcome : apply first second with
      | ok value => simp [interpretation, outcome, Except.mapError] at refused
      | error cause =>
        simp only [interpretation, outcome, Except.mapError, Except.error.injEq] at refused
        exact ⟨_, member _ rfl, cause, ⟨first, second, outcome⟩, refused.symm⟩
  note _ _ _ left := left

namespace Key

variable {O : Type}

def item (key : Key O) : Item O :=
  (key.token, key.payload?)

private theorem valid_item (key : Key O) : Item.Valid key.item := by
  cases key <;> exact ⟨rfl, nofun⟩

theorem valid_items (keys : List (Key O)) : ∀ item ∈ keys.map Key.item, Item.Valid item := by
  intro item member
  obtain ⟨key, _, rfl⟩ := List.mem_map.mp member
  exact key.valid_item

end Key

theorem Strip.foldl_press {O : Type} (keys : List (Key O)) (strip : Strip O) :
    keys.foldl press strip =
      ⟨strip.tokens ++ keys.map Key.token, strip.payloads ++ keys.filterMap Key.payload?⟩ := by
  induction keys generalizing strip with
  | nil => simp
  | cons key keys ih =>
    rw [List.foldl_cons, ih]
    cases brought : key.payload? <;> simp [press, brought]

theorem Strip.ofKeys_eq {O : Type} (keys : List (Key O)) :
    ofKeys keys = ⟨(keys.map Key.item).map Prod.fst, (keys.map Key.item).filterMap Prod.snd⟩ := by
  rw [ofKeys, foldl_press, List.map_map, List.filterMap_map]
  rfl

/-- Pressed keys always compile, to the steps of what they bring. -/
theorem Strip.compile_ofKeys {O : Type} (keys : List (Key O)) :
    ∃ program, (ofKeys keys).compile = .ok program ∧
      program.steps = Item.steps (Waiting.order (keys.map Key.item) []) := by
  refine ⟨_, ?_, steps_emitted_order (Key.valid_items keys)⟩
  rw [ofKeys_eq]
  exact compile_of_valid (Key.valid_items keys)

namespace OperationKey

def item (key : OperationKey P S F) : Item (SignalOperator S F) :=
  key.toKey.item

private theorem step?_item_fits {key : OperationKey P S F} {step : Step (SignalOperator S F)}
    (kept : key.item.step? = some step) :
    step.Paired ∧ step.Fits ∧ ∀ operator ∈ step.2, operator ∈ key.toKey.payload? := by
  cases key <;> cases kept <;> refine ⟨rfl, ?_, ?_⟩ <;> rintro operator ⟨⟩ <;> rfl

private theorem count_operand (keys : List (OperationKey P S F)) :
    ((keys.map item).map Prod.fst).count .operand = (keys.filterMap producer?).length := by
  rw [List.map_map, List.count, List.countP_map, List.length_filterMap_eq_countP]
  congr 1
  funext key
  cases key <;> rfl

end OperationKey

namespace OperationBuilder

private theorem strip_foldl (keys : List (OperationKey P S F)) (builder : OperationBuilder P S F) :
    (keys.foldl press builder).strip = (keys.map OperationKey.toKey).foldl Strip.press builder.strip := by
  induction keys generalizing builder with
  | nil => rfl
  | cons key keys ih => exact ih _

theorem strip_ofKeys (keys : List (OperationKey P S F)) :
    (ofKeys keys).strip = .ofKeys (keys.map OperationKey.toKey) :=
  strip_foldl keys empty

theorem producers_ofKeys (keys : List (OperationKey P S F)) :
    (ofKeys keys).producers = keys.filterMap OperationKey.producer? :=
  producers_foldl keys empty

private theorem exists_steps_of_build (keys : List (OperationKey P S F)) (log : Log) :
    ∃ program last,
      (ofKeys keys).build log = (.ok ⟨program, keys.filterMap OperationKey.producer?⟩, last) ∧
      program.operandCount = (keys.filterMap OperationKey.producer?).length ∧
      ∀ step ∈ program.steps, ∃ key ∈ keys, key.item.step? = some step := by
  obtain ⟨program, compiles, steps⟩ := Strip.compile_ofKeys (keys.map OperationKey.toKey)
  rw [List.map_map] at steps
  change program.steps = Item.steps (Waiting.order (keys.map OperationKey.item) []) at steps
  have pressed : ∀ step ∈ program.steps, ∃ key ∈ keys, key.item.step? = some step := by
    intro step member
    rw [steps, Item.steps, List.mem_filterMap] at member
    obtain ⟨item, among, kept⟩ := member
    have written : item ∈ keys.map OperationKey.item := by simpa [Waiting.mem_order] using among
    obtain ⟨key, member, rfl⟩ := List.mem_map.mp written
    exact ⟨key, member, kept⟩
  have counted : program.operandCount = (keys.filterMap OperationKey.producer?).length := by
    rw [Program.operandCount, ← program.map_fst_steps, steps,
      ((Waiting.steps_order_perm _).map Prod.fst).count_eq, Item.count_operand_steps,
      OperationKey.count_operand]
  have fits : ∀ step ∈ program.steps, step.Fits := by
    intro step member
    obtain ⟨key, _, kept⟩ := pressed step member
    exact (OperationKey.step?_item_fits kept).2.1
  rw [Strip.compile] at compiles
  refine ⟨program, log.push (.compiled (ofKeys keys).strip.tokens.length program.tokens), ?_, counted, pressed⟩
  rw [build, strip_ofKeys, Strip.compileLogged, compileLogged, compiles]
  simp only [producers_ofKeys, Operation.ofProgram, if_pos counted, arityMismatch?_eq_none fits]

private theorem halt_of_currentValue {keys : List (OperationKey P S F)} (operation : Operation P S F)
    (counted : operation.program.operandCount = operation.producers.length)
    (pressed : ∀ step ∈ operation.program.steps, ∃ key ∈ keys, key.item.step? = some step)
    (studio : Studio σ P S) (world : σ) :
    ∀ halt, (operation.currentValue studio world).1 = .error halt →
      halt.Foreseen fun fault => ∃ operator, (∃ key ∈ keys, operator ∈ key.toKey.payload?) ∧
        ∃ cause, operator.Refuses cause ∧ fault = .operator cause := by
  have members : ∀ step ∈ operation.program.steps, step.Paired ∧ step.Fits ∧
      ∀ operator ∈ step.2, ∃ key ∈ keys, operator ∈ key.toKey.payload? := by
    intro step member
    obtain ⟨key, among, kept⟩ := pressed step member
    obtain ⟨paired, fits, brought⟩ := OperationKey.step?_item_fits kept
    exact ⟨paired, fits, fun operator here => ⟨key, among, brought operator here⟩⟩
  rw [Operation.currentValue, evaluateOperations, if_pos counted]
  exact Program.evaluate_foreseen (Listening.provides studio _) _ (fun step member => (members step member).2)
    (fun step member => (members step member).1) _ (Nat.le_of_eq counted)

theorem currentValue_of_no_steps {operation : Operation P S F}
    (counted : operation.program.operandCount = operation.producers.length)
    (none : operation.program.steps = []) (studio : Studio σ P S) (world : σ) :
    (operation.currentValue studio world).1 = .error (.shape .emptyExpression) := by
  rw [Operation.currentValue, evaluateOperations, if_pos counted]
  simp [Program.evaluate, none, Interpretation.run, soleValue, Except.mapError]

/-- However its keys are pressed, an operation is built, and nothing but the operators it was given can refuse an
evaluation. Where none of them does, there is a signal or an answer about the shape of the strip. -/
theorem exists_build (keys : List (OperationKey P S F)) (log : Log) :
    ∃ operation last, (ofKeys keys).build log = (.ok operation, last) ∧
      ∀ {σ : Type} (studio : Studio σ P S) (world : σ),
        (∀ halt, (operation.currentValue studio world).1 = .error halt →
          (∃ error, halt = .shape error) ∨ ∃ cause, halt = .fault (.operator cause) ∧
            ∃ key ∈ keys, ∃ operator ∈ key.toKey.payload?, operator.Refuses cause) ∧
        ((∀ key ∈ keys, ∀ operator ∈ key.toKey.payload?, ∀ cause, ¬ operator.Refuses cause) →
          (∃ signal, (operation.currentValue studio world).1 = .ok signal) ∨
            ∃ error, (operation.currentValue studio world).1 = .error (.shape error)) ∧
        ((∀ key ∈ keys, key = .leftParen ∨ key = .rightParen) →
          (operation.currentValue studio world).1 = .error (.shape .emptyExpression)) := by
  obtain ⟨program, last, builds, counted, pressed⟩ := exists_steps_of_build keys log
  refine ⟨_, last, builds, fun studio world => ?_⟩
  have foreseen := halt_of_currentValue ⟨program, _⟩ counted pressed studio world
  refine ⟨fun halt stopped => ?_, fun accepting => ?_, fun parens => ?_⟩
  · cases halt with
    | shape error => exact .inl ⟨error, rfl⟩
    | fault fault =>
      obtain ⟨operator, ⟨key, member, brought⟩, cause, refuses, rfl⟩ := foreseen _ stopped
      exact .inr ⟨cause, rfl, key, member, operator, brought, refuses⟩
    | exhausted _ | unpaired => exact (foreseen _ stopped).elim
  · cases outcome : (Operation.currentValue ⟨program, _⟩ studio world).1 with
    | ok signal => exact .inl ⟨signal, rfl⟩
    | error halt =>
      obtain ⟨error, rfl⟩ := Halt.exists_shape_of_foreseen (by
        rintro fault ⟨operator, ⟨key, member, brought⟩, cause, refuses, _⟩
        exact accepting key member operator brought cause refuses) (foreseen halt outcome)
      exact .inr ⟨error, rfl⟩
  · apply currentValue_of_no_steps counted
    apply List.eq_nil_iff_forall_not_mem.mpr
    intro step member
    obtain ⟨key, among, kept⟩ := pressed step member
    rcases parens key among with rfl | rfl <;> cases kept

/-- Operators before, after and without their operands, between parens that do not pair up. -/
theorem exists_build_misplaced :
    let keys : List (OperationKey String Int String) :=
      [.rightParen, .unary .first fun signal => .ok (-signal), .leftParen,
        .binary .second fun left right => .ok (left * right), .operand "n"]
    (∀ key ∈ keys, ∀ operator ∈ key.toKey.payload?, ∀ cause, ¬ operator.Refuses cause) ∧
      ∃ operation last, (ofKeys keys).build #[] = (.ok operation, last) ∧
        ∀ {σ : Type} (studio : Studio σ String Int) (world : σ),
          (∃ signal, (operation.currentValue studio world).1 = .ok signal) ∨
            ∃ error, (operation.currentValue studio world).1 = .error (.shape error) := by
  intro keys
  have accepting : ∀ key ∈ keys, ∀ operator ∈ key.toKey.payload?, ∀ cause, ¬ operator.Refuses cause := by
    simp [keys, OperationKey.toKey, Key.payload?, SignalOperator.Refuses]
  obtain ⟨operation, last, builds, values⟩ := exists_build keys #[]
  exact ⟨accepting, operation, last, builds, fun studio world => (values studio world).2.1 accepting⟩

end OperationBuilder

end SignalStrip
