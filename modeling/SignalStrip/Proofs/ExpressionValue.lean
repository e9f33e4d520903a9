import SignalStrip.Proofs.Supply

/-! Values of expressions. A program has a value exactly when its steps are the postorder of an
expression, and then it has the value of that expression. -/

namespace SignalStrip

variable {σ O V F : Type}

namespace Interpretation

variable (interpretation : Interpretation σ O V F)

private theorem graft_of_perform {position : Nat} {step : Step O} {stack after : List V} {state last : σ}
    (performed : interpretation.perform position step stack state = (.ok after, last))
    (operand : step.1 = .operand → step.2 = none) {forest : List (Expression O)}
    (level : forest.length = stack.length) :
    ∃ grown, Expression.graft forest step = some grown ∧ grown.length = after.length := by
  obtain ⟨token, payload⟩ := step
  cases token with
  | operand =>
    cases operand rfl
    simp only [perform] at performed
    split at performed <;> cases performed
    exact ⟨_, rfl, by simp [level]⟩
  | unary tier =>
    cases payload with
    | none => simp [perform] at performed
    | some payload =>
      cases stack with
      | nil => simp [perform] at performed
      | cons value below =>
        obtain ⟨inner, rest, rfl⟩ := List.exists_cons_of_length_eq_add_one level
        refine ⟨_, rfl, ?_⟩
        rw [length_of_settle performed]
        simpa using level
  | binary tier =>
    cases payload with
    | none => simp [perform] at performed
    | some payload =>
      rcases stack with _ | ⟨second, _ | ⟨first, below⟩⟩
      · simp [perform] at performed
      · simp [perform] at performed
      · obtain ⟨right, others, rfl⟩ := List.exists_cons_of_length_eq_add_one level
        obtain ⟨left, rest, rfl⟩ := List.exists_cons_of_length_eq_add_one (Nat.succ.inj level)
        refine ⟨_, rfl, ?_⟩
        rw [length_of_settle performed]
        simpa using level

private theorem grow_of_run {position : Nat} {steps : List (Step O)} {stack after : List V} {state last : σ}
    (runs : interpretation.run position steps stack state = (.ok after, last))
    (operands : ∀ step ∈ steps, step.1 = .operand → step.2 = none) (forest : List (Expression O))
    (level : forest.length = stack.length) :
    ∃ grown, Expression.grow steps forest = some grown ∧ grown.length = after.length := by
  induction steps generalizing position stack state forest with
  | nil =>
    cases runs
    exact ⟨forest, rfl, level⟩
  | cons step steps ih =>
    simp only [run] at runs
    split at runs
    next next performed =>
      obtain ⟨middle, here, same⟩ :=
        interpretation.graft_of_perform performed (operands step (by simp)) level
      obtain ⟨grown, later, size⟩ :=
        ih runs (fun step member => operands step (by simp [member])) middle same
      exact ⟨grown, by simp [here, later], size⟩
    next => cases runs

end Interpretation

theorem Program.exists_postorder {program : Program O} {interpretation : Interpretation σ O V F}
    {state : σ} {value : V} (evaluates : (program.evaluate interpretation state).1 = .ok value) :
    ∃ tree : Expression O, tree.postorder = program.steps := by
  obtain ⟨last, runs⟩ := evaluate_eq_ok.mp evaluates
  obtain ⟨grown, reads, size⟩ :=
    interpretation.grow_of_run runs program.payload_of_operand [] rfl
  obtain ⟨tree, rfl⟩ := List.length_eq_one_iff.mp size
  exact ⟨tree, Expression.postorder_of_grow reads⟩

namespace Expression

variable (unary : O → V → V) (binary : O → V → V → V)

/-- The value of an expression whose operands take the supplied values from left to right, and the values
that are left over. There is none if the supply is too short. -/
def value : Expression O → List V → Option (V × List V)
  | operand, [] => none
  | operand, value :: rest => some (value, rest)
  | .unary _ payload inner, supply =>
    (inner.value supply).map fun (value, rest) => (unary payload value, rest)
  | .binary _ payload left right, supply =>
    (left.value supply).bind fun (first, supply) =>
      (right.value supply).map fun (second, rest) => (binary payload first second, rest)

theorem exists_value (tree : Expression O) (supply : List V)
    (enough : tree.operandCount ≤ supply.length) :
    ∃ value, tree.value unary binary supply = some (value, supply.drop tree.operandCount) := by
  induction tree generalizing supply with
  | operand =>
    cases supply with
    | nil => simp [operandCount] at enough
    | cons value rest => exact ⟨value, rfl⟩
  | unary tier payload inner ih =>
    obtain ⟨value, inside⟩ := ih supply enough
    exact ⟨_, by simp only [Expression.value, inside, Option.map_some]; rfl⟩
  | binary tier payload left right ihLeft ihRight =>
    simp only [operandCount] at enough
    obtain ⟨first, onLeft⟩ := ihLeft supply (by omega)
    obtain ⟨second, onRight⟩ := ihRight (supply.drop left.operandCount) (by
      rw [List.length_drop]
      omega)
    refine ⟨binary payload first second, ?_⟩
    simp [Expression.value, onLeft, onRight, operandCount, List.drop_drop]

theorem value_append (tree : Expression O) {supply left : List V} {value : V}
    (known : tree.value unary binary supply = some (value, left)) (rest : List V) :
    tree.value unary binary (supply ++ rest) = some (value, left ++ rest) := by
  induction tree generalizing supply left value with
  | operand =>
    cases supply with
    | nil => cases known
    | cons first others =>
      cases known
      rfl
  | unary tier payload inner ih =>
    obtain ⟨⟨operand, others⟩, inside, same⟩ := Option.map_eq_some_iff.mp known
    cases same
    rw [Expression.value, ih inside]
    rfl
  | binary tier payload left right ihLeft ihRight =>
    obtain ⟨⟨first, others⟩, onLeft, later⟩ := Option.bind_eq_some_iff.mp known
    obtain ⟨⟨second, others⟩, onRight, same⟩ := Option.map_eq_some_iff.mp later
    cases same
    simp only [Expression.value, ihLeft onLeft, Option.bind_some, ihRight onRight, Option.map_some]

theorem forall_value (holds : V → Prop) (onUnary : ∀ payload value, holds value → holds (unary payload value))
    (onBinary : ∀ payload left right, holds left → holds right → holds (binary payload left right))
    (tree : Expression O) {supply rest : List V} {value : V}
    (known : tree.value unary binary supply = some (value, rest)) (all : ∀ operand ∈ supply, holds operand) :
    holds value ∧ ∀ operand ∈ rest, holds operand := by
  induction tree generalizing supply rest value with
  | operand =>
    cases supply with
    | nil => cases known
    | cons first others =>
      cases known
      exact List.forall_mem_cons.mp all
  | unary tier payload inner ih =>
    obtain ⟨⟨operand, others⟩, inside, same⟩ := Option.map_eq_some_iff.mp known
    cases same
    obtain ⟨held, left⟩ := ih inside all
    exact ⟨onUnary payload operand held, left⟩
  | binary tier payload left right ihLeft ihRight =>
    obtain ⟨⟨first, others⟩, onLeft, later⟩ := Option.bind_eq_some_iff.mp known
    obtain ⟨⟨second, others⟩, onRight, same⟩ := Option.map_eq_some_iff.mp later
    cases same
    obtain ⟨heldLeft, left⟩ := ihLeft onLeft all
    obtain ⟨heldRight, left⟩ := ihRight onRight left
    exact ⟨onBinary payload first second heldLeft heldRight, left⟩

theorem run_postorder (tree : Expression O) {supply rest : List V} {value : V}
    (known : tree.value unary binary supply = some (value, rest)) (position : Nat) (stack : List V)
    (recording : Recording O V) (held : recording.supply = supply) :
    ∃ last,
      (Recording.interpretation unary binary).run position tree.postorder stack recording =
        (.ok (value :: stack), last) ∧ last.supply = rest := by
  induction tree generalizing supply rest value position stack recording with
  | operand =>
    cases supply with
    | nil => cases known
    | cons first others =>
      cases known
      obtain ⟨_, events, log⟩ := recording
      cases held
      exact ⟨_, rfl, rfl⟩
  | unary tier payload inner ih =>
    obtain ⟨⟨operand, others⟩, inside, same⟩ := Option.map_eq_some_iff.mp known
    cases same
    obtain ⟨middle, runs, left⟩ := ih inside position stack recording held
    rw [postorder, Interpretation.run_append, runs]
    exact ⟨_, rfl, left⟩
  | binary tier payload left right ihLeft ihRight =>
    obtain ⟨⟨first, others⟩, onLeft, later⟩ := Option.bind_eq_some_iff.mp known
    obtain ⟨⟨second, others⟩, onRight, same⟩ := Option.map_eq_some_iff.mp later
    cases same
    obtain ⟨middle, runsLeft, kept⟩ := ihLeft onLeft position stack recording held
    obtain ⟨final, runsRight, spared⟩ :=
      ihRight onRight (position + left.postorder.length) (first :: stack) middle kept
    rw [postorder, List.append_assoc, Interpretation.run_append, runsLeft]
    simp only
    rw [Interpretation.run_append, runsRight]
    exact ⟨_, rfl, spared⟩

theorem evaluate_of_postorder {program : Program O} {tree : Expression O}
    (steps : tree.postorder = program.steps) {supply rest : List V} {value : V}
    (known : tree.value unary binary supply = some (value, rest)) (log : Log) :
    (program.evaluate (Recording.interpretation unary binary) (.start supply log)).1 = .ok value := by
  obtain ⟨last, runs, _⟩ :=
    tree.run_postorder unary binary known 0 [] (.start supply log) rfl
  exact Program.evaluate_eq_ok.mpr ⟨last, steps ▸ runs⟩

theorem value_of_run (tree : Expression O) {position : Nat} {stack after : List V}
    {recording last : Recording O V}
    (runs : (Recording.interpretation unary binary).run position tree.postorder stack recording =
      (.ok after, last)) :
    ∃ value, tree.value unary binary recording.supply = some (value, last.supply) ∧
      after = value :: stack := by
  induction tree generalizing position stack after recording last with
  | operand =>
    obtain ⟨supply, events, log⟩ := recording
    cases supply with
    | nil => cases runs
    | cons value rest =>
      cases runs
      exact ⟨value, rfl, rfl⟩
  | unary tier payload inner ih =>
    rw [postorder, Interpretation.run_append] at runs
    split at runs
    next ran =>
      obtain ⟨value, known, rfl⟩ := ih ran
      cases runs
      exact ⟨unary payload value, by rw [Expression.value, known]; rfl, rfl⟩
    next => cases runs
  | binary tier payload left right ihLeft ihRight =>
    rw [postorder, List.append_assoc, Interpretation.run_append] at runs
    split at runs
    next ran =>
      obtain ⟨first, onLeft, rfl⟩ := ihLeft ran
      rw [Interpretation.run_append] at runs
      split at runs
      next ran =>
        obtain ⟨second, onRight, rfl⟩ := ihRight ran
        cases runs
        exact ⟨binary payload first second, by simp [Expression.value, onLeft, onRight]; rfl, rfl⟩
      next => cases runs
    next => cases runs

theorem value_of_evaluate {program : Program O} {tree : Expression O}
    (steps : tree.postorder = program.steps) {supply : List V} {log : Log} {value : V}
    (evaluates : (program.evaluate (Recording.interpretation unary binary) (.start supply log)).1 =
      .ok value) :
    ∃ rest, tree.value unary binary supply = some (value, rest) := by
  obtain ⟨last, runs⟩ := Program.evaluate_eq_ok.mp evaluates
  rw [← steps] at runs
  obtain ⟨_, known, same⟩ := tree.value_of_run unary binary runs
  cases same
  exact ⟨last.supply, known⟩

theorem operandCount_of_postorder {program : Program O} {tree : Expression O}
    (steps : tree.postorder = program.steps) : program.operandCount = tree.operandCount := by
  rw [Program.operandCount, ← Program.map_fst_steps, ← steps, count_operand_postorder]

end Expression

/-- Of an expression inside a program nothing but its value matters. -/
theorem Program.evaluate_eq_of_value_eq {program : Program O} {before after : List (Step O)} {tree : Expression O}
    (parted : program.steps = before ++ tree.postorder ++ after) (unary : O → V → V) (binary : O → V → V → V)
    {first inner changed rest : List V} {value : V}
    (counted : (before.map Prod.fst).count .operand = first.length)
    (countedAfter : (after.map Prod.fst).count .operand = rest.length)
    (known : tree.value unary binary inner = some (value, []))
    (also : tree.value unary binary changed = some (value, [])) (log : Log) :
    (program.evaluate (Recording.interpretation unary binary) (.start (first ++ inner ++ rest) log)).1 =
      (program.evaluate (Recording.interpretation unary binary) (.start (first ++ changed ++ rest) log)).1 := by
  obtain ⟨outcome, ran⟩ := Recording.exists_run unary binary 0 counted []
  have settles : ∃ result, ∀ held, tree.value unary binary held = some (value, []) →
      (program.evaluate (Recording.interpretation unary binary) (.start (first ++ held ++ rest) log)).1 = result := by
    cases outcome with
    | error halt =>
      refine ⟨.error halt, fun held values => ?_⟩
      obtain ⟨last, stopped, _⟩ := ran (held ++ rest) (.start (first ++ held ++ rest) log) (List.append_assoc ..)
      rw [Program.evaluate_eq, parted, List.append_assoc, Interpretation.run_append, stopped]
      rfl
    | ok below =>
      obtain ⟨outcome, goesOn⟩ := Recording.exists_run unary binary
        (0 + before.length + tree.postorder.length) countedAfter (value :: below)
      refine ⟨outcome.bind fun stack => (soleValue stack).mapError .shape, fun held values => ?_⟩
      obtain ⟨middle, reached, left⟩ :=
        ran (held ++ rest) (.start (first ++ held ++ rest) log) (List.append_assoc ..)
      obtain ⟨settled, valued, spared⟩ := tree.run_postorder unary binary
        (tree.value_append unary binary values rest) (0 + before.length) below middle (left below rfl)
      obtain ⟨last, ends, _⟩ := goesOn [] settled (by simpa using spared)
      rw [Program.evaluate_eq, parted, List.append_assoc, Interpretation.run_append, reached]
      simp only
      rw [Interpretation.run_append, valued]
      simp only [ends]
  obtain ⟨result, same⟩ := settles
  rw [same inner known, same changed also]

/-- The evaluator accepts exactly the postorders of expressions, each of them for one expression only, and
computes the value of that expression. -/
theorem Program.evaluate_eq_ok_iff_postorder (program : Program O) (unary : O → V → V)
    (binary : O → V → V → V) {supply : List V} (enough : program.operandCount ≤ supply.length)
    (log : Log) :
    (∀ value,
      (program.evaluate (Recording.interpretation unary binary) (.start supply log)).1 = .ok value ↔
        ∃ tree : Expression O, (∀ other, other.postorder = program.steps ↔ other = tree) ∧
          tree.value unary binary supply = some (value, supply.drop program.operandCount)) ∧
    ((∃ value,
      (program.evaluate (Recording.interpretation unary binary) (.start supply log)).1 = .ok value) ↔
        ∃ tree : Expression O, tree.postorder = program.steps) := by
  have computed (tree : Expression O) (steps : tree.postorder = program.steps) :
      ∃ value, tree.value unary binary supply = some (value, supply.drop program.operandCount) ∧
        (program.evaluate (Recording.interpretation unary binary) (.start supply log)).1 = .ok value := by
    have count := Expression.operandCount_of_postorder steps
    obtain ⟨value, known⟩ := tree.exists_value unary binary supply (by omega)
    exact ⟨value, count ▸ known, tree.evaluate_of_postorder unary binary steps known log⟩
  refine ⟨fun value => ⟨fun evaluates => ?_, fun ⟨tree, unique, known⟩ => ?_⟩,
    fun ⟨value, evaluates⟩ => exists_postorder evaluates, fun ⟨tree, steps⟩ => ?_⟩
  · obtain ⟨tree, steps⟩ := exists_postorder evaluates
    obtain ⟨result, known, same⟩ := computed tree steps
    cases same.symm.trans evaluates
    refine ⟨tree, fun other => ⟨fun again => ?_, fun same => same ▸ steps⟩, known⟩
    exact Expression.postorder_injective (again.trans steps.symm)
  · exact tree.evaluate_of_postorder unary binary ((unique tree).mpr rfl) known log
  · obtain ⟨value, _, evaluates⟩ := computed tree steps
    exact ⟨value, evaluates⟩

theorem Program.evaluate_difference :
    let program : Program String := ⟨[.operand, .operand, .binary .first], ["-"]⟩
    program.operandCount ≤ [5, 3].length ∧
      ∃ tree : Expression String, (∀ other, other.postorder = program.steps ↔ other = tree) ∧
        tree.value (fun _ value => value) (fun _ left right => left - right) [5, 3] = some (2, []) := by
  intro program
  have enough : program.operandCount ≤ [5, 3].length := by decide
  exact ⟨enough, ((program.evaluate_eq_ok_iff_postorder _ _ enough #[]).1 2).mp rfl⟩

end SignalStrip
