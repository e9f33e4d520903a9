import SignalStrip.Proofs.ExpressionValue
import SignalStrip.Proofs.TermRequests
import SignalStrip.Proofs.TermValue

/-! Tags of terms. Whether a term is tagged zero follows from the tags of the operands, whatever the samples are, and
so do the shortcuts that are taken and the use that is made of a cache. A product with a term that is tagged zero is
tagged zero, so nothing shows of what the other factor was made of. -/

namespace SignalStrip

variable {A : Type}

namespace Term

/-- The same tag and as many samples, whatever the samples are. -/
structure Alike (term other : Term A) : Prop where
  length : term.length = other.length
  tag : term.isZero = other.isZero

private theorem Alike.zero_or_data {term other : Term A} (alike : term.Alike other) :
    (∃ length, term = .zero length ∧ other = .zero length) ∨
      ∃ samples name others beside, term = .data samples name ∧ other = .data others beside := by
  obtain ⟨length, tag⟩ := alike
  cases term <;> cases other
  · cases length
    exact .inl ⟨_, rfl, rfl⟩
  · cases tag
  · cases tag
  · exact .inr ⟨_, _, _, _, rfl, rfl⟩

private theorem forall₂_alike {dimension : Nat} {terms others : List (Term A)}
    (lengths : ∀ term ∈ terms, term.length = dimension) (besides : ∀ term ∈ others, term.length = dimension)
    (tags : terms.map isZero = others.map isZero) :
    List.Forall₂ (fun term other => term.length = dimension ∧ term.Alike other) terms others := by
  induction terms generalizing others with
  | nil =>
    cases List.map_eq_nil_iff.mp tags.symm
    exact .nil
  | cons term terms ih =>
    obtain ⟨other, others, rfl, tag, tags⟩ := List.map_eq_cons_iff.mp tags.symm
    obtain ⟨length, lengths⟩ := List.forall_mem_cons.mp lengths
    obtain ⟨beside, besides⟩ := List.forall_mem_cons.mp besides
    exact .cons ⟨length, length.trans beside.symm, tag.symm⟩ (ih lengths besides tags.symm)

end Term

namespace TermOp
open Term

private theorem shortcut?_alike (op : TermOp) {left right other beside : Term A} (onLeft : left.Alike other)
    (onRight : right.Alike beside) :
    Option.Rel (fun taken also => taken.1 = also.1 ∧ taken.2.Alike also.2) (op.shortcut? left right)
      (op.shortcut? other beside) := by
  obtain ⟨size, rfl, rfl⟩ | ⟨_, _, _, _, rfl, rfl⟩ := onLeft.zero_or_data <;>
    obtain ⟨count, rfl, rfl⟩ | ⟨_, _, _, _, rfl, rfl⟩ := onRight.zero_or_data <;> cases op
  all_goals first
    | exact .none
    | exact .some ⟨rfl, ⟨rfl, rfl⟩⟩
    | exact .some ⟨rfl, onLeft⟩
    | exact .some ⟨rfl, onRight⟩

variable [Sample A]

theorem apply_alike (op : TermOp) {left right other beside : Term A} (onLeft : left.Alike other)
    (onRight : right.Alike beside) (same : left.length = right.length) (log : Log) :
    Answers Alike (fun _ _ => False) Eq (op.apply left right log) (op.apply other beside log) := by
  have also : other.length = beside.length := onLeft.length.symm.trans (same.trans onRight.length)
  have taken := op.shortcut?_alike onLeft onRight
  rw [apply, apply, if_pos same, if_pos also]
  generalize op.shortcut? left right = shortcut, op.shortcut? other beside = opposite at taken
  cases taken with
  | none =>
    refine .ok ⟨?_, rfl⟩ rfl
    show (List.zipWith op.scalar _ _).length = (List.zipWith op.scalar _ _).length
    simp only [List.length_zipWith, length_samples, onLeft.length, onRight.length]
  | @some first second both =>
    obtain ⟨_, term⟩ := first
    obtain ⟨record, _⟩ := second
    obtain ⟨rfl, alike⟩ := both
    exact .ok alike rfl

/-- What an operator gives for terms of one length. -/
def combine (op : TermOp) (left right : Term A) : Term A :=
  match op.shortcut? left right with
  | some (_, term) => term
  | none => .data (List.zipWith op.scalar left.samples right.samples) none

private theorem exists_apply_combine (op : TermOp) {left right : Term A} (same : left.length = right.length)
    (log : Log) : ∃ after, op.apply left right log = (.ok (op.combine left right), after) := by
  rw [apply, if_pos same, combine]
  cases op.shortcut? left right with
  | none => exact ⟨_, rfl⟩
  | some taken => exact ⟨_, rfl⟩

private theorem length_combine (op : TermOp) {left right : Term A} (same : left.length = right.length) :
    (op.combine left right).length = left.length := by
  obtain ⟨after, applies⟩ := op.exists_apply_combine same #[]
  obtain ⟨term, _, again, length, _⟩ := op.exists_apply same #[]
  cases applies.symm.trans again
  exact length

private theorem combine_multiply_zero {left right : Term A} (same : left.length = right.length)
    (vanishes : left.isZero ∨ right.isZero) : multiply.combine left right = .zero left.length := by
  cases left with
  | zero size => rfl
  | data samples name =>
    cases right with
    | zero size =>
      rw [same]
      rfl
    | data others beside => obtain ⟨⟨⟩⟩ | ⟨⟨⟩⟩ := vanishes

end TermOp

namespace TermSupply

variable [Sample A]

theorem corresponds_alike (dimension : Nat) :
    Interpretation.Corresponds (fun step => step.1.isUnary = false)
      (fun term other : Term A => term.length = dimension ∧ term.Alike other) Eq
      (fun supply beside =>
        List.Forall₂ (fun term other => term.length = dimension ∧ term.Alike other) supply.terms beside.terms ∧
          supply.log = beside.log)
      interpretation interpretation where
  next := by
    intro supply beside kept
    obtain ⟨terms, log⟩ := supply
    obtain ⟨others, _⟩ := beside
    obtain ⟨level, rfl⟩ := kept
    cases level with
    | nil => exact .none
    | cons same level => exact .some ⟨same, level, rfl⟩
  unary step := nomatch step
  binary := by
    intro tier op left right other also supply beside _ onLeft onRight kept
    obtain ⟨terms, log⟩ := supply
    obtain ⟨others, _⟩ := beside
    obtain ⟨length, onLeft⟩ := onLeft
    obtain ⟨size, onRight⟩ := onRight
    obtain ⟨level, rfl⟩ := kept
    have same := length.trans size.symm
    obtain ⟨after, applies⟩ := op.exists_apply_combine same log
    have answers := op.apply_alike onLeft onRight same log
    simp only [interpretation]
    rw [applies] at answers ⊢
    generalize op.apply other also log = outcome at answers
    cases answers with
    | ok alike kept => exact .ok ⟨(op.length_combine same).trans length, alike⟩ ⟨level, kept⟩
  note record _ _ kept := ⟨kept.1, congrArg (fun log => log.push record) kept.2⟩

theorem corresponds_combine (dimension : Nat) :
    Interpretation.Corresponds (fun step => step.1.isUnary = false)
      (fun term other : Term A => term = other ∧ term.length = dimension) (fun _ _ => False)
      (fun supply recording =>
        List.Forall₂ (fun term other => term = other ∧ term.length = dimension) supply.terms recording.supply)
      interpretation (Recording.interpretation (fun _ => id) TermOp.combine) where
  next := by
    intro supply recording level
    obtain ⟨terms, log⟩ := supply
    obtain ⟨others, events, _⟩ := recording
    cases level with
    | nil => exact .none
    | cons same level => exact .some ⟨same, level⟩
  unary step := nomatch step
  binary := by
    intro tier op left right _ _ supply recording _ onLeft onRight level
    obtain ⟨rfl, length⟩ := onLeft
    obtain ⟨rfl, size⟩ := onRight
    have same := length.trans size.symm
    obtain ⟨after, applies⟩ := op.exists_apply_combine same supply.log
    simp only [interpretation, applies]
    exact .ok ⟨rfl, (op.length_combine same).trans length⟩ level
  note _ _ _ level := level

end TermSupply

/-- A product inside a program: where its steps stand, and which operands they take for either factor. -/
structure Product (program : Program TermOp) (operands : List (Term A)) where
  before : List (Step TermOp)
  after : List (Step TermOp)
  tier : Tier
  left : Expression TermOp
  right : Expression TermOp
  first : List (Term A)
  onLeft : List (Term A)
  onRight : List (Term A)
  rest : List (Term A)
  parted : program.steps = before ++ (Expression.binary tier .multiply left right).postorder ++ after
  supplied : operands = first ++ (onLeft ++ onRight) ++ rest
  counted : (before.map Prod.fst).count .operand = first.length
  countedLeft : left.operandCount = onLeft.length
  countedRight : right.operandCount = onRight.length

namespace Product

variable {program : Program TermOp} {operands : List (Term A)}

def withLeft (product : Product program operands) (changed : List (Term A)) : List (Term A) :=
  product.first ++ (changed ++ product.onRight) ++ product.rest

def withRight (product : Product program operands) (changed : List (Term A)) : List (Term A) :=
  product.first ++ (product.onLeft ++ changed) ++ product.rest

private theorem mem_steps (product : Product program operands) {step : Step TermOp}
    (member : step ∈ product.left.postorder ∨ step ∈ product.right.postorder) : step ∈ program.steps := by
  rw [product.parted, Expression.postorder]
  simp only [List.mem_append]
  exact .inl (.inr (.inl member))

private theorem isEmpty_eq_false (product : Product program operands) : program.isEmpty = false := by
  have steps : program.length ≠ 0 := by
    rw [← program.length_steps, product.parted, Expression.postorder]
    simp
  exact List.isEmpty_eq_false_iff.mpr (List.length_pos_iff.mp (Nat.pos_of_ne_zero steps))

private theorem counted_after (product : Product program operands)
    (counted : program.operandCount = operands.length) :
    (product.after.map Prod.fst).count .operand = product.rest.length := by
  rw [Program.operandCount, ← program.map_fst_steps, product.parted] at counted
  have before := product.counted
  have left := product.countedLeft
  have right := product.countedRight
  have all := congrArg List.length product.supplied
  simp only [List.map_append, List.count_append, Expression.count_operand_postorder, List.length_append,
    Expression.operandCount] at counted all
  omega

end Product

namespace Combiner

variable [Sample A] (combiner : Combiner)

/-- On its own, an expression evaluates to a term that is tagged zero. -/
def Vanishes (tree : Expression TermOp) (operands : List (Term A)) : Prop :=
  ∃ length, (combiner.evaluateTerm (.ofSteps tree.postorder) operands #[]).1 = .ok (.zero length)

/-- An evaluation takes zeros of this length out of the cache, which makes them if it has none. -/
def TakesZeros (program : Program TermOp) (operands : List (Term A)) (store : ZeroStore A) (length : Nat) : Prop :=
  ∃ log, combiner.evaluateTerm program operands store.log = (.ok (.zero length), log) ∧
    let taking := { store with log := log }.zeros combiner.cache length
    combiner.evaluate program operands store = (.ok taking.1.handout, taking.2)

def LeavesCaches (program : Program TermOp) (operands : List (Term A)) (store : ZeroStore A) : Prop :=
  (∀ length, (combiner.evaluateTerm program operands store.log).1 ≠ .ok (.zero length)) ∧
    (combiner.evaluate program operands store).2.caches = store.caches

variable {program : Program TermOp} {operands others : List (Term A)}

/-- The operands with `changed` for one factor of a product whose other factor is zero. -/
inductive Modified (product : Product program operands) (changed : List (Term A)) : List (Term A) → Prop where
  | left (vanishes : combiner.Vanishes product.right product.onRight)
      (size : changed.length = product.onLeft.length) : Modified product changed (product.withLeft changed)
  | right (vanishes : combiner.Vanishes product.left product.onLeft)
      (size : changed.length = product.onRight.length) : Modified product changed (product.withRight changed)

variable {combiner}

private theorem checked_of_evaluateTerm {log : Log} {term : Term A}
    (evaluates : (combiner.evaluateTerm program operands log).1 = .ok term) :
    program.operandCount = operands.length ∧ ∀ term ∈ operands, term.length = combiner.dimension := by
  unfold evaluateTerm at evaluates
  split at evaluates
  next counted =>
    split at evaluates
    · cases evaluates
    next fits => exact ⟨counted, find?_misfit.mp fits⟩
  next => cases evaluates

theorem evaluateTerm_answers (binary : ∀ token ∈ program.tokens, token.isUnary = false)
    (counted : program.operandCount = operands.length)
    (dimensions : ∀ term ∈ operands, term.length = combiner.dimension)
    (besides : ∀ term ∈ others, term.length = combiner.dimension)
    (tags : operands.map Term.isZero = others.map Term.isZero) (log : Log) :
    Answers Term.Alike Eq Eq (combiner.evaluateTerm program operands log)
      (combiner.evaluateTerm program others log) := by
  have level := Term.forall₂_alike dimensions besides tags
  have also : program.operandCount = others.length := counted.trans level.length_eq
  cases nonempty : program.isEmpty with
  | true =>
    rw [evaluateTerm_of_isEmpty nonempty counted dimensions, evaluateTerm_of_isEmpty nonempty also besides]
    exact .ok ⟨rfl, rfl⟩ rfl
  | false =>
    have members := Program.forall_steps binary
    rw [combiner.evaluateTerm_eq_evaluate nonempty counted dimensions,
      combiner.evaluateTerm_eq_evaluate nonempty also besides]
    obtain ⟨_, _, _, _, here, there, same, kept⟩ | ⟨_, _, _, _, here, there, same, kept⟩ :=
      (Program.evaluate_answers (TermSupply.corresponds_alike combiner.dimension) program members
        ⟨operands, log⟩ ⟨others, log⟩ ⟨level, rfl⟩).outcomes
    · rw [here, there]
      exact .ok same.2 kept.2
    · rw [here, there]
      exact .error (Halt.eq_of_matches same) kept.2

private theorem takesZeros {store : ZeroStore A} {length : Nat}
    (zeros : (combiner.evaluateTerm program operands store.log).1.toOption.bind Term.zeros? = some length) :
    combiner.TakesZeros program operands store length := by
  unfold TakesZeros evaluate
  generalize combiner.evaluateTerm program operands store.log = outcome at zeros ⊢
  obtain ⟨halt | length | ⟨samples, name⟩, log⟩ := outcome <;> cases zeros
  exact ⟨log, rfl, rfl⟩

private theorem leavesCaches {store : ZeroStore A}
    (unserved : (combiner.evaluateTerm program operands store.log).1.toOption.bind Term.zeros? = none) :
    combiner.LeavesCaches program operands store := by
  unfold LeavesCaches evaluate
  generalize combiner.evaluateTerm program operands store.log = outcome at unserved ⊢
  obtain ⟨halt | length | ⟨samples, name⟩, log⟩ := outcome
  · exact ⟨nofun, rfl⟩
  · cases unserved
  · cases name <;> exact ⟨nofun, rfl⟩

theorem evaluate_answers {store : ZeroStore A}
    (answers : Answers Term.Alike Eq Eq (combiner.evaluateTerm program operands store.log)
      (combiner.evaluateTerm program others store.log)) :
    Answers (fun handout other => handout.samples.length = other.samples.length) Eq
      (fun after beside => after.caches = beside.caches ∧ after.allocated = beside.allocated ∧ after.log = beside.log)
      (combiner.evaluate program operands store) (combiner.evaluate program others store) := by
  unfold evaluate
  obtain ⟨term, other, log, _, here, there, alike, rfl⟩ | ⟨halt, _, log, _, here, there, rfl, rfl⟩ :=
    answers.outcomes
  · rw [here, there]
    obtain ⟨length, rfl, rfl⟩ | ⟨samples, name, besides, beside, rfl, rfl⟩ := alike.zero_or_data
    · exact .ok rfl ⟨rfl, rfl, rfl⟩
    · cases name <;> cases beside <;> exact .ok alike.length ⟨rfl, rfl, rfl⟩
  · rw [here, there]
    exact .error rfl ⟨rfl, rfl, rfl⟩

theorem evaluateTerm_eq_combined (binary : ∀ step ∈ program.steps, step.1.isUnary = false)
    (nonempty : program.isEmpty = false) (counted : program.operandCount = operands.length)
    (dimensions : ∀ term ∈ operands, term.length = combiner.dimension) (log : Log) :
    (combiner.evaluateTerm program operands log).1 =
      (program.evaluate (Recording.interpretation (fun _ => id) TermOp.combine)
        (.start operands log)).1.mapError Halt.widen := by
  rw [combiner.evaluateTerm_eq_evaluate nonempty counted dimensions]
  have level : List.Forall₂ (fun term other => term = other ∧ term.length = combiner.dimension)
      operands operands := List.forall₂_same.mpr fun term member => ⟨rfl, dimensions term member⟩
  obtain ⟨_, _, _, _, here, there, same, _⟩ | ⟨_, _, _, _, here, there, same, _⟩ :=
    (Program.evaluate_answers (TermSupply.corresponds_combine combiner.dimension) program binary
      ⟨operands, log⟩ (.start operands log) level).outcomes
  · rw [here, there, same.1]
    rfl
  · rw [here, there, ← Halt.widen_of_matches same]
    rfl

theorem value_of_evaluateTerm {tree : Expression TermOp}
    (binary : ∀ step ∈ tree.postorder, step.1.isUnary = false) {log : Log} {term : Term A}
    (evaluates : (combiner.evaluateTerm (.ofSteps tree.postorder) operands log).1 = .ok term) :
    tree.value (fun _ => id) TermOp.combine operands = some (term, []) := by
  obtain ⟨counted, dimensions⟩ := checked_of_evaluateTerm evaluates
  have steps := (Program.steps_ofSteps tree.paired_postorder).symm
  have count := Expression.operandCount_of_postorder steps
  have nonempty : (Program.ofSteps tree.postorder).isEmpty = false := by
    have positive := tree.operandCount_pos
    rw [← count, Program.operandCount, List.count_pos_iff] at positive
    exact List.isEmpty_eq_false_iff.mpr (List.ne_nil_of_mem positive)
  rw [evaluateTerm_eq_combined (steps ▸ binary) nonempty counted dimensions] at evaluates
  obtain ⟨value, known⟩ := tree.exists_value (fun _ => id) TermOp.combine operands (by omega)
  rw [tree.evaluate_of_postorder _ _ steps known] at evaluates
  cases evaluates
  rw [known, ← count, counted, List.drop_length]

theorem exists_value_of_counted {dimension : Nat} {tree : Expression TermOp}
    (counted : tree.operandCount = operands.length) (dimensions : ∀ term ∈ operands, term.length = dimension) :
    ∃ term : Term A, tree.value (fun _ => id) TermOp.combine operands = some (term, []) ∧
      term.length = dimension := by
  obtain ⟨term, known⟩ := tree.exists_value (fun _ => id) TermOp.combine operands (Nat.le_of_eq counted)
  rw [counted, List.drop_length] at known
  have kept := tree.forall_value _ _ (fun term => term.length = dimension) (fun _ _ => id)
    (fun op _ _ onLeft onRight => (op.length_combine (onLeft.trans onRight.symm)).trans onLeft) known dimensions
  exact ⟨term, known, kept.1⟩

/-- A product with a factor that vanishes is zero, whatever terms the other factor gets. -/
theorem value_of_product (binary : ∀ step ∈ program.steps, step.1.isUnary = false)
    (product : Product program operands) {left right : List (Term A)}
    (countedLeft : product.left.operandCount = left.length) (countedRight : product.right.operandCount = right.length)
    (dimensionsLeft : ∀ term ∈ left, term.length = combiner.dimension)
    (dimensionsRight : ∀ term ∈ right, term.length = combiner.dimension)
    (vanishes : combiner.Vanishes product.left left ∨ combiner.Vanishes product.right right) :
    (Expression.binary product.tier .multiply product.left product.right).value (fun _ => id) TermOp.combine
      (left ++ right) = some (.zero combiner.dimension, []) := by
  obtain ⟨first, knownLeft, length⟩ := exists_value_of_counted countedLeft dimensionsLeft
  obtain ⟨second, knownRight, size⟩ := exists_value_of_counted countedRight dimensionsRight
  have zero : first.isZero ∨ second.isZero := by
    obtain ⟨_, evaluates⟩ | ⟨_, evaluates⟩ := vanishes
    · have same := value_of_evaluateTerm (fun step member => binary step (product.mem_steps (.inl member))) evaluates
      cases knownLeft.symm.trans same
      exact .inl rfl
    · have same := value_of_evaluateTerm (fun step member => binary step (product.mem_steps (.inr member))) evaluates
      cases knownRight.symm.trans same
      exact .inr rfl
  have appended := product.left.value_append _ _ knownLeft right
  rw [List.nil_append] at appended
  simp only [Expression.value, appended, Option.bind_some, knownRight, Option.map_some]
  rw [TermOp.combine_multiply_zero (length.trans size.symm) zero, length]

theorem evaluateTerm_of_product (binary : ∀ step ∈ program.steps, step.1.isUnary = false)
    (counted : program.operandCount = operands.length)
    (dimensions : ∀ term ∈ operands, term.length = combiner.dimension) (product : Product program operands)
    {left right : List (Term A)} (sizeLeft : left.length = product.onLeft.length)
    (sizeRight : right.length = product.onRight.length)
    (dimensionsLeft : ∀ term ∈ left, term.length = combiner.dimension)
    (dimensionsRight : ∀ term ∈ right, term.length = combiner.dimension)
    (vanishes : combiner.Vanishes product.left product.onLeft ∨ combiner.Vanishes product.right product.onRight)
    (again : combiner.Vanishes product.left left ∨ combiner.Vanishes product.right right) (log : Log) :
    (combiner.evaluateTerm program (product.first ++ (left ++ right) ++ product.rest) log).1 =
      (combiner.evaluateTerm program operands log).1 := by
  have all := dimensions
  rw [product.supplied] at all
  simp only [List.forall_mem_append] at all
  obtain ⟨⟨onFirst, onLeft, onRight⟩, onRest⟩ := all
  have known := value_of_product binary product product.countedLeft product.countedRight onLeft onRight vanishes
  have also := value_of_product binary product (product.countedLeft.trans sizeLeft.symm)
    (product.countedRight.trans sizeRight.symm) dimensionsLeft dimensionsRight again
  have recounted : program.operandCount = (product.first ++ (left ++ right) ++ product.rest).length := by
    rw [counted, congrArg List.length product.supplied]
    simp only [List.length_append, sizeLeft, sizeRight]
  have others : ∀ term ∈ product.first ++ (left ++ right) ++ product.rest, term.length = combiner.dimension := by
    simp only [List.forall_mem_append]
    exact ⟨⟨onFirst, dimensionsLeft, dimensionsRight⟩, onRest⟩
  rw [evaluateTerm_eq_combined binary product.isEmpty_eq_false recounted others,
    evaluateTerm_eq_combined binary product.isEmpty_eq_false counted dimensions,
    Program.evaluate_eq_of_value_eq product.parted _ _ product.counted (product.counted_after counted) also known,
    ← product.supplied]

theorem evaluate_fst_eq {store : ZeroStore A}
    (same : (combiner.evaluateTerm program operands store.log).1 =
      (combiner.evaluateTerm program others store.log).1) :
    (combiner.evaluate program operands store).1 = (combiner.evaluate program others store).1 := by
  unfold evaluate
  generalize combiner.evaluateTerm program operands store.log = outcome,
    combiner.evaluateTerm program others store.log = opposite at same
  obtain ⟨result, log⟩ := outcome
  obtain ⟨_, beside⟩ := opposite
  cases same
  cases result with
  | error halt => rfl
  | ok term =>
    cases term with
    | data samples name => cases name <;> rfl
    | zero length =>
      simp only [materialize, ZeroStore.zeros]
      cases (store.caches combiner.cache).find? length <;> rfl

/-- Tags alone decide whether there is a term and which tag it has, what is logged, and whether a cache is used and
how. A factor of a product has no part in the answer once the other factor evaluates to a zero term. -/
theorem evaluateTerm_of_tags (combiner : Combiner) {program : Program TermOp} {operands : List (Term A)}
    (binary : ∀ token ∈ program.tokens, token.isUnary = false) (counted : program.operandCount = operands.length)
    (dimensions : ∀ term ∈ operands, term.length = combiner.dimension) :
    (∀ others : List (Term A), (∀ term ∈ others, term.length = combiner.dimension) →
      operands.map Term.isZero = others.map Term.isZero →
        (∀ log, Answers Term.Alike Eq Eq (combiner.evaluateTerm program operands log)
          (combiner.evaluateTerm program others log)) ∧
        (∀ store, Answers (fun handout other => handout.samples.length = other.samples.length) Eq
          (fun after beside =>
            after.caches = beside.caches ∧ after.allocated = beside.allocated ∧ after.log = beside.log)
          (combiner.evaluate program operands store) (combiner.evaluate program others store)) ∧
        ∀ store beside,
          (∃ length, combiner.TakesZeros program operands store length ∧
            combiner.TakesZeros program others beside length) ∨
          combiner.LeavesCaches program operands store ∧ combiner.LeavesCaches program others beside) ∧
    ∀ (product : Product program operands) (changed : List (Term A)),
      (∀ term ∈ changed, term.length = combiner.dimension) → ∀ others, combiner.Modified product changed others →
        (∀ log, (combiner.evaluateTerm program others log).1 = (combiner.evaluateTerm program operands log).1) ∧
        ∀ store, (combiner.evaluate program others store).1 = (combiner.evaluate program operands store).1 := by
  refine ⟨fun others besides tags => ?_, fun product changed lengths others modified => ?_⟩
  · have answers (log : Log) := evaluateTerm_answers binary counted dimensions besides tags log
    refine ⟨answers, fun store => evaluate_answers (answers store.log), fun store beside => ?_⟩
    have tags : (combiner.evaluateTerm program operands store.log).1.toOption.bind Term.zeros? =
        (combiner.evaluateTerm program others beside.log).1.toOption.bind Term.zeros? := by
      rw [(combiner.quiet_evaluateTerm program others).same beside.log store.log]
      obtain ⟨_, _, _, _, here, there, alike, _⟩ | ⟨_, _, _, _, here, there, rfl, _⟩ := (answers store.log).outcomes
      · rw [here, there]
        obtain ⟨_, rfl, rfl⟩ | ⟨_, _, _, _, rfl, rfl⟩ := alike.zero_or_data <;> rfl
      · rw [here, there]
    cases zeros : (combiner.evaluateTerm program operands store.log).1.toOption.bind Term.zeros? with
    | some length => exact .inl ⟨length, takesZeros zeros, takesZeros (tags.symm.trans zeros)⟩
    | none => exact .inr ⟨leavesCaches zeros, leavesCaches (tags.symm.trans zeros)⟩
  · have members := Program.forall_steps binary
    have all := dimensions
    rw [product.supplied] at all
    simp only [List.forall_mem_append] at all
    obtain ⟨⟨_, onLeft, onRight⟩, _⟩ := all
    have same (log : Log) :
        (combiner.evaluateTerm program others log).1 = (combiner.evaluateTerm program operands log).1 := by
      cases modified with
      | left zero size =>
        exact evaluateTerm_of_product members counted dimensions product size rfl lengths onRight
          (.inr zero) (.inr zero) log
      | right zero size =>
        exact evaluateTerm_of_product members counted dimensions product rfl size onLeft lengths
          (.inl zero) (.inl zero) log
    exact ⟨same, fun store => evaluate_fst_eq (same store.log)⟩

/-- Data that happens to be zero behaves as other data does, and what a zero term is multiplied with does not show. -/
theorem evaluateTerm_of_tags_in_sum :
    letI := Sample.whole
    let combiner : Combiner := ⟨2, 0⟩
    let program : Program TermOp :=
      ⟨[.operand, .operand, .binary .second, .operand, .binary .first], [.multiply, .add]⟩
    let operands : List (Term Int) := [.zero 2, .data [0, 0] none, .data [5, 6] none]
    let others : List (Term Int) := [.zero 2, .data [3, 4] none, .data [0, 0] none]
    Answers Term.Alike Eq Eq (combiner.evaluateTerm program operands #[])
        (combiner.evaluateTerm program others #[]) ∧
      (combiner.evaluateTerm program operands #[]).1 = .ok (.data [5, 6] none) ∧
      (combiner.evaluateTerm program [.zero 2, .data ([7, 8] : List Int) none, .data [5, 6] none] #[]).1 =
        .ok (.data [5, 6] none) := by
  let := Sample.whole
  intro combiner program operands others
  have binary : ∀ token ∈ program.tokens, token.isUnary = false := by decide
  have dimensions : ∀ term ∈ operands, term.length = combiner.dimension := by decide
  have tagged := evaluateTerm_of_tags combiner binary rfl dimensions
  have value : (combiner.evaluateTerm program operands #[]).1 = .ok (.data [5, 6] none) := rfl
  let product : Product program operands :=
    ⟨[], [(.operand, none), (.binary .first, some .add)], .second, .operand, .operand, [], [.zero 2],
      [.data [0, 0] none], [.data [5, 6] none], rfl, rfl, rfl, rfl, rfl⟩
  have changed : combiner.Modified product [.data [7, 8] none] [.zero 2, .data [7, 8] none, .data [5, 6] none] :=
    .right ⟨2, rfl⟩ rfl
  have unchanged := (tagged.2 product _ (by decide) _ changed).1 #[]
  exact ⟨(tagged.1 others (by decide) rfl).1 #[], value, unchanged.trans value⟩

end Combiner

end SignalStrip
