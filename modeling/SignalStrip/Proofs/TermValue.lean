import SignalStrip.Recording
import SignalStrip.Term.Combiner
import SignalStrip.Proofs.Runs

/-! Values of terms. An evaluation over terms is an evaluation over single samples at every index at once. The
shortcuts that zero tags allow make no difference where zero behaves as zero does. -/

namespace SignalStrip

variable {A : Type} [Sample A]

/-- What arithmetic has to keep for a tag to stand for zeros. -/
structure Sample.ZeroLaws (A : Type) [Sample A] : Prop where
  zero_add (sample : A) : 0 + sample = sample
  add_zero (sample : A) : sample + 0 = sample
  zero_mul (sample : A) : 0 * sample = 0
  mul_zero (sample : A) : sample * 0 = 0

theorem Sample.zeroLaws_whole : @ZeroLaws Int whole :=
  letI := whole
  ⟨Int.zero_add, Int.add_zero, Int.zero_mul, Int.mul_zero⟩

namespace Term

def sampleAt (index : Nat) (term : Term A) : A :=
  term.samples.getD index 0

/-- At `index`, a term of this length holds this sample. Only zero laws may let it be tagged zero. -/
structure Shows (dimension index : Nat) (term : Term A) (sample : A) : Prop where
  length : term.length = dimension
  holds : term.samples[index]? = some sample
  lawful : term.isZero → Sample.ZeroLaws A

theorem shows_sampleAt {dimension index : Nat} (inside : index < dimension) {term : Term A}
    (length : term.length = dimension) (lawful : term.isZero → Sample.ZeroLaws A) :
    term.Shows dimension index (term.sampleAt index) := by
  refine ⟨length, ?_, lawful⟩
  have bound : index < term.samples.length := by rwa [length_samples, length]
  rw [sampleAt, List.getD_eq_getElem?_getD, List.getElem?_eq_getElem bound, Option.getD_some]

private theorem eq_zero_of_shows {dimension index length : Nat} {sample : A}
    (shown : (zero length).Shows dimension index sample) : sample = 0 := by
  have holds := shown.holds
  rw [samples, List.getElem?_replicate] at holds
  split at holds <;> cases holds
  rfl

end Term

namespace TermOp
open Term

omit [Sample A] in
private theorem shortcut?_length {op : TermOp} {left right term : Term A} {record : Record}
    (taken : op.shortcut? left right = some (record, term)) (same : left.length = right.length) :
    term.length = left.length := by
  unfold shortcut? at taken
  split at taken <;> cases taken
  · exact same.symm
  · rfl
  · rfl
  · exact same.symm

private theorem shortcut?_shows {op : TermOp} {left right term : Term A} {record : Record}
    (taken : op.shortcut? left right = some (record, term)) {dimension index : Nat} {first second : A}
    (onLeft : left.Shows dimension index first) (onRight : right.Shows dimension index second) :
    term.Shows dimension index (op.scalar first second) := by
  unfold shortcut? at taken
  split at taken <;> cases taken
  · have laws := onLeft.lawful rfl
    rw [eq_zero_of_shows onLeft, scalar, laws.zero_add]
    exact onRight
  · have laws := onRight.lawful rfl
    rw [eq_zero_of_shows onRight, scalar, laws.add_zero]
    exact onLeft
  · have laws := onLeft.lawful rfl
    have zero := eq_zero_of_shows onLeft
    rw [zero, scalar, laws.zero_mul]
    exact zero ▸ onLeft
  · have laws := onRight.lawful rfl
    have zero := eq_zero_of_shows onRight
    rw [zero, scalar, laws.mul_zero]
    exact zero ▸ onRight

theorem exists_apply (op : TermOp) {left right : Term A} (same : left.length = right.length) (log : Log) :
    ∃ term after, op.apply left right log = (.ok term, after) ∧ term.length = left.length ∧
      ∀ {dimension index : Nat} {first second : A}, left.Shows dimension index first →
        right.Shows dimension index second → term.Shows dimension index (op.scalar first second) := by
  rw [apply, if_pos same]
  split
  next record term taken =>
    exact ⟨term, _, rfl, shortcut?_length taken same, shortcut?_shows taken⟩
  next =>
    have length : (Term.data (List.zipWith op.scalar left.samples right.samples) none).length = left.length := by
      show (List.zipWith op.scalar left.samples right.samples).length = left.length
      rw [List.length_zipWith, length_samples, length_samples, ← same, Nat.min_self]
    refine ⟨_, _, rfl, length, fun {_ index _ _} onLeft onRight =>
      ⟨length.trans onLeft.length, ?_, nofun⟩⟩
    show (List.zipWith op.scalar left.samples right.samples)[index]? = _
    rw [List.getElem?_zipWith, onLeft.holds, onRight.holds]

end TermOp

def Halt.widen {F : Type} : Halt Empty → Halt F
  | shape error => shape error
  | exhausted position => exhausted position
  | unpaired => unpaired

theorem Halt.widen_of_matches {F : Type} {halt : Halt F} {other : Halt Empty}
    (same : Matches (fun _ _ => False) halt other) : other.widen = halt := by
  cases same with
  | shape _ | exhausted _ | unpaired => rfl
  | fault never => exact never.elim

theorem Halt.error_iff_of_answers {σ τ V W F : Type} {values : V → W → Prop} {states : σ → τ → Prop}
    {outcome : Except (Halt F) V × σ} {other : Except (Halt Empty) W × τ}
    (answers : Answers values (Matches fun _ _ => False) states outcome other) {halt : Halt F} :
    outcome.1 = .error halt ↔ ∃ cause, other.1 = .error cause ∧ cause.widen = halt := by
  cases answers with
  | ok same kept => exact ⟨nofun, nofun⟩
  | error same kept =>
    have widened := widen_of_matches same
    constructor
    · rintro ⟨⟩
      exact ⟨_, rfl, widened⟩
    · rintro ⟨_, ⟨⟩, rfl⟩
      rw [widened]

namespace TermSupply

/-- Terms stand for samples in an evaluation as long as the operators keep the relation between them. -/
theorem corresponds {dimension : Nat} {stands : Term A → A → Prop}
    (length : ∀ {term sample}, stands term sample → term.length = dimension)
    (combine : ∀ {op : TermOp} {left right term : Term A} {first second : A} {log after : Log},
      op.apply left right log = (.ok term, after) → stands left first → stands right second →
        stands term (op.scalar first second))
    (unary : TermOp → A → A) :
    Interpretation.Corresponds (fun step => step.1.isUnary = false) stands (fun _ _ => False)
      (fun supply recording => List.Forall₂ stands supply.terms recording.supply)
      interpretation (Recording.interpretation unary TermOp.scalar) where
  next := by
    intro supply recording level
    obtain ⟨terms, log⟩ := supply
    obtain ⟨samples, events, other⟩ := recording
    cases level with
    | nil => exact .none
    | cons same rest => exact .some ⟨same, rest⟩
  unary step := nomatch step
  binary := by
    intro tier op left right first second supply recording _ onLeft onRight level
    obtain ⟨term, after, applies, _⟩ :=
      op.exists_apply ((length onLeft).trans (length onRight).symm) supply.log
    have outcome : interpretation.binary op left right supply = (.ok term, ⟨supply.terms, after⟩) := by
      simp [interpretation, applies, Except.mapError]
    rw [outcome]
    exact .ok (combine applies onLeft onRight) level
  note _ := by
    intro supply recording level
    exact level

theorem corresponds_length (dimension : Nat) (unary : TermOp → A → A) :
    Interpretation.Corresponds (fun step => step.1.isUnary = false)
      (fun (term : Term A) (_ : A) => term.length = dimension) (fun _ _ => False)
      (fun supply recording =>
        List.Forall₂ (fun (term : Term A) (_ : A) => term.length = dimension) supply.terms recording.supply)
      interpretation (Recording.interpretation unary TermOp.scalar) := by
  refine corresponds id ?_ unary
  intro op left right term first second log after applies onLeft onRight
  obtain ⟨result, last, same, length, _⟩ := op.exists_apply (onLeft.trans onRight.symm) log
  cases applies.symm.trans same
  exact length.trans onLeft

theorem corresponds_shows (dimension index : Nat) (unary : TermOp → A → A) :
    Interpretation.Corresponds (fun step => step.1.isUnary = false)
      (Term.Shows (A := A) dimension index) (fun _ _ => False)
      (fun supply recording => List.Forall₂ (Term.Shows dimension index) supply.terms recording.supply)
      interpretation (Recording.interpretation unary TermOp.scalar) := by
  refine corresponds Term.Shows.length ?_ unary
  intro op left right term first second log after applies onLeft onRight
  obtain ⟨result, last, same, _, shows⟩ :=
    op.exists_apply (onLeft.length.trans onRight.length.symm) log
  cases applies.symm.trans same
  exact shows onLeft onRight

end TermSupply

namespace Combiner

omit [Sample A] in
theorem find?_misfit {combiner : Combiner} {operands : List (Term A)} :
    (operands.find? fun term => term.length != combiner.dimension) = none ↔
      ∀ term ∈ operands, term.length = combiner.dimension := by
  simp [List.find?_eq_none]

theorem evaluateTerm_eq_evaluate (combiner : Combiner) {program : Program TermOp}
    {operands : List (Term A)} (nonempty : program.isEmpty = false)
    (counted : program.operandCount = operands.length)
    (dimensions : ∀ term ∈ operands, term.length = combiner.dimension) (log : Log) :
    combiner.evaluateTerm program operands log =
      ((program.evaluate TermSupply.interpretation ⟨operands, log⟩).1,
        (program.evaluate TermSupply.interpretation ⟨operands, log⟩).2.log) := by
  simp only [evaluateTerm, if_pos counted, find?_misfit.mpr dimensions, nonempty, Bool.false_eq_true, if_false]

theorem evaluateTerm_of_isEmpty {combiner : Combiner} {program : Program TermOp} {operands : List (Term A)}
    (empty : program.isEmpty = true) (counted : program.operandCount = operands.length)
    (dimensions : ∀ term ∈ operands, term.length = combiner.dimension) (log : Log) :
    combiner.evaluateTerm program operands log = (.ok combiner.zero, log) := by
  simp only [evaluateTerm, if_pos counted, find?_misfit.mpr dimensions, empty, if_true]

/-- An evaluation over terms is one over samples at each index. It stops where an evaluation over any
samples stops, and otherwise gives a term that holds, at each index, what the samples at that index give.
No law is needed of the arithmetic unless some operand is tagged zero. -/
theorem evaluateTerm_pointwise (combiner : Combiner) {program : Program TermOp}
    {operands : List (Term A)} (binary : ∀ token ∈ program.tokens, token.isUnary = false)
    (nonempty : program.isEmpty = false) (counted : program.operandCount = operands.length)
    (dimensions : ∀ term ∈ operands, term.length = combiner.dimension)
    (laws : (∃ term ∈ operands, term.isZero) → Sample.ZeroLaws A) (unary : TermOp → A → A) (log : Log) :
    (∀ samples : List A, samples.length = operands.length → ∀ halt,
      (combiner.evaluateTerm program operands log).1 = .error halt ↔
        ∃ cause, (program.evaluate (Recording.interpretation unary TermOp.scalar)
          (.start samples log)).1 = .error cause ∧ cause.widen = halt) ∧
    ∀ term, (combiner.evaluateTerm program operands log).1 = .ok term →
      term.length = combiner.dimension ∧
      ∀ index < combiner.dimension, ∃ sample, term.get index = .ok sample ∧
        (program.evaluate (Recording.interpretation unary TermOp.scalar)
          (.start (operands.map (Term.sampleAt index)) log)).1 = .ok sample := by
  have members : ∀ step ∈ program.steps, step.1.isUnary = false := by
    intro step member
    refine binary step.1 ?_
    rw [← program.map_fst_steps]
    exact List.mem_map_of_mem member
  rw [combiner.evaluateTerm_eq_evaluate nonempty counted dimensions]
  refine ⟨fun samples size halt => ?_, fun term done => ⟨?_, fun index inside => ?_⟩⟩
  · have level : List.Forall₂ (fun (term : Term A) (_ : A) => term.length = combiner.dimension)
        operands samples := by
      refine List.forall₂_iff_get.mpr ⟨size.symm, fun index inside _ => ?_⟩
      exact dimensions _ (List.get_mem _ _)
    exact Halt.error_iff_of_answers (Program.evaluate_answers
      (TermSupply.corresponds_length combiner.dimension unary) program members
      ⟨operands, log⟩ (.start samples log) level)
  · have level : List.Forall₂ (fun (term : Term A) (_ : A) => term.length = combiner.dimension)
        operands (operands.map (Term.sampleAt 0)) := by
      rw [List.forall₂_map_right_iff, List.forall₂_same]
      exact dimensions
    obtain ⟨_, _, length⟩ := (Program.evaluate_answers
      (TermSupply.corresponds_length combiner.dimension unary) program members
      ⟨operands, log⟩ (.start _ log) level).exists_ok done
    exact length
  · have level : List.Forall₂ (Term.Shows combiner.dimension index) operands
        (operands.map (Term.sampleAt index)) := by
      rw [List.forall₂_map_right_iff, List.forall₂_same]
      intro term member
      exact Term.shows_sampleAt inside (dimensions term member) fun tagged => laws ⟨term, member, tagged⟩
    obtain ⟨sample, same, shown⟩ := (Program.evaluate_answers
      (TermSupply.corresponds_shows combiner.dimension index unary) program members
      ⟨operands, log⟩ (.start _ log) level).exists_ok done
    exact ⟨sample, Term.get_eq_ok.mpr shown.holds, same⟩

/-- A product with a zero term, less another term. -/
theorem evaluateTerm_pointwise_of_zero_factor :
    letI := Sample.whole
    let program : Program TermOp :=
      ⟨[.operand, .operand, .binary .second, .operand, .binary .first], [.multiply, .subtract]⟩
    let operands : List (Term Int) := [.zero 2, .data [3, 4] none, .data [5, 6] none]
    ((Combiner.mk 2 0).evaluateTerm program operands #[]).1 = .ok (.data [-5, -6] none) ∧
      ∀ index < 2, ∃ sample, (Term.data [-5, -6] none).get index = .ok sample ∧
        (program.evaluate (Recording.interpretation (fun _ => id) TermOp.scalar)
          (.start (operands.map (Term.sampleAt index)) #[])).1 = .ok sample := by
  let := Sample.whole
  refine ⟨rfl, ?_⟩
  exact ((evaluateTerm_pointwise ⟨2, 0⟩ (by decide) rfl rfl (by decide)
    (fun _ => Sample.zeroLaws_whole) (fun _ => id) #[]).2 _ rfl).2

end Combiner

end SignalStrip
