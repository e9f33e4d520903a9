import SignalStrip.Signal.Source
import SignalStrip.Proofs.SignalValue

/-! Operations of built-in operators. Whatever the arithmetic of samples is, an evaluation over waveforms is one over
single samples at each index, as far as all the waveforms go that were read. -/

namespace SignalStrip

variable {σ P A : Type}

inductive Combinator (A : Type) where
  | ofFilter (filter : Filter A)
  | ofMixer (mixer : Mixer A)

namespace Combinator

variable [Sample A]

def operator : Combinator A → SignalOperator (Waveform A) CombinatorFault
  | ofFilter filter => filter.operator
  | ofMixer mixer => mixer.operator

def sampleOperator : Combinator A → SignalOperator A CombinatorFault
  | ofFilter filter => .unary filter.sample
  | ofMixer mixer => .binary fun left right => .ok (mixer.sample left right)

private theorem exists_filter {combinator : Combinator A} {apply : Waveform A → Except CombinatorFault (Waveform A)}
    (operator : combinator.operator = .unary apply) :
    ∃ filter, combinator = .ofFilter filter ∧ apply = filter.apply := by
  cases combinator with
  | ofFilter filter =>
    cases operator
    exact ⟨filter, rfl, rfl⟩
  | ofMixer mixer => cases operator

private theorem exists_mixer {combinator : Combinator A}
    {apply : Waveform A → Waveform A → Except CombinatorFault (Waveform A)}
    (operator : combinator.operator = .binary apply) :
    ∃ mixer, combinator = .ofMixer mixer ∧ ∀ left right, apply left right = .ok (mixer.apply left right) := by
  cases combinator with
  | ofFilter filter => cases operator
  | ofMixer mixer =>
    cases operator
    exact ⟨mixer, rfl, fun _ _ => rfl⟩

end Combinator

namespace Waveform

private theorem length_zipWith (f : A → A → A) (left right : Waveform A) :
    (left.zipWith f right).length = min left.length right.length :=
  List.length_zipWith

private theorem exists_of_bind {F α β : Type} {outcome : Except F α} {next : α → Except F β} {result : β}
    (done : (outcome >>= next) = .ok result) : ∃ value, outcome = .ok value ∧ next value = .ok result := by
  cases outcome with
  | error cause => cases done
  | ok value => exact ⟨value, rfl, done⟩

private theorem forall₂_of_mapM {F : Type} {f : A → Except F A} {samples changes : List A}
    (done : samples.mapM f = .ok changes) :
    List.Forall₂ (fun sample changed => f sample = .ok changed) samples changes := by
  induction samples generalizing changes with
  | nil =>
    cases done
    exact .nil
  | cons sample samples ih =>
    rw [List.mapM_cons] at done
    obtain ⟨changed, here, done⟩ := exists_of_bind done
    obtain ⟨rest, others, done⟩ := exists_of_bind done
    cases done
    exact .cons here (ih others)

/-- Where nothing was refused, a waveform has changed sample by sample. -/
theorem mapM_eq_ok {F : Type} {f : A → Except F A} {waveform result : Waveform A}
    (done : waveform.mapM f = .ok result) :
    result.rate = waveform.rate ∧
      List.Forall₂ (fun sample changed => f sample = .ok changed) waveform.samples result.samples := by
  unfold mapM at done
  cases listed : waveform.samples.mapM f with
  | error cause =>
    rw [listed] at done
    cases done
  | ok changes =>
    rw [listed] at done
    cases done
    exact ⟨rfl, forall₂_of_mapM listed⟩

end Waveform

namespace Yields

variable [Sample A] {tree : Expression (Combinator A)} {signals : List (Waveform A)} {result : Waveform A}

theorem rate (yields : Yields Combinator.operator tree signals result) :
    (signals.map Waveform.rate).head? = some result.rate := by
  induction yields with
  | operand signal => rfl
  | unary operator inside applied ih =>
    obtain ⟨filter, rfl, rfl⟩ := Combinator.exists_filter operator
    rw [ih, (Waveform.mapM_eq_ok applied).1]
  | binary operator onLeft onRight applied ihLeft ihRight =>
    obtain ⟨mixer, rfl, applies⟩ := Combinator.exists_mixer operator
    cases (applies _ _).symm.trans applied
    rw [List.map_append, List.head?_append, ihLeft]
    rfl

theorem length (yields : Yields Combinator.operator tree signals result) :
    (signals.map Waveform.length).min? = some result.length := by
  induction yields with
  | operand signal => rfl
  | unary operator inside applied ih =>
    obtain ⟨filter, rfl, rfl⟩ := Combinator.exists_filter operator
    rw [ih, Waveform.length, Waveform.length, (Waveform.mapM_eq_ok applied).2.length_eq]
  | binary operator onLeft onRight applied ihLeft ihRight =>
    obtain ⟨mixer, rfl, applies⟩ := Combinator.exists_mixer operator
    cases (applies _ _).symm.trans applied
    rw [List.min?_eq_some_iff] at ihLeft ihRight ⊢
    obtain ⟨reachedLeft, leastLeft⟩ := ihLeft
    obtain ⟨reachedRight, leastRight⟩ := ihRight
    rw [Mixer.apply, Waveform.length_zipWith, List.map_append, List.forall_mem_append]
    refine ⟨List.mem_append.mpr ?_, fun size member => ?_, fun size member => ?_⟩
    · rw [Nat.min_def]
      split
      · exact .inl reachedLeft
      · exact .inr reachedRight
    · exact Nat.le_trans (Nat.min_le_left ..) (leastLeft size member)
    · exact Nat.le_trans (Nat.min_le_right ..) (leastRight size member)

theorem sample (yields : Yields Combinator.operator tree signals result) {index : Nat}
    (inside : index < result.length) :
    ∃ samples sample, (signals.map fun signal => signal.samples[index]?) = samples.map some ∧
      result.samples[index]? = some sample ∧ Yields Combinator.sampleOperator tree samples sample := by
  induction yields with
  | operand signal =>
    have held := List.getElem?_eq_getElem inside
    exact ⟨[_], _, congrArg ([·]) held, held, .operand _⟩
  | unary operator inner applied ih =>
    obtain ⟨filter, rfl, rfl⟩ := Combinator.exists_filter operator
    have changes := (Waveform.mapM_eq_ok applied).2
    have within := inside
    rw [Waveform.length, ← changes.length_eq] at within
    obtain ⟨samples, sample, taken, held, yields⟩ := ih within
    have changed := changes.get within inside
    rw [List.getElem?_eq_getElem within, Option.some.injEq] at held
    refine ⟨samples, _, taken, List.getElem?_eq_getElem inside, .unary rfl yields ?_⟩
    exact held ▸ changed
  | binary operator onLeft onRight applied ihLeft ihRight =>
    obtain ⟨mixer, rfl, applies⟩ := Combinator.exists_mixer operator
    cases (applies _ _).symm.trans applied
    rw [Mixer.apply, Waveform.length_zipWith] at inside
    obtain ⟨before, first, takenLeft, heldLeft, yieldsLeft⟩ := ihLeft (by omega)
    obtain ⟨behind, second, takenRight, heldRight, yieldsRight⟩ := ihRight (by omega)
    refine ⟨before ++ behind, mixer.sample first second, ?_, ?_, .binary rfl yieldsLeft yieldsRight rfl⟩
    · rw [List.map_append, List.map_append, takenLeft, takenRight]
    · rw [Mixer.apply, Waveform.zipWith, List.getElem?_zipWith, heldLeft, heldRight]

end Yields

namespace Combinator

variable [Sample A]

def operation (program : Program (Combinator A)) (producers : List P) :
    Operation P (Waveform A) CombinatorFault :=
  ⟨program.map operator, producers⟩

/-- An evaluation of built-in operators gives a waveform at the rate of the first waveform that it reads and as long
as the shortest. Each of its samples is what the same program makes of the samples that stand there in the waveforms
read. No law is needed of the arithmetic. -/
theorem currentValue_pointwise {program : Program (Combinator A)} {producers : List P}
    {studio : Studio σ P (Waveform A)} {world : σ} {result : Waveform A}
    (done : ((operation program producers).currentValue studio world).1 = .ok result) :
    let heard := (operation program producers).heard studio world
    heard.map Prod.fst = producers ∧
      (heard.map fun reading => reading.2.rate).head? = some result.rate ∧
      (heard.map fun reading => reading.2.length).min? = some result.length ∧
      ∀ index < result.length, ∃ samples sample,
        (heard.map fun reading => reading.2.samples[index]?) = samples.map some ∧
        result.samples[index]? = some sample ∧
        (evaluateOperations .given (program.map sampleOperator) samples ()).1 = .ok sample := by
  intro heard
  obtain ⟨tree, steps, yields⟩ := evaluateOperations_eq_ok_iff.mp (Operation.given_of_currentValue done)
  have rate := yields.rate
  have length := yields.length
  rw [List.map_map] at rate length
  refine ⟨Operation.map_fst_heard_of_currentValue done, rate, length, fun index inside => ?_⟩
  obtain ⟨samples, sample, taken, held, below⟩ := yields.sample inside
  rw [List.map_map] at taken
  exact ⟨samples, sample, taken, held, evaluateOperations_eq_ok_iff.mpr ⟨tree, steps, below⟩⟩

/-- The sum of a counter and a shorter waveform at another rate is clipped and multiplied by the counter. -/
theorem currentValue_pointwise_of_mixed_lengths :
    letI := Sample.whole
    let program : Program (Combinator Int) :=
      ⟨[.operand, .operand, .binary .first, .unary .first, .operand, .binary .second],
        [.ofMixer .add, .ofFilter (.clamp 0 6), .ofMixer .multiply]⟩
    let rack := ((Rack.empty #[]).plug "n" (.counter 8 3 0)).plug "w" (.held ⟨4, [5, 6]⟩)
    ((operation program ["n", "w", "n"]).currentValue Rack.studio rack).1 = .ok ⟨8, [12, 12]⟩ ∧
      [3, 2, 3].min? = some 2 ∧
      ∀ index < 2, ∃ samples sample,
        [[1, 1, 1][index]?, [5, 6][index]?, [2, 2, 2][index]?] = samples.map some ∧
        [12, 12][index]? = some sample ∧
        (evaluateOperations .given (program.map sampleOperator) samples ()).1 = .ok sample := by
  let := Sample.whole
  intro program rack
  have done : ((operation program ["n", "w", "n"]).currentValue Rack.studio rack).1 = .ok ⟨8, [12, 12]⟩ := rfl
  obtain ⟨_, _, length, samples⟩ := currentValue_pointwise done
  exact ⟨done, length, samples⟩

end Combinator

end SignalStrip
