import Mathlib.Algebra.BigOperators.Group.List.Basic
import Mathlib.Algebra.Ring.Int.Defs
import SignalStrip.Proofs.Supply
import SignalStrip.Proofs.Waiting

/-! How many values there are on the stack. Tokens alone decide it, so they alone decide where an evaluation runs
short of values and how many are left in the end. -/

namespace SignalStrip

variable {σ O V F : Type}

private theorem exists_parted {α : Type} {items : List α} {position : Nat} {item : α}
    (found : items[position]? = some item) :
    ∃ before after, items = before ++ item :: after ∧ before.length = position := by
  obtain ⟨within, rfl⟩ := List.getElem?_eq_some_iff.mp found
  refine ⟨items.take position, items.drop (position + 1), ?_, ?_⟩
  · rw [← List.drop_eq_getElem_cons, List.take_append_drop]
  · rw [List.length_take, Nat.min_eq_left (Nat.le_of_lt within)]

theorem exists_parted_of_earlier {α : Type} {good : α → Prop} {items : List α} {position : Nat} {item : α}
    (found : items[position]? = some item) (fine : ∀ earlier < position, ∀ other ∈ items[earlier]?, good other) :
    ∃ before after, items = before ++ item :: after ∧ before.length = position ∧ ∀ other ∈ before, good other := by
  obtain ⟨before, after, rfl, rfl⟩ := exists_parted found
  refine ⟨before, after, rfl, rfl, fun other member => ?_⟩
  obtain ⟨place, within, rfl⟩ := List.mem_iff_getElem.mp member
  exact fine place within _ (by simp [List.getElem?_append_left within])

theorem forall_or_exists_first {α : Type} (good : α → Prop) (items : List α) :
    (∀ item ∈ items, good item) ∨
      ∃ before item after, items = before ++ item :: after ∧ (∀ earlier ∈ before, good earlier) ∧ ¬ good item := by
  induction items with
  | nil => exact .inl (List.forall_mem_nil _)
  | cons item items ih =>
    by_cases here : good item
    · obtain others | ⟨before, bad, after, rfl, fine, wrong⟩ := ih
      · exact .inl (List.forall_mem_cons.mpr ⟨here, others⟩)
      · exact .inr ⟨item :: before, bad, after, rfl, List.forall_mem_cons.mpr ⟨here, fine⟩, wrong⟩
    · exact .inr ⟨[], item, items, rfl, List.forall_mem_nil _, here⟩

namespace ProgramToken

/-- By how much a token changes the number of values: an operand brings one, and a binary operator makes one of
two. -/
def gain : ProgramToken → Int
  | operand => 1
  | unary _ => 0
  | binary _ => -1

@[simp] theorem gain_operand : gain operand = 1 := rfl

@[simp] theorem gain_unary (tier : Tier) : gain (unary tier) = 0 := rfl

@[simp] theorem gain_binary (tier : Tier) : gain (binary tier) = -1 := rfl

def isBinary : ProgramToken → Bool
  | binary _ => true
  | operand | unary _ => false

/-- How many more operands than binary operators there are among the first `count` tokens. -/
def depth (tokens : List ProgramToken) (count : Nat) : Int :=
  (tokens.take count).count operand - (tokens.take count).countP isBinary

def Lacks (depth : Int) : ProgramToken → Prop
  | operand => False
  | unary _ => depth < 1
  | binary _ => depth < 2

instance (depth : Int) : (token : ProgramToken) → Decidable (token.Lacks depth)
  | operand => inferInstanceAs (Decidable False)
  | unary _ => inferInstanceAs (Decidable (depth < 1))
  | binary _ => inferInstanceAs (Decidable (depth < 2))

/-- The token at `position` takes more values than those before it leave. -/
def Underflows (tokens : List ProgramToken) (position : Nat) : Prop :=
  ∃ token ∈ tokens[position]?, token.Lacks (depth tokens position)

instance (tokens : List ProgramToken) (position : Nat) : Decidable (Underflows tokens position) :=
  inferInstanceAs (Decidable (∃ token ∈ tokens[position]?, token.Lacks (depth tokens position)))

/-- An evaluation gets as far as `position`, and no further. -/
def FirstUnderflow (tokens : List ProgramToken) (position : Nat) : Prop :=
  Underflows tokens position ∧ ∀ earlier < position, ¬ Underflows tokens earlier

theorem FirstUnderflow.unique {tokens : List ProgramToken} {first second : Nat}
    (here : FirstUnderflow tokens first) (there : FirstUnderflow tokens second) : first = second := by
  rcases Nat.lt_trichotomy first second with less | same | more
  · exact (there.2 first less here.1).elim
  · exact same
  · exact (here.2 second more there.1).elim

theorem depth_eq_sum (tokens : List ProgramToken) (count : Nat) :
    depth tokens count = ((tokens.take count).map gain).sum := by
  unfold depth
  induction tokens.take count with
  | nil => rfl
  | cons token tokens ih =>
    cases token <;> simp [List.countP_cons, isBinary, ← ih] <;> omega

private theorem depth_succ {tokens : List ProgramToken} {count : Nat} {token : ProgramToken}
    (here : tokens[count]? = some token) : depth tokens (count + 1) = depth tokens count + token.gain := by
  simp [depth_eq_sum, List.take_add_one, here]

variable {before after : List ProgramToken}

theorem depth_append {count : Nat} (within : count ≤ before.length) :
    depth (before ++ after) count = depth before count := by
  rw [depth, depth, List.take_append_of_le_length within]

theorem underflows_append {position : Nat} (within : position < before.length) :
    Underflows (before ++ after) position ↔ Underflows before position := by
  rw [Underflows, Underflows, List.getElem?_append_left within, depth_append (Nat.le_of_lt within)]

private theorem underflows_append_cons {token : ProgramToken} :
    Underflows (before ++ token :: after) before.length ↔ token.Lacks (depth before before.length) := by
  simp [Underflows, depth_append]

theorem lt_length_of_underflows {tokens : List ProgramToken} {position : Nat}
    (here : Underflows tokens position) : position < tokens.length := by
  obtain ⟨token, found, _⟩ := here
  exact (List.getElem?_eq_some_iff.mp found).1

theorem FirstUnderflow.append {position : Nat} (first : FirstUnderflow before position)
    (after : List ProgramToken) : FirstUnderflow (before ++ after) position := by
  have within := lt_length_of_underflows first.1
  refine ⟨(underflows_append within).mpr first.1, fun earlier less here => ?_⟩
  exact first.2 earlier less ((underflows_append (Nat.lt_trans less within)).mp here)

theorem depth_nonneg {tokens : List ProgramToken} (enough : ∀ position, ¬ Underflows tokens position)
    (count : Nat) (within : count ≤ tokens.length) :
    0 ≤ depth tokens count ∧ (0 < count → 0 < depth tokens count) := by
  induction count with
  | zero => exact ⟨Int.le_refl 0, nofun⟩
  | succ count ih =>
    obtain ⟨before, _⟩ := ih (Nat.le_of_succ_le within)
    have here := List.getElem?_eq_getElem within
    have found : ¬ tokens[count].Lacks (depth tokens count) := fun lacks =>
      enough count ⟨_, here, lacks⟩
    rw [depth_succ here]
    cases token : tokens[count] with
    | operand => exact ⟨by simp only [gain]; omega, fun _ => by simp only [gain]; omega⟩
    | unary tier | binary tier =>
      rw [token, Lacks] at found
      exact ⟨by simp only [gain]; omega, fun _ => by simp only [gain]; omega⟩

end ProgramToken

def ShapeError.ofLeft? : Nat → Option ShapeError
  | 0 => some emptyExpression
  | 1 => none
  | left => some (tooManyOperands left)

private theorem ofLeft?_length (stack : List V) :
    ShapeError.ofLeft? stack.length =
      match soleValue stack with
      | .ok _ => none
      | .error error => some error := by
  match stack with
  | [] | [_] | _ :: _ :: _ => rfl

/-- What is wrong with the shape of a program with these tokens, if anything is. -/
inductive Verdict (tokens : List ProgramToken) : Option ShapeError → Prop where
  | stopped {position : Nat} (first : ProgramToken.FirstUnderflow tokens position) :
      Verdict tokens (some (.underflow position))
  | done {left : Nat} (enough : ∀ position, ¬ ProgramToken.Underflows tokens position)
      (depth : ProgramToken.depth tokens tokens.length = left) : Verdict tokens (ShapeError.ofLeft? left)

namespace Verdict

variable {tokens : List ProgramToken}

theorem unique {first second : Option ShapeError} (one : Verdict tokens first)
    (other : Verdict tokens second) : first = second := by
  cases one with
  | stopped here =>
    cases other with
    | stopped there => rw [here.unique there]
    | done enough _ => exact (enough _ here.1).elim
  | done enough depth =>
    cases other with
    | stopped there => exact (enough _ there.1).elim
    | done _ same => rw [Int.ofNat_inj.mp (depth.symm.trans same)]

theorem underflow_iff {position : Nat} :
    Verdict tokens (some (.underflow position)) ↔ ProgramToken.FirstUnderflow tokens position := by
  constructor
  · intro verdict
    generalize said : some (ShapeError.underflow position) = outcome at verdict
    cases verdict with
    | stopped first =>
      cases said
      exact first
    | @done left _ _ => match left, said with | 0, said | 1, said | _ + 2, said => cases said
  · exact stopped

private theorem iff_of_enough (enough : ∀ position, ¬ ProgramToken.Underflows tokens position)
    {outcome : Option ShapeError} :
    Verdict tokens outcome ↔
      ∃ left : Nat, ProgramToken.depth tokens tokens.length = left ∧ outcome = ShapeError.ofLeft? left := by
  constructor
  · intro verdict
    cases verdict with
    | stopped first => exact (enough _ first.1).elim
    | done _ depth => exact ⟨_, depth, rfl⟩
  · rintro ⟨left, depth, rfl⟩
    exact done enough depth

theorem emptyExpression_iff (enough : ∀ position, ¬ ProgramToken.Underflows tokens position) :
    Verdict tokens (some .emptyExpression) ↔ tokens = [] := by
  rw [iff_of_enough enough]
  constructor
  · rintro ⟨left, depth, said⟩
    by_contra present
    have some := (ProgramToken.depth_nonneg enough tokens.length (Nat.le_refl _)).2
      (List.length_pos_iff.mpr present)
    match left, said with
    | 0, _ => omega
    | 1, said | _ + 2, said => cases said
  · rintro rfl
    exact ⟨0, rfl, rfl⟩

theorem tooManyOperands_iff (enough : ∀ position, ¬ ProgramToken.Underflows tokens position)
    {remaining : Nat} :
    Verdict tokens (some (.tooManyOperands remaining)) ↔
      2 ≤ ProgramToken.depth tokens tokens.length ∧
        ProgramToken.depth tokens tokens.length = remaining := by
  rw [iff_of_enough enough]
  constructor
  · rintro ⟨left, depth, said⟩
    match left, said with
    | 0, said | 1, said => cases said
    | left + 2, said =>
      cases said
      exact ⟨by omega, depth⟩
  · rintro ⟨many, depth⟩
    refine ⟨remaining, depth, ?_⟩
    match remaining with
    | 0 | 1 => omega
    | left + 2 => rfl

theorem none_iff (enough : ∀ position, ¬ ProgramToken.Underflows tokens position) :
    Verdict tokens none ↔ ProgramToken.depth tokens tokens.length = 1 := by
  rw [iff_of_enough enough]
  constructor
  · rintro ⟨left, depth, said⟩
    match left, said with
    | 1, _ => exact depth
    | 0, said | _ + 2, said => cases said
  · intro depth
    exact ⟨1, depth, rfl⟩

end Verdict

namespace Interpretation

variable {interpretation : Interpretation σ O V F}

theorem length_of_perform {position : Nat} {step : Step O} {stack after : List V} {state last : σ}
    (performed : interpretation.perform position step stack state = (.ok after, last)) :
    ¬ step.1.Lacks stack.length ∧ (after.length : Int) = stack.length + step.1.gain := by
  obtain ⟨token, payload⟩ := step
  cases token with
  | operand =>
    simp only [perform] at performed
    split at performed <;> cases performed
    exact ⟨id, by simp⟩
  | unary tier =>
    cases payload with
    | none => simp [perform] at performed
    | some payload =>
      cases stack with
      | nil => simp [perform] at performed
      | cons value below =>
        have size := length_of_settle performed
        simp only [ProgramToken.Lacks, ProgramToken.gain_unary, List.length_cons]
        omega
  | binary tier =>
    cases payload with
    | none => simp [perform] at performed
    | some payload =>
      rcases stack with _ | ⟨second, _ | ⟨first, below⟩⟩
      · simp [perform] at performed
      · simp [perform] at performed
      · have size := length_of_settle performed
        simp only [ProgramToken.Lacks, ProgramToken.gain_binary, List.length_cons]
        omega

theorem perform_of_lacks {step : Step O} (paired : step.Paired) {stack : List V}
    (lacks : step.1.Lacks stack.length) (position : Nat) (state : σ) :
    interpretation.perform position step stack state = (.error (.shape (.underflow position)), state) := by
  obtain ⟨token, payload⟩ := step
  cases token with
  | operand => exact lacks.elim
  | unary tier =>
    obtain ⟨operator, rfl⟩ := Option.isSome_iff_exists.mp paired
    match stack, lacks with
    | [], _ => rfl
    | _ :: _, lacks =>
      simp only [ProgramToken.Lacks, List.length_cons] at lacks
      omega
  | binary tier =>
    obtain ⟨operator, rfl⟩ := Option.isSome_iff_exists.mp paired
    match stack, lacks with
    | [], _ | [_], _ => rfl
    | _ :: _ :: _, lacks =>
      simp only [ProgramToken.Lacks, List.length_cons] at lacks
      omega

private theorem shape_of_settle {below : List V} {outcome : Except F V × σ} {error : ShapeError} :
    (settle below outcome).1 ≠ .error (.shape error) := by
  obtain ⟨result, state⟩ := outcome
  cases result <;> exact nofun

private theorem lacks_of_perform {position : Nat} {step : Step O} {stack : List V} {state : σ} {error : ShapeError}
    (stopped : (interpretation.perform position step stack state).1 = .error (.shape error)) :
    error = .underflow position ∧ step.1.Lacks stack.length := by
  obtain ⟨token, payload⟩ := step
  cases token with
  | operand =>
    simp only [perform] at stopped
    split at stopped <;> cases stopped
  | unary tier =>
    cases payload with
    | none => cases stack <;> cases stopped
    | some payload =>
      cases stack with
      | nil =>
        cases stopped
        exact ⟨rfl, Int.zero_lt_one⟩
      | cons value below => exact (shape_of_settle stopped).elim
  | binary tier =>
    cases payload with
    | none => cases stack <;> cases stopped
    | some payload =>
      rcases stack with _ | ⟨second, _ | ⟨first, below⟩⟩
      · cases stopped
        exact ⟨rfl, by simp [ProgramToken.Lacks]⟩
      · cases stopped
        exact ⟨rfl, by simp [ProgramToken.Lacks]⟩
      · exact (shape_of_settle stopped).elim

theorem length_of_run {position : Nat} {steps : List (Step O)} {stack after : List V} {state last : σ}
    (runs : interpretation.run position steps stack state = (.ok after, last)) :
    (after.length : Int) = stack.length + ((steps.map Prod.fst).map ProgramToken.gain).sum := by
  induction steps generalizing position stack state with
  | nil =>
    cases runs
    simp
  | cons step steps ih =>
    unfold run at runs
    split at runs
    next performed =>
      rw [ih runs, (length_of_perform performed).2]
      simp [Int.add_assoc]
    next => cases runs

theorem depth_of_run {position : Nat} {steps : List (Step O)} {after : List V} {state last : σ}
    (runs : interpretation.run position steps [] state = (.ok after, last)) :
    (after.length : Int) = ProgramToken.depth (steps.map Prod.fst) steps.length := by
  rw [length_of_run runs, ProgramToken.depth_eq_sum, List.take_of_length_le (by simp)]
  simp

private theorem enough_of_run {position : Nat} {steps : List (Step O)} {after : List V} {state last : σ}
    (runs : interpretation.run position steps [] state = (.ok after, last)) (place : Nat) :
    ¬ ProgramToken.Underflows (steps.map Prod.fst) place := by
  intro here
  have within := ProgramToken.lt_length_of_underflows here
  rw [List.length_map] at within
  have found := List.getElem?_eq_getElem within
  generalize steps[place] = step at found
  obtain ⟨first, later, rfl, rfl⟩ := exists_parted found
  rw [run_append] at runs
  split at runs
  next below reached ran =>
    unfold run at runs
    split at runs
    next performed =>
      have found := (length_of_perform performed).1
      rw [depth_of_run ran, ← List.length_map (f := Prod.fst)] at found
      rw [List.map_append, List.map_cons, ← List.length_map (f := Prod.fst)] at here
      exact found (ProgramToken.underflows_append_cons.mp here)
    next => cases runs
  next => cases runs

/-- A run that does not get through stops at the step after those it completes. -/
theorem exists_stop {position : Nat} {steps : List (Step O)} {stack : List V} {state last : σ} {halt : Halt F}
    (stopped : interpretation.run position steps stack state = (.error halt, last)) :
    ∃ before step after below reached, steps = before ++ step :: after ∧
      interpretation.completed position steps stack state = before.length ∧
      interpretation.run position before stack state = (.ok below, reached) ∧
      interpretation.perform (position + before.length) step below
        (interpretation.note (.step (position + before.length) step.1 below.length) reached) =
          (.error halt, last) := by
  obtain ⟨below, reached, ran, stops⟩ := interpretation.exists_run_completed position steps stack state
  generalize interpretation.completed position steps stack state = done at ran stops
  cases rest : steps.drop done with
  | nil =>
    rw [List.take_of_length_le (List.drop_eq_nil_iff.mp rest), stopped] at ran
    cases ran
  | cons step after =>
    have parted : steps.take done ++ step :: after = steps := by rw [← rest, List.take_append_drop]
    have size : (steps.take done).length = done := by
      rw [List.length_take, Nat.min_eq_left]
      exact Nat.le_of_lt (List.drop_eq_nil_iff.not.mp (by simp [rest]) |> Nat.lt_of_not_le)
    obtain ⟨other, final, performed⟩ := stops step (by simp [rest])
    rw [← parted, run_append, ran] at stopped
    simp only [run, size, performed] at stopped
    refine ⟨steps.take done, step, after, below, reached, parted.symm, size.symm, ran, ?_⟩
    rw [size, performed]
    exact stopped

private theorem firstUnderflow_of_run {steps : List (Step O)} {state : σ} {error : ShapeError}
    (stopped : (interpretation.run 0 steps [] state).1 = .error (.shape error)) :
    ∃ position, error = .underflow position ∧
      ProgramToken.FirstUnderflow (steps.map Prod.fst) position := by
  obtain ⟨before, step, after, below, reached, rfl, _, ran, stops⟩ :=
    exists_stop (Prod.ext stopped rfl)
  have lacking := lacks_of_perform (congrArg Prod.fst stops)
  rw [Nat.zero_add, depth_of_run ran, ← List.length_map (f := Prod.fst)] at lacking
  obtain ⟨said, lacks⟩ := lacking
  refine ⟨_, said, ?_, fun earlier less here => ?_⟩
  · rw [List.map_append, List.map_cons]
    exact ProgramToken.underflows_append_cons.mpr lacks
  · rw [List.map_append] at here
    exact enough_of_run ran earlier ((ProgramToken.underflows_append less).mp here)

private theorem run_of_refused {before : List (Step O)} {step : Step O} {state : σ} {cause : F}
    (paired : step.Paired)
    (only : ∀ halt, (interpretation.run 0 before [] state).1 = .error halt → ∃ error, halt = .shape error)
    (refused : ∀ (stack : List V) (reached : σ), ¬ step.1.Lacks stack.length →
      (interpretation.perform before.length step stack reached).1 = .error (.fault cause))
    (after : List (Step O)) :
    let tokens := (before ++ step :: after).map Prod.fst
    let result := (interpretation.run 0 (before ++ step :: after) [] state).1
    (∃ position ≤ before.length, ProgramToken.FirstUnderflow tokens position ∧
      result = .error (.shape (.underflow position))) ∨
    (∀ position ≤ before.length, ¬ ProgramToken.Underflows tokens position) ∧
      result = .error (.fault cause) ∧
      interpretation.completed 0 (before ++ step :: after) [] state = before.length := by
  have size : (before.map Prod.fst).length = before.length := List.length_map ..
  simp only [List.map_append, List.map_cons]
  rw [run_append]
  cases ran : interpretation.run 0 before [] state with
  | mk outcome reached =>
    cases outcome with
    | error halt =>
      obtain ⟨error, rfl⟩ := only halt (congrArg Prod.fst ran)
      obtain ⟨position, rfl, first⟩ := firstUnderflow_of_run (congrArg Prod.fst ran)
      have within := ProgramToken.lt_length_of_underflows first.1
      exact .inl ⟨position, size ▸ Nat.le_of_lt within, first.append _, rfl⟩
    | ok below =>
      have enough := enough_of_run ran
      have earlier : ∀ position < before.length,
          ¬ ProgramToken.Underflows (before.map Prod.fst ++ step.1 :: after.map Prod.fst) position :=
        fun position less here => enough position ((ProgramToken.underflows_append (size ▸ less)).mp here)
      have found : ProgramToken.Underflows (before.map Prod.fst ++ step.1 :: after.map Prod.fst) before.length ↔
          step.1.Lacks below.length := by
        rw [← size, ProgramToken.underflows_append_cons, depth_of_run ran, size]
      simp only [run, Nat.zero_add, completed_append ran, completed]
      by_cases lacks : step.1.Lacks below.length
      · simp only [perform_of_lacks paired lacks]
        exact .inl ⟨before.length, Nat.le_refl _, ⟨found.mpr lacks, earlier⟩, rfl⟩
      · have stops := refused below
          (interpretation.note (.step before.length step.1 below.length) reached) lacks
        obtain ⟨last, performed⟩ : ∃ last, interpretation.perform before.length step below
            (interpretation.note (.step before.length step.1 below.length) reached) =
              (.error (.fault cause), last) := ⟨_, Prod.ext stops rfl⟩
        simp only [performed]
        refine .inr ⟨fun position within here => ?_, trivial, Nat.add_zero _⟩
        rcases Nat.lt_or_eq_of_le within with less | rfl
        · exact earlier position less here
        · exact lacks (found.mp here)

end Interpretation

namespace Program

variable {program : Program O} {interpretation : Interpretation σ O V F} {state : σ}

private theorem verdict_of_run {stack : List V} {last : σ}
    (runs : interpretation.run 0 program.steps [] state = (.ok stack, last)) :
    Verdict program.tokens (ShapeError.ofLeft? stack.length) := by
  have enough := Interpretation.enough_of_run runs
  have depth := Interpretation.depth_of_run runs
  rw [← List.length_map (f := Prod.fst)] at depth
  rw [map_fst_steps] at enough depth
  exact .done enough depth.symm

private theorem verdict_of_value {value : V} (done : (program.evaluate interpretation state).1 = .ok value) :
    Verdict program.tokens none := by
  obtain ⟨last, runs⟩ := evaluate_eq_ok.mp done
  exact verdict_of_run runs

private theorem verdict_of_error {error : ShapeError}
    (stopped : (program.evaluate interpretation state).1 = .error (.shape error)) :
    Verdict program.tokens (some error) := by
  obtain early | ⟨stack, last, wrong, runs, sole, same⟩ := evaluate_eq_error.mp stopped
  · obtain ⟨position, rfl, first⟩ := Interpretation.firstUnderflow_of_run early
    rw [map_fst_steps] at first
    exact .stopped first
  · cases same
    have verdict := verdict_of_run runs
    rwa [ofLeft?_length, sole] at verdict

/-- Where nothing else can stop an evaluation, it says what is wrong with the shape of its program. -/
theorem evaluate_iff_verdict (only : ∀ halt, (program.evaluate interpretation state).1 = .error halt →
    ∃ error, halt = .shape error) :
    (∀ error, (program.evaluate interpretation state).1 = .error (.shape error) ↔
      Verdict program.tokens (some error)) ∧
    ((∃ value, (program.evaluate interpretation state).1 = .ok value) ↔ Verdict program.tokens none) := by
  cases outcome : (program.evaluate interpretation state).1 with
  | ok value =>
    have verdict := verdict_of_value outcome
    refine ⟨fun error => ⟨nofun, fun other => ?_⟩, fun _ => verdict, fun _ => ⟨value, rfl⟩⟩
    cases verdict.unique other
  | error halt =>
    obtain ⟨error, rfl⟩ := only halt outcome
    have verdict := verdict_of_error outcome
    refine ⟨fun other => ⟨?_, fun said => ?_⟩, nofun, fun said => ?_⟩
    · rintro ⟨⟩
      exact verdict
    · cases verdict.unique said
      rfl
    · cases verdict.unique said

theorem count_operand_of_parted {before after : List (Step O)} (parted : program.steps = before ++ after) :
    (before.map Prod.fst).count .operand ≤ program.operandCount := by
  rw [operandCount, ← program.map_fst_steps, parted, List.map_append, List.count_append]
  exact Nat.le_add_right _ _

theorem evaluate_of_refused {before after : List (Step O)} {step : Step O} {cause : F}
    (parted : program.steps = before ++ step :: after) (paired : step.Paired)
    (only : ∀ halt, (interpretation.run 0 before [] state).1 = .error halt → ∃ error, halt = .shape error)
    (refused : ∀ (stack : List V) (reached : σ), ¬ step.1.Lacks stack.length →
      (interpretation.perform before.length step stack reached).1 = .error (.fault cause)) :
    let result := (program.evaluate interpretation state).1
    (∃ position ≤ before.length, ProgramToken.FirstUnderflow program.tokens position ∧
      result = .error (.shape (.underflow position))) ∨
    (∀ position ≤ before.length, ¬ ProgramToken.Underflows program.tokens position) ∧
      result = .error (.fault cause) ∧
      interpretation.completed 0 program.steps [] state = before.length := by
  have outcome := Interpretation.run_of_refused paired only refused after
  rw [← parted, program.map_fst_steps] at outcome
  simp only [evaluate_eq]
  obtain ⟨position, within, first, stopped⟩ | ⟨enough, stopped, completed⟩ := outcome
  · rw [stopped]
    exact .inl ⟨position, within, first, rfl⟩
  · rw [stopped]
    exact .inr ⟨enough, rfl, completed⟩

theorem evaluate_alike {τ W G : Type} {other : Interpretation τ O W G} {beside : τ}
    (only : ∀ halt, (program.evaluate interpretation state).1 = .error halt → ∃ error, halt = .shape error)
    (onlyOther : ∀ halt, (program.evaluate other beside).1 = .error halt → ∃ error, halt = .shape error) :
    (∃ value, (program.evaluate interpretation state).1 = .ok value) ∧
        (∃ value, (program.evaluate other beside).1 = .ok value) ∨
      ∃ error, (program.evaluate interpretation state).1 = .error (.shape error) ∧
        (program.evaluate other beside).1 = .error (.shape error) := by
  have second := evaluate_iff_verdict onlyOther
  cases done : (program.evaluate interpretation state).1 with
  | ok value => exact .inl ⟨⟨value, rfl⟩, second.2.mpr (verdict_of_value done)⟩
  | error halt =>
    obtain ⟨error, rfl⟩ := only halt done
    exact .inr ⟨error, rfl, (second.1 error).mpr (verdict_of_error done)⟩

theorem only_shape_of_run (only : ∀ halt, (interpretation.run 0 program.steps [] state).1 = .error halt →
    ∃ error, halt = .shape error) :
    ∀ halt, (program.evaluate interpretation state).1 = .error halt → ∃ error, halt = .shape error := by
  intro halt stopped
  obtain early | ⟨_, _, error, _, _, same⟩ := evaluate_eq_error.mp stopped
  · exact only halt early
  · exact ⟨error, same⟩

theorem only_shape (compiled : program.Compiled) {room : Nat → σ → Prop}
    (provides : interpretation.Provides (fun _ => True) (fun _ => False) room)
    (enough : room program.operandCount state) :
    ∀ halt, (program.evaluate interpretation state).1 = .error halt → ∃ error, halt = .shape error :=
  fun halt stopped => Halt.exists_shape_of_foreseen (fun _ => id)
    (program.evaluate_foreseen provides (fun _ _ => trivial) compiled.paired state enough halt stopped)

/-- An evaluation that has operands enough and is refused nothing stops at the first operator that is short of values.
If there is none, the number of values that are left decides. So another evaluation of the program, over whatever
values, ends in the same way. -/
theorem evaluate_shape (compiled : program.Compiled) {room : Nat → σ → Prop}
    (provides : interpretation.Provides (fun _ => True) (fun _ => False) room)
    (enough : room program.operandCount state) :
    let result := (program.evaluate interpretation state).1
    let left := ProgramToken.depth program.tokens program.length
    (∀ position, result = .error (.shape (.underflow position)) ↔
      ProgramToken.Underflows program.tokens position ∧
        ∀ earlier < position, ¬ ProgramToken.Underflows program.tokens earlier) ∧
    ((∀ position, ¬ ProgramToken.Underflows program.tokens position) →
      (result = .error (.shape .emptyExpression) ↔ program.tokens = []) ∧
      (∀ remaining : Nat,
        result = .error (.shape (.tooManyOperands remaining)) ↔ 2 ≤ left ∧ left = remaining) ∧
      ((∃ value, result = .ok value) ↔ left = 1)) ∧
    ∀ {τ W G : Type} {other : Interpretation τ O W G} {space : Nat → τ → Prop} {beside : τ},
      other.Provides (fun _ => True) (fun _ => False) space → space program.operandCount beside →
        (∃ value, result = .ok value) ∧ (∃ value, (program.evaluate other beside).1 = .ok value) ∨
        ∃ error, result = .error (.shape error) ∧
          (program.evaluate other beside).1 = .error (.shape error) := by
  have outcome := evaluate_iff_verdict (only_shape compiled provides enough)
  refine ⟨fun position => ?_, fun sufficient => ⟨?_, fun remaining => ?_, ?_⟩, fun providesOther enoughOther => ?_⟩
  · exact (outcome.1 _).trans Verdict.underflow_iff
  · exact (outcome.1 _).trans (Verdict.emptyExpression_iff sufficient)
  · exact (outcome.1 _).trans (Verdict.tooManyOperands_iff sufficient)
  · exact outcome.2.trans (Verdict.none_iff sufficient)
  · exact evaluate_alike (only_shape compiled provides enough) (only_shape compiled providesOther enoughOther)

/-- The unary operator takes the only value and gives one back, so the binary operator is one short. -/
theorem evaluate_shape_of_missing_operand :
    let program : Program String := ⟨[.operand, .unary .second, .binary .first], ["-", "+"]⟩
    program.Compiled ∧ program.operandCount ≤ [(7 : Int)].length ∧
      ProgramToken.depth program.tokens 2 = 1 ∧
      (program.evaluate (Recording.interpretation (fun _ value => -value) fun _ left right => left + right)
        (.start [7] #[])).1 = .error (.shape (.underflow 2)) := by
  intro program
  have compiled : program.Compiled :=
    .inr ⟨[.operand, .binary .first, .unary .second], ["+", "-"], rfl⟩
  have enough : program.operandCount ≤ [(7 : Int)].length := by decide
  exact ⟨compiled, enough, by decide,
    ((evaluate_shape compiled (Recording.provides _ _) enough).1 2).mpr ⟨by decide, by decide⟩⟩

end Program
end SignalStrip
