import SignalStrip.Proofs.Depth

/-! What an evaluation does on the way. Every completed step pulls a value or applies its operator, once, and every
step that is begun is noted. The first step that finds too few values on the stack, or no value in the supply, is
noted and does nothing, and nothing comes after it. -/

namespace SignalStrip

variable {σ O V F : Type}

def Step.event? (supply : List V) : Step O → Option (Event O V)
  | (.operand, _) => supply.head?.map .pull
  | (.unary _, payload) => payload.map .unary
  | (.binary _, payload) => payload.map .binary

namespace Program

def eventAt? (program : Program O) (supply : List V) (position : Nat) : Option (Event O V) :=
  program.steps[position]?.bind (Step.event? (supply.drop ((program.tokens.take position).count .operand)))

def recordAt? (program : Program O) (position : Nat) : Option Record :=
  program.tokens[position]?.map fun token =>
    .step position token (ProgramToken.depth program.tokens position).toNat

end Program

namespace ProgramToken

/-- The token at `position` is an operand, and those before it take all of `supplied` values. -/
def Exhausts (tokens : List ProgramToken) (supplied position : Nat) : Prop :=
  tokens[position]? = some operand ∧ supplied ≤ (tokens.take position).count operand

instance (tokens : List ProgramToken) (supplied position : Nat) : Decidable (Exhausts tokens supplied position) :=
  inferInstanceAs (Decidable (_ ∧ _))

/-- The token at `position` finds too few values, on the stack or in the supply. -/
def Stops (tokens : List ProgramToken) (supplied position : Nat) : Prop :=
  Underflows tokens position ∨ Exhausts tokens supplied position

/-- Exactly the first `count` tokens can be performed one after the other. -/
structure Performs (tokens : List ProgramToken) (supplied count : Nat) : Prop where
  within : count ≤ tokens.length
  free : ∀ position < count, ¬ Stops tokens supplied position
  stops : count < tokens.length → Stops tokens supplied count

private theorem not_underflows_of_exhausts {tokens : List ProgramToken} {supplied position : Nat}
    (exhausts : Exhausts tokens supplied position) : ¬ Underflows tokens position := by
  rintro ⟨token, found, lacks⟩
  cases exhausts.1.symm.trans found
  exact lacks

private theorem Performs.depth_nonneg {tokens : List ProgramToken} {supplied count position : Nat}
    (performs : Performs tokens supplied count) (within : position ≤ count) : 0 ≤ depth tokens position := by
  have size : (tokens.take position).length = position := by
    rw [List.length_take, Nat.min_eq_left (Nat.le_trans within performs.within)]
  have enough : ∀ earlier, ¬ Underflows (tokens.take position) earlier := by
    intro earlier here
    have less := size ▸ lt_length_of_underflows here
    refine performs.free earlier (Nat.lt_of_lt_of_le less within) (.inl ?_)
    rw [← List.take_append_drop position tokens]
    exact (underflows_append (size.symm ▸ less)).mpr here
  have positive := (ProgramToken.depth_nonneg enough position (Nat.le_of_eq size.symm)).1
  rwa [depth, List.take_take, Nat.min_self] at positive

private theorem lt_length_of_exhausts {tokens : List ProgramToken} {supplied position : Nat}
    (exhausts : Exhausts tokens supplied position) : position < tokens.length :=
  (List.getElem?_eq_some_iff.mp exhausts.1).1

private theorem Performs.exhausts_of_exhausts {tokens : List ProgramToken} {supplied count position : Nat}
    (performs : Performs tokens supplied count) (exhausts : Exhausts tokens supplied position)
    (enough : ∀ earlier < position, ¬ Underflows tokens earlier) : Exhausts tokens supplied count := by
  have within := lt_length_of_exhausts exhausts
  rcases Nat.lt_trichotomy position count with less | rfl | more
  · exact (performs.free position less (.inr exhausts)).elim
  · exact exhausts
  · obtain underflows | first := performs.stops (Nat.lt_trans more within)
    · exact (enough count more underflows).elim
    · exact first

private theorem Performs.count_le {tokens : List ProgramToken} {supplied count : Nat}
    (performs : Performs tokens supplied count) {position : Nat} (within : position ≤ count) :
    (tokens.take position).count operand ≤ supplied := by
  refine countP_take_le fun earlier less token found here => Nat.lt_of_not_le fun used => ?_
  rw [eq_of_beq here] at found
  exact performs.free earlier (Nat.lt_of_lt_of_le less within) (.inr ⟨found, used⟩)

end ProgramToken

namespace Interpretation

/-- Seen through `view`, an interpretation pulls, applies and notes as a recording does. Its operators refuse nothing,
and what else they do to a state does not show. -/
structure Viewed (view : σ → Recording O V) (interpretation : Interpretation σ O V F) : Prop where
  next (state : σ) :
    (interpretation.next state).map (fun taken => (taken.1, view taken.2)) = (view state).next
  unary (payload : O) (value : V) (state : σ) :
    ∃ result after, interpretation.unary payload value state = (.ok result, after) ∧
      view after = (view state).add (.unary payload)
  binary (payload : O) (left right : V) (state : σ) :
    ∃ result after, interpretation.binary payload left right state = (.ok result, after) ∧
      view after = (view state).add (.binary payload)
  note (record : Record) (state : σ) :
    view (interpretation.note record state) = { view state with log := (view state).log.push record }

variable {view : σ → Recording O V} {interpretation : Interpretation σ O V F}

theorem Viewed.pull (viewed : interpretation.Viewed view) (state : σ) :
    interpretation.next state = none ∧ (view state).supply = [] ∨
      ∃ value rest last, (view state).supply = value :: rest ∧ interpretation.next state = some (value, last) ∧
        view last = ⟨rest, (view state).events.push (.pull value), (view state).log⟩ := by
  have taken := viewed.next state
  cases pulled : interpretation.next state with
  | none =>
    rw [pulled, Recording.next] at taken
    split at taken
    next used => exact .inl ⟨rfl, used⟩
    next => cases taken
  | some found =>
    rw [pulled, Recording.next] at taken
    split at taken
    next => cases taken
    next value rest left =>
      simp only [Option.map_some, Option.some.injEq, Prod.mk.injEq] at taken
      obtain ⟨rfl, seen⟩ := taken
      exact .inr ⟨_, rest, _, left, rfl, seen⟩

theorem Viewed.perform (viewed : interpretation.Viewed view) (position : Nat) {step : Step O}
    (paired : step.Paired) (stack : List V) (state : σ) :
    let before := view state
    (∃ after last event, interpretation.perform position step stack state = (.ok after, last) ∧
      step.event? before.supply = some event ∧
      view last = ⟨before.supply.drop ([step.1].count .operand), before.events.push event, before.log⟩) ∨
    ∃ halt last, interpretation.perform position step stack state = (.error halt, last) ∧ view last = before ∧
      (halt = .shape (.underflow position) ∧ step.1.Lacks stack.length ∨
        halt = .exhausted position ∧ step.1 = .operand ∧ before.supply = []) := by
  obtain ⟨token, payload⟩ := step
  by_cases lacks : token.Lacks stack.length
  · exact .inr ⟨_, _, perform_of_lacks paired lacks position state, rfl, .inl ⟨rfl, lacks⟩⟩
  cases token with
  | operand =>
    obtain ⟨none, used⟩ | ⟨value, rest, last, left, pulled, seen⟩ := viewed.pull state
    · exact .inr ⟨_, _, by rw [Interpretation.perform, none], rfl, .inr ⟨rfl, rfl, used⟩⟩
    · refine .inl ⟨_, _, .pull value, by rw [Interpretation.perform, pulled], ?_, ?_⟩
      · rw [Step.event?, left]
        rfl
      · rw [seen, left]
        rfl
  | unary tier =>
    obtain ⟨operator, rfl⟩ := Option.isSome_iff_exists.mp paired
    cases stack with
    | nil => exact (lacks Int.zero_lt_one).elim
    | cons value below =>
      obtain ⟨result, after, applies, seen⟩ := viewed.unary operator value state
      exact .inl ⟨_, _, _, by rw [Interpretation.perform, applies]; rfl, rfl, seen⟩
  | binary tier =>
    obtain ⟨operator, rfl⟩ := Option.isSome_iff_exists.mp paired
    rcases stack with _ | ⟨right, _ | ⟨left, below⟩⟩
    · exact (lacks (by simp [ProgramToken.Lacks])).elim
    · exact (lacks (by simp [ProgramToken.Lacks])).elim
    · obtain ⟨result, after, applies, seen⟩ := viewed.binary operator left right state
      exact .inl ⟨_, _, _, by rw [Interpretation.perform, applies]; rfl, rfl, seen⟩

end Interpretation

private theorem Recording.viewed (unary : O → V → V) (binary : O → V → V → V) :
    (interpretation unary binary).Viewed id where
  next state := by
    cases pulled : state.next <;> simp [interpretation, pulled]
  unary _ _ _ := ⟨_, _, rfl, rfl⟩
  binary _ _ _ _ := ⟨_, _, rfl, rfl⟩
  note _ _ := rfl

namespace Program

/-- What has been done, pulled and noted when the first `count` steps are completed. -/
structure Passed (program : Program O) (start : Recording O V) (count : Nat) (reached : Recording O V) : Prop where
  events : reached.events.toList.map some =
    start.events.toList.map some ++ (List.range count).map (program.eventAt? start.supply)
  supply : reached.supply = start.supply.drop ((program.tokens.take count).count .operand)
  log : reached.log.toList.map some = start.log.toList.map some ++ (List.range count).map program.recordAt?
  free : ∀ position < count, ¬ ProgramToken.Stops program.tokens start.supply.length position

variable {program : Program O}

private theorem passed_zero (start : Recording O V) : program.Passed start 0 start where
  events := by simp
  supply := by simp
  log := by simp
  free := nofun

private theorem tokens_getElem? {count : Nat} {step : Step O} (found : program.steps[count]? = some step) :
    program.tokens[count]? = some step.1 := by
  rw [← program.map_fst_steps, List.getElem?_map, found]
  rfl

private theorem recordAt?_eq {count : Nat} {step : Step O} (found : program.steps[count]? = some step) {stack : List V}
    (level : (stack.length : Int) = ProgramToken.depth program.tokens count) :
    program.recordAt? count = some (.step count step.1 stack.length) := by
  rw [recordAt?, tokens_getElem? found, ← level]
  rfl

theorem Passed.step {start before after : Recording O V} {count : Nat} (passed : program.Passed start count before)
    {step : Step O} (found : program.steps[count]? = some step) {stack : List V}
    (level : (stack.length : Int) = ProgramToken.depth program.tokens count)
    (enough : ¬ step.1.Lacks stack.length) {event : Event O V} (happens : step.event? before.supply = some event)
    (seen : after = ⟨before.supply.drop ([step.1].count .operand), before.events.push event,
      before.log.push (.step count step.1 stack.length)⟩) : program.Passed start (count + 1) after := by
  have token := tokens_getElem? found
  subst seen
  refine ⟨?_, ?_, ?_, fun position within => ?_⟩
  · rw [passed.supply] at happens
    simp [passed.events, List.range_succ, eventAt?, found, happens]
  · simp [passed.supply, List.take_add_one, token, List.count_append]
  · simp [passed.log, List.range_succ, recordAt?_eq found level]
  · rcases Nat.lt_or_eq_of_le (Nat.le_of_lt_succ within) with earlier | rfl
    · exact passed.free position earlier
    rintro (⟨_, here, lacks⟩ | ⟨here, used⟩)
    · cases token.symm.trans here
      exact enough (level ▸ lacks)
    · obtain ⟨_, payload⟩ := step
      cases token.symm.trans here
      rw [passed.supply, Step.event?, List.drop_eq_nil_of_le used] at happens
      cases happens

end Program

namespace Interpretation

variable {view : σ → Recording O V} {interpretation : Interpretation σ O V F}

private theorem depth_of_run_take {program : Program O} {count : Nat} (within : count ≤ program.length) {stack : List V}
    {state reached : σ} (ran : interpretation.run 0 (program.steps.take count) [] state = (.ok stack, reached)) :
    (stack.length : Int) = ProgramToken.depth program.tokens count := by
  rw [depth_of_run ran, List.map_take, program.map_fst_steps, List.length_take, program.length_steps,
    Nat.min_eq_left within, ProgramToken.depth, List.take_take, Nat.min_self]
  rfl

theorem Viewed.passed (viewed : interpretation.Viewed view) {program : Program O}
    (paired : ∀ step ∈ program.steps, step.Paired) {count : Nat} (within : count ≤ program.length) {state : σ}
    {stack : List V} {reached : σ}
    (ran : interpretation.run 0 (program.steps.take count) [] state = (.ok stack, reached)) :
    program.Passed (view state) count (view reached) := by
  induction count generalizing stack reached with
  | zero =>
    cases ran
    exact Program.passed_zero _
  | succ count ih =>
    have size : count < program.steps.length := by rwa [program.length_steps]
    have found := List.getElem?_eq_getElem size
    generalize program.steps[count] = step at found
    have before := Nat.le_of_succ_le within
    rw [List.take_add_one, found, Option.toList_some, run_append] at ran
    split at ran
    next below middle ran' =>
      have length : (program.steps.take count).length = count := by
        rw [List.length_take, Nat.min_eq_left (Nat.le_of_lt size)]
      have level := depth_of_run_take before ran'
      simp only [run, Nat.zero_add, length] at ran
      obtain ⟨after, last, event, performed, happens, seen⟩ | ⟨halt, last, stopped, _⟩ :=
        viewed.perform count (paired step (List.mem_of_getElem? found)) below
          (interpretation.note (.step count step.1 below.length) middle)
      · rw [performed] at ran
        cases ran
        rw [viewed.note] at happens seen
        exact (ih before ran').step found level (length_of_perform performed).1 happens seen
      · rw [stopped] at ran
        cases ran
    next => cases ran

end Interpretation

namespace Program

/-- What an evaluation leaves behind that completes the first `done` steps and no more. The step that stops it, if one
does, is noted before it stops. -/
structure Footprint (program : Program O) (start : Recording O V) (done : Nat) (last : Recording O V) : Prop where
  performs : ProgramToken.Performs program.tokens start.supply.length done
  events : last.events.toList.map some =
    start.events.toList.map some ++ (List.range done).map (program.eventAt? start.supply)
  supply : last.supply = start.supply.drop ((program.tokens.take done).count .operand)
  log : last.log.toList.map some =
    start.log.toList.map some ++ (List.range (min (done + 1) program.length)).map program.recordAt?

variable {program : Program O}

inductive Ending (program : Program O) (supplied done : Nat) : Except (Halt F) (List V) → Prop where
  | completed (all : done = program.length) (stack : List V) : Ending program supplied done (.ok stack)
  | underflow (here : ProgramToken.Underflows program.tokens done) :
      Ending program supplied done (.error (.shape (.underflow done)))
  | exhausted (here : ProgramToken.Exhausts program.tokens supplied done) :
      Ending program supplied done (.error (.exhausted done))

private theorem Passed.footprint {start reached : Recording O V}
    (passed : program.Passed start program.length reached) :
    program.Footprint start program.length reached where
  performs := ⟨Nat.le_refl _, passed.free, fun less => (Nat.lt_irrefl _ less).elim⟩
  events := passed.events
  supply := passed.supply
  log := by rw [Nat.min_eq_right (Nat.le_succ _), passed.log]

private theorem Passed.footprint_of_stops {start reached : Recording O V} {done : Nat}
    (passed : program.Passed start done reached) (within : done < program.length)
    (stops : ProgramToken.Stops program.tokens start.supply.length done) {record : Record}
    (noted : program.recordAt? done = some record) :
    program.Footprint start done { reached with log := reached.log.push record } where
  performs := ⟨Nat.le_of_lt within, passed.free, fun _ => stops⟩
  events := passed.events
  supply := passed.supply
  log := by
    rw [Nat.min_eq_left within]
    simp [passed.log, List.range_succ, noted]

variable {view : σ → Recording O V} {interpretation : Interpretation σ O V F}

theorem exists_footprint (viewed : interpretation.Viewed view) (paired : ∀ step ∈ program.steps, step.Paired)
    (state : σ) :
    let ran := interpretation.run 0 program.steps [] state
    ∃ done, program.Footprint (view state) done (view ran.2) ∧
      program.Ending (view state).supply.length done ran.1 := by
  have size := program.length_steps
  cases ran : interpretation.run 0 program.steps [] state with
  | mk outcome last =>
    cases outcome with
    | ok stack =>
      rw [← List.take_length (l := program.steps), size] at ran
      exact ⟨_, (viewed.passed paired (Nat.le_refl _) ran).footprint, .completed rfl stack⟩
    | error halt =>
      obtain ⟨before, step, after, below, reached, parted, _, ran', stops⟩ := Interpretation.exists_stop ran
      have within : before.length < program.length := by
        rw [← size, parted, List.length_append, List.length_cons]
        omega
      have found : program.steps[before.length]? = some step := by simp [parted]
      have begun : program.steps.take before.length = before := by simp [parted]
      rw [← begun] at ran'
      have passed := viewed.passed paired (Nat.le_of_lt within) ran'
      have level := Interpretation.depth_of_run_take (Nat.le_of_lt within) ran'
      rw [Nat.zero_add] at stops
      obtain ⟨_, _, _, performed, _⟩ | ⟨_, _, stopped, kept, reason⟩ :=
        viewed.perform before.length (paired step (List.mem_of_getElem? found)) below
          (interpretation.note (.step before.length step.1 below.length) reached)
      · cases stops.symm.trans performed
      cases stops.symm.trans stopped
      rw [viewed.note] at kept reason
      have noted := recordAt?_eq found level
      dsimp only
      rw [kept]
      obtain ⟨rfl, lacks⟩ | ⟨rfl, operand, used⟩ := reason
      · have underflows : ProgramToken.Underflows program.tokens before.length :=
          ⟨_, tokens_getElem? found, level ▸ lacks⟩
        exact ⟨_, passed.footprint_of_stops within (.inl underflows) noted, .underflow underflows⟩
      · rw [passed.supply, List.drop_eq_nil_iff] at used
        have exhausts : ProgramToken.Exhausts program.tokens (view state).supply.length before.length :=
          ⟨operand ▸ tokens_getElem? found, used⟩
        exact ⟨_, passed.footprint_of_stops within (.inr exhausts) noted, .exhausted exhausts⟩

theorem Footprint.of_all {start last : Recording O V} (footprint : program.Footprint start program.length last) :
    program.operandCount ≤ start.supply.length ∧ last.supply = start.supply.drop program.operandCount ∧
      last.events.size = start.events.size + program.length := by
  have supply := footprint.supply
  have events := congrArg List.length footprint.events
  rw [length, List.take_length] at supply
  have fits := footprint.performs.count_le (Nat.le_refl _)
  rw [length, List.take_length] at fits
  refine ⟨fits, supply, ?_⟩
  simpa using events

theorem Footprint.message {start last : Recording O V} {done : Nat} (footprint : program.Footprint start done last)
    {position : Nat} (within : position ≤ done) {token : ProgramToken}
    (found : program.tokens[position]? = some token) :
    ∃ record ∈ program.recordAt? position, record.level = .trace ∧
      record.message =
        s!"step {position}: {token.text} (depth {ProgramToken.depth program.tokens position})" := by
  have positive := footprint.performs.depth_nonneg within
  refine ⟨_, by rw [recordAt?, found]; rfl, rfl, ?_⟩
  obtain ⟨depth, level⟩ := Int.eq_ofNat_of_zero_le positive
  rw [level]
  rfl

namespace Ending

variable {supplied done : Nat} {outcome : Except (Halt F) (List V)}

abbrev result (outcome : Except (Halt F) (List V)) : Except (Halt F) V :=
  outcome.bind fun stack => (soleValue stack).mapError .shape

private theorem result_completed (stack : List V) (position : Nat) :
    result (.ok stack : Except (Halt F) (List V)) ≠ .error (.shape (.underflow position)) ∧
      ∀ halt, result (.ok stack : Except (Halt F) (List V)) = .error halt → ∃ error, halt = .shape error := by
  match stack with
  | [] => exact ⟨nofun, fun _ same => by cases same; exact ⟨_, rfl⟩⟩
  | [_] => exact ⟨nofun, nofun⟩
  | _ :: _ :: _ => exact ⟨nofun, fun _ same => by cases same; exact ⟨_, rfl⟩⟩

theorem underflow_iff (ends : program.Ending supplied done outcome) (position : Nat) :
    result outcome = .error (.shape (.underflow position)) ↔
      position = done ∧ ProgramToken.Underflows program.tokens done := by
  cases ends with
  | completed all stack =>
    refine ⟨fun said => ((result_completed stack position).1 said).elim, ?_⟩
    rintro ⟨_, here⟩
    exact (Nat.ne_of_lt (ProgramToken.lt_length_of_underflows here) all).elim
  | underflow here =>
    constructor
    · rintro ⟨⟩
      exact ⟨rfl, here⟩
    · rintro ⟨rfl, _⟩
      rfl
  | exhausted here => exact ⟨nofun, fun there => (ProgramToken.not_underflows_of_exhausts here there.2).elim⟩

theorem exhausted_iff (ends : program.Ending supplied done outcome) (position : Nat) :
    result outcome = .error (.exhausted position) ↔
      position = done ∧ ProgramToken.Exhausts program.tokens supplied done := by
  cases ends with
  | completed all stack =>
    refine ⟨fun said => ?_, ?_⟩
    · obtain ⟨_, same⟩ := (result_completed stack position).2 _ said
      cases same
    · rintro ⟨_, here⟩
      exact (Nat.ne_of_lt (ProgramToken.lt_length_of_exhausts here) all).elim
  | underflow here => exact ⟨nofun, fun there => (ProgramToken.not_underflows_of_exhausts there.2 here).elim⟩
  | exhausted here =>
    constructor
    · rintro ⟨⟩
      exact ⟨rfl, here⟩
    · rintro ⟨rfl, _⟩
      rfl

private theorem shape_or_exhausted (ends : program.Ending supplied done outcome) {halt : Halt F}
    (stopped : result outcome = .error halt) : (∃ error, halt = .shape error) ∨ halt = .exhausted done := by
  cases ends with
  | completed all stack => exact .inl ((result_completed stack 0).2 halt stopped)
  | underflow here =>
    cases stopped
    exact .inl ⟨_, rfl⟩
  | exhausted here =>
    cases stopped
    exact .inr rfl

private theorem all_of_value (ends : program.Ending supplied done outcome) {value : V}
    (valued : result outcome = .ok value) :
    done = program.length := by
  cases ends with
  | completed all stack => exact all
  | underflow here | exhausted here => cases valued

end Ending

/-- Each completed step leaves one event, in order, and each step that is begun leaves one record. The first step that
cannot be performed leaves no event, and nothing comes after it. Only a supply that ends before any operator runs short
of values stops an evaluation for another reason than its shape. -/
theorem evaluate_footprint (compiled : program.Compiled) (viewed : interpretation.Viewed view) (state : σ) :
    let start := view state
    let result := (program.evaluate interpretation state).1
    let last := view (program.evaluate interpretation state).2
    (∃ done, program.Footprint start done last ∧
      (∀ position ≤ done, ∀ token, program.tokens[position]? = some token →
        ∃ record ∈ program.recordAt? position, record.level = .trace ∧
          record.message =
            s!"step {position}: {token.text} (depth {ProgramToken.depth program.tokens position})") ∧
      (∀ position, result = .error (.shape (.underflow position)) ↔
        position = done ∧ ProgramToken.Underflows program.tokens done) ∧
      ∀ position, result = .error (.exhausted position) ↔
        position = done ∧ ProgramToken.Exhausts program.tokens start.supply.length done) ∧
    ((∃ value, result = .ok value) →
      program.operandCount ≤ start.supply.length ∧ last.supply = start.supply.drop program.operandCount ∧
        last.events.size = start.events.size + program.length) ∧
    ((∃ halt, result = .error halt ∧ ∀ error, halt ≠ .shape error) ↔
      ∃ position, ProgramToken.Exhausts program.tokens start.supply.length position ∧
        ∀ earlier < position, ¬ ProgramToken.Underflows program.tokens earlier) := by
  obtain ⟨done, footprint, ends⟩ := exists_footprint viewed compiled.paired state
  simp only [evaluate_eq]
  refine ⟨⟨done, footprint, fun _ within _ => footprint.message within, ends.underflow_iff, ends.exhausted_iff⟩,
    ?_, ?_, ?_⟩
  · rintro ⟨value, valued⟩
    cases ends.all_of_value valued
    exact footprint.of_all
  · rintro ⟨halt, stopped, other⟩
    obtain ⟨error, rfl⟩ | rfl := ends.shape_or_exhausted stopped
    · exact (other error rfl).elim
    · have exhausts := ((ends.exhausted_iff done).mp stopped).2
      exact ⟨done, exhausts, fun earlier less here => footprint.performs.free earlier less (.inl here)⟩
  · rintro ⟨position, exhausts, enough⟩
    have first := footprint.performs.exhausts_of_exhausts exhausts enough
    exact ⟨_, (ends.exhausted_iff done).mpr ⟨rfl, first⟩, nofun⟩

/-- The product lacks an operand: the sum before it has been applied, and the last value stays in the supply. -/
theorem evaluate_footprint_of_missing_factor :
    let program : Program String :=
      ⟨[.operand, .operand, .binary .first, .binary .second, .operand], ["+", "*"]⟩
    let plain := Recording.interpretation (fun (_ : String) (value : Int) => value) fun _ left right => left + right
    let evaluated := program.evaluate plain (.start [5, 3, 9] #[])
    program.Compiled ∧ plain.Viewed id ∧ evaluated.1 = .error (.shape (.underflow 3)) ∧
      evaluated.2.events.toList = [.pull 5, .pull 3, .binary "+"] ∧ evaluated.2.supply = [9] ∧
      evaluated.2.log.toList = [.step 0 .operand 0, .step 1 .operand 1, .step 2 (.binary .first) 2,
        .step 3 (.binary .second) 1] := by
  intro program plain evaluated
  have compiled : program.Compiled :=
    .inr ⟨[.operand, .binary .first, .operand, .rightParen, .binary .second, .rightParen, .operand], ["+", "*"], rfl⟩
  have viewed : plain.Viewed id := Recording.viewed _ _
  have stopped : evaluated.1 = .error (.shape (.underflow 3)) := rfl
  obtain ⟨⟨done, footprint, _, underflow, _⟩, _⟩ := evaluate_footprint compiled viewed (.start [5, 3, 9] #[])
  obtain ⟨rfl, _⟩ := (underflow 3).mp stopped
  have all {α : Type} {first second : List α} (same : first.map some = second.map some) : first = second :=
    (List.map_inj_right fun _ _ => Option.some.inj).mp same
  exact ⟨compiled, viewed, stopped, all footprint.events, footprint.supply, all footprint.log⟩

end Program

end SignalStrip
