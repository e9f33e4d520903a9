import SignalStrip.Program

/-! Expressions as trees. The steps of an expression are its postorder. Reading steps back on a stack
of trees shows that no two expressions share their steps. -/

namespace SignalStrip

variable {O : Type}

/-- Exactly the operators have a payload. -/
def Step.Paired : Step O → Prop
  | (.operand, payload) => payload = none
  | (_, payload) => payload.isSome

namespace Program

def ofSteps (steps : List (Step O)) : Program O :=
  ⟨steps.map Prod.fst, steps.filterMap Prod.snd⟩

theorem ofSteps_append (first second : List (Step O)) :
    ofSteps (first ++ second) = ofSteps first ++ ofSteps second := by
  show _ = append _ _
  simp [ofSteps, append]

theorem steps_ofSteps {steps : List (Step O)} (paired : ∀ step ∈ steps, Step.Paired step) :
    (ofSteps steps).steps = steps := by
  induction steps with
  | nil => rfl
  | cons step steps ih =>
    obtain ⟨token, payload⟩ := step
    have here : Step.Paired (token, payload) := paired _ (by simp)
    have rest := ih fun step member => paired step (by simp [member])
    simp only [Program.steps, ofSteps] at rest
    cases token with
    | operand =>
      cases here
      simp [Program.steps, ofSteps, pair, rest]
    | unary tier | binary tier =>
      obtain ⟨operator, rfl⟩ := Option.isSome_iff_exists.mp here
      simp [Program.steps, ofSteps, pair, rest]

private theorem payload_of_operand_pair {tokens : List ProgramToken} {payloads : List O} :
    ∀ step ∈ pair tokens payloads, step.1 = .operand → step.2 = none := by
  induction tokens generalizing payloads with
  | nil => simp [pair]
  | cons token tokens ih =>
    cases token with
    | operand =>
      intro step member _
      rcases List.mem_cons.mp member with rfl | later
      · rfl
      · exact ih step later ‹_›
    | unary tier | binary tier =>
      intro step member same
      rcases List.mem_cons.mp member with rfl | later
      · cases same
      · exact ih step later same

theorem payload_of_operand (program : Program O) :
    ∀ step ∈ program.steps, step.1 = .operand → step.2 = none :=
  payload_of_operand_pair

end Program

inductive Expression (O : Type) where
  | operand
  | unary (tier : Tier) (payload : O) (inner : Expression O)
  | binary (tier : Tier) (payload : O) (left right : Expression O)
  deriving DecidableEq, Repr

namespace Expression

def postorder : Expression O → List (Step O)
  | operand => [(.operand, none)]
  | unary tier payload inner => inner.postorder ++ [(.unary tier, some payload)]
  | binary tier payload left right =>
    left.postorder ++ right.postorder ++ [(.binary tier, some payload)]

def operandCount : Expression O → Nat
  | operand => 1
  | unary _ _ inner => inner.operandCount
  | binary _ _ left right => left.operandCount + right.operandCount

theorem operandCount_pos (tree : Expression O) : 0 < tree.operandCount := by
  induction tree with
  | operand => exact Nat.one_pos
  | unary _ _ inner ih => exact ih
  | binary _ _ left right ihLeft _ => exact Nat.add_pos_left ihLeft _

theorem count_operand_postorder (tree : Expression O) :
    (tree.postorder.map Prod.fst).count .operand = tree.operandCount := by
  induction tree with
  | operand => rfl
  | unary _ _ inner ih => simp [postorder, operandCount, ih]
  | binary _ _ left right ihLeft ihRight =>
    simp [postorder, operandCount, ihLeft, ihRight]

theorem paired_postorder (tree : Expression O) : ∀ step ∈ tree.postorder, step.Paired := by
  induction tree with
  | operand => exact List.forall_mem_singleton.mpr rfl
  | unary tier payload inner ih =>
    rw [postorder, List.forall_mem_append]
    exact ⟨ih, List.forall_mem_singleton.mpr rfl⟩
  | binary tier payload left right ihLeft ihRight =>
    rw [postorder, List.forall_mem_append, List.forall_mem_append]
    exact ⟨⟨ihLeft, ihRight⟩, List.forall_mem_singleton.mpr rfl⟩

/-- Reads one step on top of `forest`, which has the tree of the latest step first. Refuses a step that
finds too few trees, and one whose payload is missing or should not be there. -/
def graft (forest : List (Expression O)) : Step O → Option (List (Expression O))
  | (.operand, none) => some (operand :: forest)
  | (.unary tier, some payload) =>
    match forest with
    | inner :: rest => some (unary tier payload inner :: rest)
    | [] => none
  | (.binary tier, some payload) =>
    match forest with
    | right :: left :: rest => some (binary tier payload left right :: rest)
    | _ => none
  | (.operand, some _) | (.unary _, none) | (.binary _, none) => none

def grow (steps : List (Step O)) (forest : List (Expression O)) : Option (List (Expression O)) :=
  steps.foldlM graft forest

@[simp] theorem grow_nil (forest : List (Expression O)) : grow [] forest = some forest := rfl

@[simp] theorem grow_cons (step : Step O) (steps : List (Step O)) (forest : List (Expression O)) :
    grow (step :: steps) forest = (graft forest step).bind (grow steps) := by
  simp only [grow, List.foldlM_cons]
  rfl

@[simp] theorem grow_append (first second : List (Step O)) (forest : List (Expression O)) :
    grow (first ++ second) forest = (grow first forest).bind (grow second) := by
  simp only [grow, List.foldlM_append]
  rfl

@[simp] theorem grow_postorder (tree : Expression O) (forest : List (Expression O)) :
    grow tree.postorder forest = some (tree :: forest) := by
  induction tree generalizing forest with
  | operand => rfl
  | unary tier payload inner ih => simp [postorder, ih, graft]
  | binary tier payload left right ihLeft ihRight => simp [postorder, ihLeft, ihRight, graft]

theorem postorder_injective : Function.Injective (postorder : Expression O → List (Step O)) := by
  intro first second same
  have read := congrArg (fun steps => grow steps []) same
  simpa using read

private theorem flatMap_postorder_of_graft {step : Step O} {forest grown : List (Expression O)}
    (reads : graft forest step = some grown) :
    grown.reverse.flatMap postorder = forest.reverse.flatMap postorder ++ [step] := by
  unfold graft at reads
  split at reads
  · cases reads
    simp [postorder]
  · split at reads <;> cases reads
    simp [postorder]
  · split at reads <;> cases reads
    simp [postorder]
  all_goals cases reads

private theorem flatMap_postorder_of_grow {steps : List (Step O)} {forest grown : List (Expression O)}
    (reads : grow steps forest = some grown) :
    grown.reverse.flatMap postorder = forest.reverse.flatMap postorder ++ steps := by
  induction steps generalizing forest with
  | nil =>
    cases reads
    simp
  | cons step steps ih =>
    rw [grow_cons] at reads
    obtain ⟨next, here, later⟩ := Option.bind_eq_some_iff.mp reads
    rw [ih later, flatMap_postorder_of_graft here, List.append_assoc, List.singleton_append]

theorem postorder_of_grow {steps : List (Step O)} {tree : Expression O}
    (reads : grow steps [] = some [tree]) : tree.postorder = steps := by
  simpa using flatMap_postorder_of_grow reads

end Expression
end SignalStrip
