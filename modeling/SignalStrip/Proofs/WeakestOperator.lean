import SignalStrip.Proofs.Nesting

/-! Compilation by recursion. A strip with paired parens is parted at the operator that binds loosest outside
all groups, the last of them if there are several: what stands before it comes first, then what stands after
it, then the operator. A strip without such an operator is a row of operands and groups. The order in which
items leave a stack is the order of this recursion, whether the strip makes sense or not. -/

namespace SignalStrip

variable {O : Type}

namespace Token

/-- How many groups are open after each of the tokens has been read, unless one of them closes a group that
is not open. -/
def groupsOpen? : Nat → List Token → Option Nat
  | depth, [] => some depth
  | depth, .leftParen :: tokens => groupsOpen? (depth + 1) tokens
  | 0, .rightParen :: _ => none
  | depth + 1, .rightParen :: tokens => groupsOpen? depth tokens
  | depth, _ :: tokens => groupsOpen? depth tokens

def Balanced (tokens : List Token) : Prop :=
  groupsOpen? 0 tokens = some 0

instance (tokens : List Token) : Decidable (Balanced tokens) :=
  inferInstanceAs (Decidable (_ = _))

def depthAfter (depth : Nat) : Token → Nat
  | leftParen => depth + 1
  | rightParen => depth - 1
  | _ => depth

private theorem eq_operand {token : Token} (kept : token.isKept) (plain : ¬ token.isOperator) :
    token = .operand := by
  cases token with
  | operand => rfl
  | endOfList | leftParen | rightParen => cases kept
  | binary tier | unary tier => exact (plain rfl).elim

private theorem depthAfter_of_isKept {token : Token} (kept : token.isKept) (depth : Nat) :
    token.depthAfter depth = depth := by
  cases token <;> first | rfl | cases kept

end Token

/-- The last of the operators that bind loosest outside all groups, with what stands before it and after
it, when `depth` groups are open. -/
def weakest? : Nat → List (Item O) → Option (List (Item O) × Item O × List (Item O))
  | _, [] => none
  | depth, item :: items =>
    match weakest? (item.1.depthAfter depth) items with
    | some (before, operator, after) =>
      if depth = 0 ∧ item.1.isOperator ∧ item.1.priority.input < operator.1.priority.input then
        some ([], item, items)
      else some (item :: before, operator, after)
    | none => if depth = 0 ∧ item.1.isOperator then some ([], item, items) else none

/-- What stands before the right paren that closes the group, and what stands after it, when `depth` groups
are open inside the group. -/
def closeGroup : Nat → List (Item O) → List (Item O) × List (Item O)
  | _, [] => ([], [])
  | depth, item :: items =>
    if depth = 0 ∧ item.1 = .rightParen then ([], items)
    else
      let (inner, rest) := closeGroup (item.1.depthAfter depth) items
      (item :: inner, rest)

private theorem length_of_weakest? {depth : Nat} {items before after : List (Item O)} {operator : Item O}
    (found : weakest? depth items = some (before, operator, after)) :
    before.length + after.length < items.length := by
  induction items generalizing depth before operator after with
  | nil => cases found
  | cons item items ih =>
    unfold weakest? at found
    split at found
    next inside =>
      have shorter := ih inside
      split at found <;> cases found <;> simp only [List.length_cons, List.length_nil] <;> omega
    next =>
      split at found <;> cases found
      simp

private theorem length_closeGroup (depth : Nat) (items : List (Item O)) :
    (closeGroup depth items).1.length + (closeGroup depth items).2.length ≤ items.length := by
  induction items generalizing depth with
  | nil => exact Nat.le_refl _
  | cons item items ih =>
    have shorter := ih (item.1.depthAfter depth)
    unfold closeGroup
    split <;> simp only [List.length_cons, List.length_nil] <;> omega

/-- The steps of a strip, by recursion on where it is parted. -/
def splitOrder (items : List (Item O)) : List (Step O) :=
  match _ : weakest? 0 items with
  | some (before, operator, after) =>
    splitOrder before ++ splitOrder after ++ operator.step?.toList
  | none =>
    match items with
    | [] => []
    | (.leftParen, _) :: rest =>
      splitOrder (closeGroup 0 rest).1 ++ splitOrder (closeGroup 0 rest).2
    | item :: rest => item.step?.toList ++ splitOrder rest
termination_by items.length
decreasing_by
  · have := length_of_weakest? ‹_›
    omega
  · have := length_of_weakest? ‹_›
    omega
  · have := length_closeGroup 0 rest
    simp only [List.length_cons]
    omega
  · have := length_closeGroup 0 rest
    simp only [List.length_cons]
    omega
  · simp

private theorem closeGroup_append {outer : Item O → Prop} {inner : List (Item O)} (nested : Nested outer inner)
    (depth : Nat) (rest : List (Item O)) :
    closeGroup depth (inner ++ rest) = (inner ++ (closeGroup depth rest).1, (closeGroup depth rest).2) := by
  induction nested generalizing depth rest with
  | nil => rfl
  | kept kept _ _ ih =>
    simp [closeGroup, Token.ne_rightParen_of_isKept kept, Token.depthAfter_of_isKept kept, ih]
  | group _ _ inside ih => simp [parenthesized, closeGroup, Token.depthAfter, inside, ih]

theorem closeGroup_rightParen {outer : Item O → Prop} {inner : List (Item O)}
    (nested : Nested outer inner) (rest : List (Item O)) :
    closeGroup 0 (inner ++ (.rightParen, none) :: rest) = (inner, rest) := by
  simp [closeGroup_append nested, closeGroup]

private theorem weakest?_append {outer : Item O → Prop} {inner : List (Item O)} (nested : Nested outer inner)
    (depth : Nat) (rest : List (Item O)) :
    weakest? (depth + 1) (inner ++ rest) =
      (weakest? (depth + 1) rest).map fun (before, operator, after) =>
        (inner ++ before, operator, after) := by
  induction nested generalizing depth rest with
  | nil => simp
  | kept kept _ _ ih =>
    simp only [List.cons_append, weakest?, Token.depthAfter_of_isKept kept, ih]
    cases weakest? (depth + 1) rest <;> simp
  | group _ _ inside ih =>
    simp only [parenthesized, List.cons_append, List.append_assoc, List.nil_append, weakest?,
      Token.depthAfter, inside, Nat.add_sub_cancel, ih]
    cases weakest? (depth + 1) rest <;> simp

theorem weakest?_parenthesized {outer : Item O → Prop} {inner : List (Item O)}
    (nested : Nested outer inner) (rest : List (Item O)) :
    weakest? 0 (parenthesized inner ++ rest) =
      (weakest? 0 rest).map fun (before, operator, after) =>
        (parenthesized inner ++ before, operator, after) := by
  simp only [parenthesized, List.cons_append, List.append_assoc, List.nil_append, weakest?,
    Token.depthAfter, weakest?_append nested, Nat.add_sub_cancel]
  cases weakest? 0 rest <;> simp [Token.isOperator]

/-- Every operator outside all groups of `before` binds at least as tightly as `operator`, and every one of
`after` more tightly. -/
structure Parted (outer : Item O → Prop) (before : List (Item O)) (operator : Item O)
    (after : List (Item O)) : Prop where
  operates : operator.1.isOperator
  holds : outer operator
  loose : Nested (fun item => outer item ∧
    (item.1.isOperator → operator.1.priority.input ≤ item.1.priority.input)) before
  tight : Nested (fun item => outer item ∧
    (item.1.isOperator → operator.1.priority.input < item.1.priority.input)) after

private theorem nested_of_weakest?_eq_none {outer : Item O → Prop} {items : List (Item O)}
    (nested : Nested outer items) (absent : weakest? 0 items = none) :
    Nested (fun item => outer item ∧ item.1.isOperator = false) items := by
  induction nested with
  | nil => exact .nil
  | @kept outer item items kept holds _ ih =>
    simp only [weakest?, Token.depthAfter_of_isKept kept] at absent
    split at absent
    · split at absent <;> cases absent
    next none =>
      split at absent
      · cases absent
      next plain => exact .kept kept ⟨holds, by simpa using plain⟩ (ih none)
  | group inside _ _ ih =>
    rw [weakest?_parenthesized inside, Option.map_eq_none_iff] at absent
    exact .group inside (ih absent)

theorem parted_of_weakest?_eq_some {outer : Item O → Prop} {items before after : List (Item O)}
    {operator : Item O} (nested : Nested outer items)
    (found : weakest? 0 items = some (before, operator, after)) :
    items = before ++ operator :: after ∧ Parted outer before operator after := by
  induction nested generalizing before operator after with
  | nil => cases found
  | @kept outer item items kept holds rest ih =>
    simp only [weakest?, Token.depthAfter_of_isKept kept] at found
    split at found
    next first weakest last inside =>
      obtain ⟨rfl, parted⟩ := ih inside
      split at found
      next weaker =>
        obtain ⟨_, operates, less⟩ := weaker
        cases found
        refine ⟨rfl, operates, holds, .nil, ?_⟩
        refine (parted.loose.mono fun other _ ⟨held, above⟩ => ⟨held, fun also => ?_⟩).append
          (.kept (Token.isKept_of_isOperator parted.operates) ⟨parted.holds, fun _ => less⟩
            (parted.tight.mono fun other _ ⟨held, above⟩ => ⟨held, fun also => ?_⟩))
        · exact Int.lt_trans less (above also)
        · exact Int.lt_of_lt_of_le less (above also)
      next stronger =>
        cases found
        refine ⟨rfl, parted.operates, parted.holds, .kept kept ⟨holds, fun operates => ?_⟩ parted.loose,
          parted.tight⟩
        exact Int.not_lt.mp fun less => stronger ⟨trivial, operates, less⟩
    next none =>
      split at found <;> cases found
      next operates =>
        refine ⟨rfl, operates.2, holds, .nil, ?_⟩
        refine (nested_of_weakest?_eq_none rest none).mono fun other _ ⟨held, plain⟩ => ⟨held, ?_⟩
        simp [plain]
  | group inside _ _ ih =>
    rw [weakest?_parenthesized inside] at found
    obtain ⟨⟨first, _, _⟩, found, same⟩ := Option.map_eq_some_iff.mp found
    cases same
    obtain ⟨rfl, parted⟩ := ih found
    exact ⟨by simp, parted.operates, parted.holds, .group inside parted.loose, parted.tight⟩

theorem Parted.weakest? {outer : Item O → Prop} {before after : List (Item O)} {operator : Item O}
    (parted : Parted outer before operator after) :
    weakest? 0 (before ++ operator :: after) = some (before, operator, after) := by
  obtain ⟨operates, _, loose, tight⟩ := parted
  have last : SignalStrip.weakest? 0 (operator :: after) = some ([], operator, after) := by
    have kept := Token.isKept_of_isOperator operates
    simp only [SignalStrip.weakest?, Token.depthAfter_of_isKept kept]
    split
    next found =>
      have later := (parted_of_weakest?_eq_some tight found).2
      simp [operates, later.holds.2 later.operates]
    next => simp [operates]
  generalize same : (fun item : Item O => outer item ∧ (item.1.isOperator →
    operator.1.priority.input ≤ item.1.priority.input)) = reach at loose
  induction loose with
  | nil => exact last
  | @kept _ item _ kept holds _ ih =>
    subst same
    have above := fun weaker => Int.not_lt.mpr (holds.2 weaker)
    simp only [List.cons_append, SignalStrip.weakest?, Token.depthAfter_of_isKept kept, ih rfl]
    rw [if_neg]
    intro found
    obtain ⟨_, weaker, less⟩ := found
    exact above weaker less
  | group inside _ _ ih =>
    rw [List.append_assoc, weakest?_parenthesized inside, ih same]
    rfl

theorem Parted.order {outer : Item O → Prop} {before after : List (Item O)} {operator : Item O}
    (parted : Parted outer before operator after) :
    Waiting.order (before ++ operator :: after) [] =
      Waiting.order before [] ++ Waiting.order after [] ++ [operator] := by
  have low := Token.priority_of_isOperator parted.operates
  rw [(Token.priority_of_isKept (Token.isKept_of_isOperator parted.operates)).1] at low
  have above {item : Item O} (kept : item.1.isKept) (plain : ¬ item.1.isOperator) :
      operator.1.priority.input < item.1.priority.input := by
    rw [Token.eq_operand kept plain]
    exact low
  apply Waiting.order_split parted.operates
  · refine parted.loose.mono fun item kept ⟨_, holds⟩ => ?_
    by_cases operates : item.1.isOperator
    · exact holds operates
    · exact Int.le_of_lt (above kept operates)
  · refine parted.tight.mono fun item kept ⟨_, holds⟩ => ?_
    by_cases operates : item.1.isOperator
    · exact holds operates
    · exact above kept operates

theorem steps_order_eq_splitOrder {outer : Item O → Prop} {items : List (Item O)}
    (nested : Nested outer items) : Item.steps (Waiting.order items []) = splitOrder items := by
  fun_induction splitOrder items generalizing outer with
  | case1 items before operator after found ihBefore ihAfter =>
    obtain ⟨rfl, parted⟩ := parted_of_weakest?_eq_some nested found
    simp [parted.order, ihBefore parted.loose, ihAfter parted.tight]
  | case2 => rfl
  | case3 payload rest absent ihInner ihRest =>
    cases nested with
    | kept kept => cases kept
    | @group _ inner items inside rest =>
      have closed : closeGroup 0 (inner ++ [(.rightParen, none)] ++ items) = (inner, items) := by
        simpa using closeGroup_rightParen inside items
      show Item.steps (Waiting.order (parenthesized inner ++ items) []) =
        splitOrder (closeGroup 0 (inner ++ [(.rightParen, none)] ++ items)).1 ++
          splitOrder (closeGroup 0 (inner ++ [(.rightParen, none)] ++ items)).2
      change closeGroup 0 _ = _ at closed
      simp only [List.append_eq, closed] at ihInner ihRest ⊢
      rw [Waiting.order_parenthesized inside items [], ← ihInner inside, ← ihRest rest]
      simp [Waiting.evict]
  | case4 item rest absent ordinary ih =>
    have plain := nested_of_weakest?_eq_none nested absent
    cases plain with
    | kept kept holds rest =>
      obtain ⟨token, payload⟩ := item
      cases Token.eq_operand kept (by simp [holds.2])
      rw [Waiting.order_operand]
      simp [Waiting.evict, ih rest]
    | group => exact (ordinary none absent rfl HEq.rfl).elim

/-- Items with as many right parens too many as there are groups open. -/
private inductive Closing : Nat → List (Item O) → Prop where
  | done {items : List (Item O)} (nested : Nested (fun _ => True) items) : Closing 0 items
  | close {depth : Nat} {inner items : List (Item O)} (inside : Nested (fun _ => True) inner)
      (rest : Closing depth items) : Closing (depth + 1) (inner ++ (.rightParen, none) :: items)

private theorem Closing.append {depth : Nat} {first items : List (Item O)}
    (nested : Nested (fun _ => True) first) (closing : Closing depth items) :
    Closing depth (first ++ items) := by
  cases closing with
  | done rest => exact .done (nested.append rest)
  | close inside rest =>
    rw [← List.append_assoc]
    exact .close (nested.append inside) rest

private theorem Closing.kept {depth : Nat} {item : Item O} {items : List (Item O)}
    (kept : item.1.isKept) (closing : Closing depth items) : Closing depth (item :: items) :=
  Closing.append (.kept kept trivial .nil) closing

private theorem Closing.of_groupsOpen? {depth : Nat} {items : List (Item O)}
    (valid : ∀ item ∈ items, Item.Valid item)
    (closes : Token.groupsOpen? depth (items.map Prod.fst) = some 0) : Closing depth items := by
  induction items generalizing depth with
  | nil =>
    cases closes
    exact .done .nil
  | cons item items ih =>
    obtain ⟨⟨paired, listed⟩, others⟩ := List.forall_mem_cons.mp valid
    obtain ⟨token, payload⟩ := item
    cases token with
    | endOfList => exact (listed rfl).elim
    | operand | binary tier | unary tier => exact Closing.kept rfl (ih others closes)
    | leftParen =>
      cases payload with
      | some payload => cases paired
      | none =>
        cases ih others closes with
        | close inside rest =>
          have group : Nested (fun _ => True) (parenthesized _ ++ []) := .group inside .nil
          have closing := Closing.append group rest
          simpa [parenthesized] using closing
    | rightParen =>
      cases payload with
      | some payload => cases paired
      | none =>
        cases depth with
        | zero => cases closes
        | succ depth => exact .close .nil (ih others closes)

theorem Nested.of_balanced {items : List (Item O)} (valid : ∀ item ∈ items, Item.Valid item)
    (balanced : Token.Balanced (items.map Prod.fst)) : Nested (fun _ => True) items := by
  cases Closing.of_groupsOpen? valid balanced with
  | done nested => exact nested

/-- The compiler is the recursion, on every strip with paired parens. -/
theorem compile_eq_splitOrder {tokens : List Token} {payloads : List O} (listed : .endOfList ∉ tokens)
    (balanced : Token.Balanced tokens)
    (counted : tokens.countP Token.isOperator = payloads.length) :
    compile tokens payloads = .ok (.ofSteps (splitOrder (Item.join tokens payloads))) := by
  have attached := Item.attach_eq_join listed counted 0
  have valid := valid_of_attach attached
  have nested := Nested.of_balanced valid (by rwa [(parts_of_attach attached).1])
  rw [compile, attached, Except.map, Program.ofItems_eq valid, Held.emitted,
    steps_order_eq_splitOrder nested]

theorem compile_misplaced_operators :
    let tokens : List Token := [.operand, .unary .second, .leftParen, .operand, .operand, .rightParen,
      .unary .first, .leftParen, .rightParen, .binary .first]
    let payloads := ["!", "~", "+"]
    let program : Program String :=
      ⟨[.operand, .operand, .operand, .unary .second, .unary .first, .binary .first], ["!", "~", "+"]⟩
    .endOfList ∉ tokens ∧ Token.Balanced tokens ∧ tokens.countP Token.isOperator = payloads.length ∧
      compile tokens payloads = .ok program ∧ .ofSteps (splitOrder (Item.join tokens payloads)) = program := by
  intro tokens payloads program
  have listed : .endOfList ∉ tokens := by decide
  have balanced : Token.Balanced tokens := by decide
  have counted : tokens.countP Token.isOperator = payloads.length := by decide
  have compiles : compile tokens payloads = .ok program := rfl
  have split := (compile_eq_splitOrder listed balanced counted).symm.trans compiles
  exact ⟨listed, balanced, counted, compiles, Except.ok.inj split⟩

end SignalStrip
