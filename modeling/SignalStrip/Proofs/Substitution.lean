import SignalStrip.Proofs.Origins
import SignalStrip.Proofs.WeakestOperator

/-! A group in the place of an operand. On whatever stack they are read, a left paren releases what an operand
releases, and the right paren that closes the group waits like an operand. So the steps of the group stand
where the operand would stand, and nothing around them is moved. -/

namespace SignalStrip

variable {O : Type}

namespace Waiting

private theorem evict_congr {incoming other : Token} (same : incoming.priority.input = other.priority.input)
    (closing : incoming = .rightParen ↔ other = .rightParen) (stack : List (Item O)) :
    evict incoming stack = evict other stack := by
  induction stack with
  | nil => rfl
  | cons top below ih => simp only [evict, same, closing, ih]

private theorem plain_evict {stack : List (Item O)} (plain : ∀ item ∈ stack.tail, item.1 ≠ .operand)
    (incoming : Token) : ∀ item ∈ (evict incoming stack).2, item.1 ≠ .operand := by
  cases stack with
  | nil => exact List.forall_mem_nil _
  | cons top below =>
    by_cases operand : top.1 = .operand
    · rw [evict_covered (by rw [operand]; rfl)]
      exact fun item member => plain item (mem_of_mem_evict member)
    · intro item member
      rcases List.mem_cons.mp (mem_of_mem_evict member) with rfl | below
      · exact operand
      · exact plain item below

private theorem plain_scan (items : List (Item O)) {stack : List (Item O)}
    (plain : ∀ item ∈ stack.tail, item.1 ≠ .operand) :
    ∀ item ∈ (scan items stack).2.tail, item.1 ≠ .operand := by
  induction items generalizing stack with
  | nil => exact plain
  | cons item items ih => exact ih (plain_evict plain item.1)

/-- What has left before an operand is read, and what goes on waiting below it, are the same for a group in
its place. All operands read so far have left by then. -/
theorem exists_before (before : List (Item O)) :
    ∃ earlier waiting : List (Item O),
      (∀ payload after, order (before ++ (.operand, payload) :: after) [] =
        earlier ++ (.operand, payload) :: order after waiting) ∧
      (∀ {anywhere : Item O → Prop} {inner : List (Item O)}, Nested anywhere inner → ∀ after,
        order (before ++ (parenthesized inner ++ after)) [] =
          earlier ++ (order inner [] ++
            (.leftParen, none) :: (.rightParen, none) :: order after waiting)) ∧
      (earlier.map Prod.fst).count .operand = (before.map Prod.fst).count .operand := by
  have opens : evict .leftParen (scan before []).2 = evict .operand (scan before []).2 := by
    apply evict_congr
    · rfl
    · exact ⟨nofun, nofun⟩
  refine ⟨(scan before []).1 ++ (evict .operand (scan before []).2).1,
    (evict .operand (scan before []).2).2, ?_, ?_, ?_⟩
  · intro payload after
    rw [order_append, order_operand, List.append_assoc]
  · intro anywhere inner inside after
    rw [order_append, order_parenthesized inside, opens, List.append_assoc]
  · have all := ((order_perm before []).map Prod.fst).count_eq .operand
    have waits : ((evict .operand (scan before []).2).2.map Prod.fst).count .operand = 0 := by
      rw [List.count_eq_zero, List.mem_map]
      rintro ⟨item, member, operand⟩
      exact plain_evict (plain_scan before (List.forall_mem_nil _)) .operand item member operand
    rw [List.append_nil, order, ← evict_split .operand (scan before []).2, ← List.append_assoc,
      List.map_append, List.count_append, waits, Nat.add_zero] at all
    exact all

end Waiting

theorem Item.join_append {first second : List Token} {payloads others : List O}
    (counted : first.countP Token.isOperator = payloads.length) :
    join (first ++ second) (payloads ++ others) = join first payloads ++ join second others := by
  induction first generalizing payloads with
  | nil =>
    cases List.length_eq_zero_iff.mp counted.symm
    rfl
  | cons token first ih =>
    cases operates : token.isOperator with
    | false =>
      simp only [List.countP_cons, operates, Bool.false_eq_true, if_false, Nat.add_zero] at counted
      simp [join, operates, ih counted]
    | true =>
      cases payloads with
      | nil => simp [operates] at counted
      | cons payload payloads =>
        simp only [List.countP_cons, operates, if_true, List.length_cons,
          Nat.add_right_cancel_iff] at counted
        simp [join, operates, ih counted]

/-- A strip with a group in it has the steps of the strip with an operand in its place, and in the place of the
step of that operand the steps of what stands in the group. -/
theorem compile_group {before inner after : List Token} {first second third : List O}
    (listed : .endOfList ∉ before ++ inner ++ after) (balanced : Token.Balanced inner)
    (countedBefore : before.countP Token.isOperator = first.length)
    (countedInner : inner.countP Token.isOperator = second.length)
    (countedAfter : after.countP Token.isOperator = third.length) :
    ∃ whole group plain,
      compile (before ++ .leftParen :: (inner ++ .rightParen :: after)) (first ++ (second ++ third)) =
        .ok whole ∧
      compile inner second = .ok group ∧
      compile (before ++ .operand :: after) (first ++ third) = .ok plain ∧
      ∃ earlier later, plain.steps = earlier ++ (.operand, none) :: later ∧
        (earlier.map Prod.fst).count .operand = before.count .operand ∧
        whole.steps = earlier ++ group.steps ++ later := by
  simp only [List.mem_append, not_or] at listed
  obtain ⟨⟨listedBefore, listedInner⟩, listedAfter⟩ := listed
  have listedWhole : .endOfList ∉ before ++ .leftParen :: (inner ++ .rightParen :: after) := by
    simp [listedBefore, listedInner, listedAfter]
  have countedWhole : (before ++ .leftParen :: (inner ++ .rightParen :: after)).countP Token.isOperator =
      (first ++ (second ++ third)).length := by
    simp [Token.isOperator, countedBefore, countedInner, countedAfter]
  have listedPlain : .endOfList ∉ before ++ .operand :: after := by
    simp [listedBefore, listedAfter]
  have countedPlain : (before ++ .operand :: after).countP Token.isOperator = (first ++ third).length := by
    simp [Token.isOperator, countedBefore, countedAfter]
  obtain ⟨whole, compiles, wholeSteps⟩ := exists_program listedWhole countedWhole
  obtain ⟨group, compilesGroup, groupSteps⟩ := exists_program listedInner countedInner
  obtain ⟨plain, compilesPlain, plainSteps⟩ := exists_program listedPlain countedPlain
  have nested := Nested.of_balanced (Item.valid_join listedInner countedInner)
    (by rwa [Item.map_fst_join])
  obtain ⟨earlier, waiting, operand, parens, count⟩ := Waiting.exists_before (Item.join before first)
  refine ⟨whole, group, plain, compiles, compilesGroup, compilesPlain, Item.steps earlier,
    Item.steps (Waiting.order (Item.join after third) waiting), ?_, ?_, ?_⟩
  · rw [plainSteps, Item.join_append countedBefore]
    simp [Item.join, Token.isOperator, operand]
  · rw [Item.count_operand_steps, count, Item.map_fst_join]
  · have joined : Item.join (.leftParen :: (inner ++ .rightParen :: after)) (second ++ third) =
        parenthesized (Item.join inner second) ++ Item.join after third := by
      simp [Item.join, Token.isOperator, Item.join_append countedInner, parenthesized]
    rw [wholeSteps, Item.join_append countedBefore, joined, parens nested, groupSteps]
    simp

theorem compile_group_in_stray_parens :
    let before : List Token := [.rightParen, .operand, .binary .second, .leftParen]
    let inner : List Token := [.operand, .binary .first, .operand]
    let after : List Token := [.unary .third, .rightParen, .rightParen, .binary .third]
    (.endOfList ∉ before ++ inner ++ after ∧ Token.Balanced inner ∧
      before.countP Token.isOperator = ["*"].length ∧ inner.countP Token.isOperator = ["+"].length ∧
      after.countP Token.isOperator = ["!", "^"].length) ∧
    ∃ whole group plain,
      compile (before ++ .leftParen :: (inner ++ .rightParen :: after)) (["*"] ++ (["+"] ++ ["!", "^"])) =
        .ok whole ∧
      compile inner ["+"] = .ok group ∧
      compile (before ++ .operand :: after) (["*"] ++ ["!", "^"]) = .ok plain ∧
      ∃ earlier later, plain.steps = earlier ++ (.operand, none) :: later ∧
        (earlier.map Prod.fst).count .operand = before.count .operand ∧
        whole.steps = earlier ++ group.steps ++ later := by
  intro before inner after
  have listed : .endOfList ∉ before ++ inner ++ after := by decide
  have balanced : Token.Balanced inner := by decide
  exact ⟨⟨listed, balanced, rfl, rfl, rfl⟩, compile_group listed balanced rfl rfl rfl⟩

end SignalStrip
