import SignalStrip.Compilation
import SignalStrip.Proofs.Expression

/-! Compilation on one stack. Tokens and payloads wait on two stacks, but a token never leaves without its
payload, so one stack of items says the same. What leaves is kept as items, parens included: everything
that is read leaves exactly once, and only the order is of interest. -/

namespace SignalStrip

variable {O : Type}

namespace Item

structure Valid (item : Item O) : Prop where
  paired : item.2.isSome = item.1.isOperator
  listed : item.1 ≠ .endOfList

def step? (item : Item O) : Option (Step O) :=
  (ProgramToken.ofToken? item.1).map (·, item.2)

@[simp] theorem step?_operand (payload : Option O) :
    step? (.operand, payload) = some (.operand, payload) := rfl

@[simp] theorem step?_unary (tier : Tier) (payload : Option O) :
    step? (.unary tier, payload) = some (.unary tier, payload) := rfl

@[simp] theorem step?_binary (tier : Tier) (payload : Option O) :
    step? (.binary tier, payload) = some (.binary tier, payload) := rfl

@[simp] theorem step?_leftParen (payload : Option O) : step? (.leftParen, payload) = none := rfl

@[simp] theorem step?_rightParen (payload : Option O) : step? (.rightParen, payload) = none := rfl

def steps (items : List (Item O)) : List (Step O) :=
  items.filterMap step?

@[simp] theorem steps_nil : steps ([] : List (Item O)) = [] := rfl

@[simp] theorem steps_append (first second : List (Item O)) :
    steps (first ++ second) = steps first ++ steps second :=
  List.filterMap_append

@[simp] theorem steps_cons (item : Item O) (items : List (Item O)) :
    steps (item :: items) = item.step?.toList ++ steps items := by
  cases kept : item.step? <;> simp [steps, kept]

theorem paired_step {item : Item O} {step : Step O} (paired : item.2.isSome = item.1.isOperator)
    (kept : item.step? = some step) : step.Paired := by
  obtain ⟨token, payload⟩ := item
  obtain ⟨emitted, same, rfl⟩ := Option.map_eq_some_iff.mp kept
  cases ProgramToken.ofToken?_eq_some.mp same
  cases emitted <;> simpa [Step.Paired, ProgramToken.toToken, Token.isOperator] using paired

end Item

theorem valid_of_attach {read : Nat} {tokens : List Token} {payloads : List O} {items : List (Item O)}
    (attached : attach read tokens payloads = .ok items) : ∀ item ∈ items, Item.Valid item := by
  induction tokens generalizing read payloads items with
  | nil =>
    cases payloads with
    | nil =>
      cases attached
      simp
    | cons payload payloads => cases attached
  | cons token tokens ih =>
    unfold attach at attached
    split at attached
    · cases attached
    next listed =>
      split at attached
      next plain =>
        obtain ⟨rest, inner, rfl⟩ := map_eq_ok.mp attached
        exact List.forall_mem_cons.mpr ⟨⟨plain.symm, listed⟩, ih inner⟩
      next operator =>
        obtain ⟨rest, inner, rfl⟩ := map_eq_ok.mp attached
        exact List.forall_mem_cons.mpr ⟨⟨operator.symm, listed⟩, ih inner⟩
      next => cases attached

theorem attach_of_valid {items : List (Item O)} (valid : ∀ item ∈ items, Item.Valid item) (read : Nat) :
    attach read (items.map Prod.fst) (items.filterMap Prod.snd) = .ok items := by
  induction items generalizing read with
  | nil => rfl
  | cons item items ih =>
    obtain ⟨token, payload⟩ := item
    obtain ⟨⟨paired, listed⟩, others⟩ := List.forall_mem_cons.mp valid
    have rest := ih others (read + 1)
    simp only at paired listed
    cases payload with
    | none =>
      have plain : token.isOperator = false := paired.symm
      simp [attach, listed, plain, rest, Except.map]
    | some payload =>
      have operator : token.isOperator = true := paired.symm
      simp [attach, listed, operator, rest, Except.map]

namespace Item

def join : List Token → List O → List (Item O)
  | [], _ => []
  | token :: tokens, payloads =>
    if token.isOperator then (token, payloads.head?) :: join tokens payloads.tail
    else (token, none) :: join tokens payloads

/-- What has its payloads is taken care of, and the rest goes on from there. -/
theorem attach_append {before : List Token} {payloads : List O} (listed : .endOfList ∉ before)
    (counted : before.countP Token.isOperator = payloads.length) (read : Nat) (after : List Token)
    (rest : List O) :
    attach read (before ++ after) (payloads ++ rest) =
      (attach (read + before.length) after rest).map (join before payloads ++ ·) := by
  induction before generalizing read payloads with
  | nil =>
    cases List.length_eq_zero_iff.mp counted.symm
    cases outcome : attach read after rest <;> simp [outcome, join, Except.map]
  | cons token tokens ih =>
    simp only [List.mem_cons, not_or] at listed
    have place : read + (token :: tokens).length = read + 1 + tokens.length := by
      rw [List.length_cons, Nat.add_assoc, Nat.add_comm 1]
    rw [place]
    have others (payloads : List O) (counted : tokens.countP Token.isOperator = payloads.length) :=
      ih listed.2 counted (read + 1)
    generalize attach (read + 1 + tokens.length) after rest = outcome at others ⊢
    rw [List.cons_append]
    unfold attach join
    rw [if_neg (Ne.symm listed.1)]
    cases operates : token.isOperator with
    | false =>
      simp only [List.countP_cons, operates, Bool.false_eq_true, if_false, Nat.add_zero] at counted
      simp only [others payloads counted]
      cases outcome <;> rfl
    | true =>
      cases payloads with
      | nil => simp [operates] at counted
      | cons payload payloads =>
        simp only [List.countP_cons, operates, if_true, List.length_cons,
          Nat.add_right_cancel_iff] at counted
        simp only [List.cons_append, others payloads counted]
        cases outcome <;> rfl

theorem attach_eq_join {tokens : List Token} {payloads : List O} (listed : .endOfList ∉ tokens)
    (counted : tokens.countP Token.isOperator = payloads.length) (read : Nat) :
    attach read tokens payloads = .ok (join tokens payloads) := by
  have attached := attach_append listed counted read [] []
  simpa [attach, Except.map] using attached

@[simp] theorem map_fst_join (tokens : List Token) (payloads : List O) :
    (join tokens payloads).map Prod.fst = tokens := by
  induction tokens generalizing payloads with
  | nil => rfl
  | cons token tokens ih =>
    unfold join
    split <;> simp [ih]

theorem valid_join {tokens : List Token} {payloads : List O} (listed : .endOfList ∉ tokens)
    (counted : tokens.countP Token.isOperator = payloads.length) :
    ∀ item ∈ join tokens payloads, Valid item :=
  valid_of_attach (attach_eq_join listed counted 0)

end Item

namespace Waiting

/-- The items that `incoming` releases, with the top of the stack first, and the items that stay. -/
def evict (incoming : Token) : List (Item O) → List (Item O) × List (Item O)
  | [] => ([], [])
  | top :: below =>
    if top.1.priority.stack < incoming.priority.input then ([], top :: below)
    else if incoming = .rightParen ∧ top.1 = .leftParen then ([top], below)
    else (top :: (evict incoming below).1, (evict incoming below).2)

/-- Reads items on a stack. Gives what has left by then, and what still waits. -/
def scan : List (Item O) → List (Item O) → List (Item O) × List (Item O)
  | [], stack => ([], stack)
  | item :: items, stack =>
    let rest := scan items (item :: (evict item.1 stack).2)
    ((evict item.1 stack).1 ++ rest.1, rest.2)

/-- All items in the order in which they leave if nothing is read after `items`. -/
def order (items stack : List (Item O)) : List (Item O) :=
  (scan items stack).1 ++ (scan items stack).2

theorem evict_split (incoming : Token) (stack : List (Item O)) :
    (evict incoming stack).1 ++ (evict incoming stack).2 = stack := by
  induction stack with
  | nil => rfl
  | cons top below ih =>
    unfold evict
    split
    · rfl
    split
    · rfl
    · simp [ih]

theorem mem_of_mem_evict {incoming : Token} {stack : List (Item O)} {item : Item O}
    (member : item ∈ (evict incoming stack).2) : item ∈ stack := by
  rw [← evict_split incoming stack]
  exact List.mem_append_right _ member

/-- The top of `floor` holds `incoming` up. -/
def Blocks (floor : List (Item O)) (incoming : Token) : Prop :=
  ∀ top ∈ floor.head?, top.1.priority.stack < incoming.priority.input

theorem blocks_nil (incoming : Token) : Blocks ([] : List (Item O)) incoming := by
  simp [Blocks]

theorem evict_append {floor : List (Item O)} {incoming : Token} (blocks : Blocks floor incoming)
    (stack : List (Item O)) :
    evict incoming (stack ++ floor) =
      ((evict incoming stack).1, (evict incoming stack).2 ++ floor) := by
  induction stack with
  | nil =>
    cases floor with
    | nil => rfl
    | cons top below => simp [evict, blocks top rfl]
  | cons top below ih =>
    simp only [List.cons_append, evict]
    split
    · rfl
    split
    · rfl
    · rw [ih]

private theorem scan_floor {floor : List (Item O)} {items : List (Item O)}
    (blocks : ∀ item ∈ items, Blocks floor item.1) (stack : List (Item O)) :
    scan items (stack ++ floor) = ((scan items stack).1, (scan items stack).2 ++ floor) := by
  induction items generalizing stack with
  | nil => rfl
  | cons item items ih =>
    obtain ⟨here, later⟩ := List.forall_mem_cons.mp blocks
    simp only [scan, evict_append here]
    rw [← List.cons_append, ih later]

end Waiting

namespace Held
open Waiting

def ofItems (stack : List (Item O)) : Held O :=
  ⟨stack.map Prod.fst, stack.filterMap Prod.snd⟩

def emitted (items : List (Item O)) : Program O :=
  .ofSteps (Item.steps items)

def Paired (stack : List (Item O)) : Prop :=
  ∀ item ∈ stack, item.2.isSome = item.1.isOperator

private theorem ofItems_cons (item : Item O) (stack : List (Item O)) :
    ofItems (item :: stack) = ⟨item.1 :: (ofItems stack).tokens, item.2.toList ++ (ofItems stack).payloads⟩ := by
  obtain ⟨token, payload⟩ := item
  cases payload <;> simp [ofItems]

private theorem emitted_append (first second : List (Item O)) :
    emitted (first ++ second) = emitted first ++ emitted second := by
  simp [emitted, Program.ofSteps_append]

private theorem emitted_cons (item : Item O) (items : List (Item O)) :
    emitted (item :: items) = emitted [item] ++ emitted items :=
  emitted_append [item] items

private theorem release_item {item : Item O} (paired : item.2.isSome = item.1.isOperator)
    (payloads : List O) :
    release item.1 (item.2.toList ++ payloads) = (emitted [item], payloads) := by
  obtain ⟨token, payload⟩ := item
  cases token <;> cases payload <;> simp [Token.isOperator] at paired <;> rfl

theorem evict_ofItems (incoming : Token) {stack : List (Item O)} (paired : Paired stack) :
    evict incoming (ofItems stack).tokens (ofItems stack).payloads =
      (emitted (Waiting.evict incoming stack).1, ofItems (Waiting.evict incoming stack).2) := by
  induction stack with
  | nil => rfl
  | cons top below ih =>
    obtain ⟨here, others⟩ := List.forall_mem_cons.mp paired
    simp only [ofItems_cons, evict, Waiting.evict, release_item here]
    split
    · rw [ofItems_cons]
      rfl
    split
    · rfl
    · rw [ih others, emitted_cons top (Waiting.evict incoming below).1]

theorem Paired.evict {incoming : Token} {stack : List (Item O)} (paired : Paired stack) :
    Paired (Waiting.evict incoming stack).2 := by
  intro item member
  apply paired
  exact mem_of_mem_evict member

theorem scan_ofItems {items stack : List (Item O)} (paired : Paired items) (waiting : Paired stack) :
    scan items (ofItems stack) =
      (emitted (Waiting.scan items stack).1, ofItems (Waiting.scan items stack).2) := by
  induction items generalizing stack with
  | nil => rfl
  | cons item items ih =>
    obtain ⟨here, others⟩ := List.forall_mem_cons.mp paired
    simp only [scan, read, Waiting.scan, evict_ofItems item.1 waiting, ← ofItems_cons]
    rw [ih others (List.forall_mem_cons.mpr ⟨here, waiting.evict⟩), emitted_append]

theorem drain_ofItems {stack : List (Item O)} (paired : Paired stack)
    (listed : ∀ item ∈ stack, item.1 ≠ .endOfList) :
    drain (ofItems (stack ++ [(.endOfList, none)])).tokens
      (ofItems (stack ++ [(.endOfList, none)])).payloads = (emitted stack, ⟨[], []⟩) := by
  induction stack with
  | nil => rfl
  | cons top below ih =>
    obtain ⟨here, others⟩ := List.forall_mem_cons.mp paired
    obtain ⟨token, tokens⟩ := List.forall_mem_cons.mp listed
    rw [List.cons_append, ofItems_cons]
    simp only [drain, release_item here, if_neg token, ih others tokens]
    rw [← emitted_cons]

end Held

namespace Waiting

private theorem blocks_endOfList {token : Token} (listed : token ≠ .endOfList) :
    Blocks [((.endOfList, none) : Item O)] token := by
  intro top member
  cases member
  have := Token.priority_nonneg listed
  simp only [Token.priority] at this ⊢
  omega

@[simp] theorem order_nil (stack : List (Item O)) : order [] stack = stack := rfl

theorem order_cons (item : Item O) (items stack : List (Item O)) :
    order (item :: items) stack =
      (evict item.1 stack).1 ++ order items (item :: (evict item.1 stack).2) := by
  simp [order, scan]

theorem scan_append (first second stack : List (Item O)) :
    scan (first ++ second) stack =
      ((scan first stack).1 ++ (scan second (scan first stack).2).1,
        (scan second (scan first stack).2).2) := by
  induction first generalizing stack with
  | nil => rfl
  | cons item first ih => simp [scan, ih]

theorem order_append (first second stack : List (Item O)) :
    order (first ++ second) stack = (scan first stack).1 ++ order second (scan first stack).2 := by
  simp [order, scan_append]

theorem evict_covered {top : Item O} (covered : top.1.priority.stack = 7) (incoming : Token)
    (below : List (Item O)) :
    evict incoming (top :: below) = (top :: (evict incoming below).1, (evict incoming below).2) := by
  have high : ¬ top.1.priority.stack < incoming.priority.input := by
    have := incoming.priority_le
    omega
  have closing : top.1 ≠ .leftParen := by
    intro same
    rw [same] at covered
    cases covered
  simp [evict, high, closing]

/-- What waits like an operand leaves as soon as anything is read. -/
theorem order_covered (items : List (Item O)) {top : Item O} (covered : top.1.priority.stack = 7)
    (below : List (Item O)) : order items (top :: below) = top :: order items below := by
  cases items with
  | nil => rfl
  | cons item items => simp [order_cons, evict_covered covered]

theorem order_operand (payload : Option O) (items stack : List (Item O)) :
    order ((.operand, payload) :: items) stack =
      (evict .operand stack).1 ++ (.operand, payload) :: order items (evict .operand stack).2 := by
  rw [order_cons, order_covered items rfl]

open List in
theorem order_perm (items stack : List (Item O)) : order items stack ~ items ++ stack := by
  induction items generalizing stack with
  | nil => exact .refl _
  | cons item items ih =>
    have split := evict_split item.1 stack
    rw [order_cons, List.cons_append]
    calc (evict item.1 stack).1 ++ order items (item :: (evict item.1 stack).2)
      _ ~ (evict item.1 stack).1 ++ (items ++ item :: (evict item.1 stack).2) :=
        (ih _).append_left _
      _ ~ (evict item.1 stack).1 ++ item :: (items ++ (evict item.1 stack).2) :=
        perm_middle.append_left _
      _ ~ item :: ((evict item.1 stack).1 ++ (items ++ (evict item.1 stack).2)) := perm_middle
      _ ~ item :: (items ++ ((evict item.1 stack).1 ++ (evict item.1 stack).2)) :=
        (perm_append_comm_assoc _ _ _).cons _
      _ = item :: (items ++ stack) := by rw [split]

open List in
theorem steps_order_perm (items : List (Item O)) : Item.steps (order items []) ~ Item.steps items := by
  simpa [Item.steps] using (order_perm items []).filterMap Item.step?

theorem mem_order {items stack : List (Item O)} {item : Item O} :
    item ∈ order items stack ↔ item ∈ items ∨ item ∈ stack := by
  rw [(order_perm items stack).mem_iff, List.mem_append]

end Waiting

theorem Waiting.mem_of_mem_scan {items : List (Item O)} {item : Item O} (waits : item ∈ (scan items []).2) :
    item ∈ items := by
  simpa using mem_order.mp (List.mem_append_right _ waits)

/-- The end of the list waits below everything, where nothing that is read releases it. -/
theorem Held.scan_start {items : List (Item O)} (valid : ∀ item ∈ items, Item.Valid item) :
    scan items .start =
      (emitted (Waiting.scan items []).1, ofItems ((Waiting.scan items []).2 ++ [(.endOfList, none)])) := by
  have paired : Paired items := fun item member => (valid item member).paired
  have ending : Paired [((.endOfList, none) : Item O)] := by
    simp [Paired, Token.isOperator]
  have blocks : ∀ item ∈ items, Waiting.Blocks [((.endOfList, none) : Item O)] item.1 :=
    fun item member => Waiting.blocks_endOfList (valid item member).listed
  have scanned := scan_ofItems paired ending
  have floor := Waiting.scan_floor blocks []
  rw [List.nil_append] at floor
  rwa [floor] at scanned

/-- A program has its items in the order in which they leave a stack that is empty at first. -/
theorem Program.ofItems_eq {items : List (Item O)} (valid : ∀ item ∈ items, Item.Valid item) :
    Program.ofItems items = Held.emitted (Waiting.order items []) := by
  have waiting : Held.Paired (Waiting.scan items []).2 := fun item member =>
    (valid item (Waiting.mem_of_mem_scan member)).paired
  have drained := Held.drain_ofItems waiting fun item member =>
    (valid item (Waiting.mem_of_mem_scan member)).listed
  simp only [Program.ofItems, Held.scan_start valid, drained]
  exact (Held.emitted_append _ _).symm

theorem compile_of_valid {items : List (Item O)} (valid : ∀ item ∈ items, Item.Valid item) :
    compile (items.map Prod.fst) (items.filterMap Prod.snd) =
      .ok (Held.emitted (Waiting.order items [])) := by
  rw [compile, attach_of_valid valid, Except.map, Program.ofItems_eq valid]

theorem paired_of_mem_order {items : List (Item O)} (valid : ∀ item ∈ items, Item.Valid item) :
    ∀ step ∈ Item.steps (Waiting.order items []), step.Paired := by
  intro step member
  obtain ⟨item, among, kept⟩ := List.mem_filterMap.mp member
  have present : item ∈ items := by simpa [Waiting.mem_order] using among
  exact Item.paired_step (valid item present).paired kept

theorem steps_emitted_order {items : List (Item O)} (valid : ∀ item ∈ items, Item.Valid item) :
    (Held.emitted (Waiting.order items [])).steps = Item.steps (Waiting.order items []) :=
  Program.steps_ofSteps (paired_of_mem_order valid)

theorem compile_eq_emitted {tokens : List Token} {payloads : List O} (listed : .endOfList ∉ tokens)
    (counted : tokens.countP Token.isOperator = payloads.length) :
    compile tokens payloads = .ok (Held.emitted (Waiting.order (Item.join tokens payloads) [])) := by
  rw [compile, Item.attach_eq_join listed counted, Except.map,
    Program.ofItems_eq (Item.valid_join listed counted)]

theorem exists_program {tokens : List Token} {payloads : List O} (listed : .endOfList ∉ tokens)
    (counted : tokens.countP Token.isOperator = payloads.length) :
    ∃ program, compile tokens payloads = .ok program ∧
      program.steps = Item.steps (Waiting.order (Item.join tokens payloads) []) :=
  ⟨_, compile_eq_emitted listed counted, steps_emitted_order (Item.valid_join listed counted)⟩

theorem exists_items_of_compile {tokens : List Token} {payloads : List O} {program : Program O}
    (compiles : compile tokens payloads = .ok program) :
    ∃ items, items.map Prod.fst = tokens ∧ (∀ item ∈ items, Item.Valid item) ∧
      program.steps = Item.steps (Waiting.order items []) := by
  obtain ⟨items, attached, rfl⟩ := map_eq_ok.mp compiles
  have valid := valid_of_attach attached
  refine ⟨items, (parts_of_attach attached).1, valid, ?_⟩
  rw [Program.ofItems_eq valid, steps_emitted_order valid]

/-- What a program performs was laid out on its strip. -/
theorem toToken_mem_of_compile {tokens : List Token} {payloads : List O} {program : Program O}
    (compiles : compile tokens payloads = .ok program) : ∀ step ∈ program.steps, step.1.toToken ∈ tokens := by
  obtain ⟨items, rfl, _, steps⟩ := exists_items_of_compile compiles
  intro step member
  rw [steps] at member
  obtain ⟨item, among, kept⟩ := List.mem_filterMap.mp member
  obtain ⟨token, emitted, rfl⟩ := Option.map_eq_some_iff.mp kept
  rw [← ProgramToken.ofToken?_eq_some.mp emitted]
  exact List.mem_map_of_mem (by simpa [Waiting.mem_order] using among)

/-- Programs are made of strips. One without steps needs none. -/
def Program.Compiled (program : Program O) : Prop :=
  program = .empty ∨ ∃ tokens payloads, compile tokens payloads = .ok program

theorem Program.Compiled.paired {program : Program O} (compiled : program.Compiled) :
    ∀ step ∈ program.steps, step.Paired := by
  obtain rfl | ⟨tokens, payloads, compiles⟩ := compiled
  · exact List.forall_mem_nil _
  · obtain ⟨items, _, valid, steps⟩ := exists_items_of_compile compiles
    rw [steps]
    exact paired_of_mem_order valid

end SignalStrip
