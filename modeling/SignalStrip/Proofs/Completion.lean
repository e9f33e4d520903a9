import SignalStrip.Proofs.Placement
import SignalStrip.Proofs.Substitution

/-! Parens without partners. A left paren at the bottom of a stack is in nobody's way: it holds up what the end of
the list would hold up, and it is gone once a right paren has gone down to it. A right paren at the end of a strip
only releases what would leave anyway. So a strip compiles to the same program with all its parens completed. -/

namespace SignalStrip

variable {O : Type}

/-- Groups that are opened and not yet closed. -/
def opened (count : Nat) : List (Item O) :=
  List.replicate count (.leftParen, none)

def closed (count : Nat) : List (Item O) :=
  List.replicate count (.rightParen, none)

theorem Token.leftParen_below {incoming : Token} (listed : incoming ≠ .endOfList)
    (opening : incoming ≠ .rightParen) : leftParen.priority.stack < incoming.priority.input := by
  cases incoming with
  | endOfList => exact (listed rfl).elim
  | rightParen => exact (opening rfl).elim
  | operand | leftParen => decide
  | binary tier | unary tier => cases tier <;> decide

namespace Item

@[simp] theorem steps_opened (count : Nat) : steps (opened count : List (Item O)) = [] := by
  simp [steps, opened, List.filterMap_replicate]

private theorem join_replicate {token : Token} (plain : token.isOperator = false) (count : Nat) :
    join (List.replicate count token) ([] : List O) = List.replicate count (token, none) := by
  induction count with
  | zero => rfl
  | succ count ih => simp [List.replicate_succ, join, plain, ih]

private theorem join_between {tokens : List Token} {payloads : List O}
    (counted : tokens.countP Token.isOperator = payloads.length) (before after : Nat) :
    join (List.replicate before .leftParen ++ tokens ++ List.replicate after .rightParen) payloads =
      opened before ++ (join tokens payloads ++ closed after) := by
  have none : (List.replicate before Token.leftParen).countP Token.isOperator = ([] : List O).length := by
    simp [List.countP_replicate, Token.isOperator]
  have tail : join (tokens ++ List.replicate after .rightParen) payloads =
      join tokens payloads ++ closed after := by
    rw [← List.append_nil payloads, join_append counted, join_replicate rfl, List.append_nil]
    rfl
  rw [List.append_assoc, ← List.nil_append payloads, join_append none, join_replicate rfl, List.nil_append,
    tail, opened]

end Item

namespace Waiting

/-- Opened groups at the bottom of a stack stay there, except that a right paren may close one of them. -/
private theorem exists_evict_opened {incoming : Token} (listed : incoming ≠ .endOfList) (stack : List (Item O))
    (count : Nat) :
    ∃ gone left, evict incoming (stack ++ opened count) =
      ((evict incoming stack).1 ++ opened gone, (evict incoming stack).2 ++ opened left) := by
  induction stack with
  | nil =>
    cases count with
    | zero => exact ⟨0, 0, rfl⟩
    | succ count =>
      by_cases closing : incoming = .rightParen
      · subst closing
        exact ⟨1, count, rfl⟩
      · have barrier : Blocks (opened (O := O) (count + 1)) incoming := by
          intro top member
          cases member
          exact Token.leftParen_below listed closing
        exact ⟨0, count + 1, evict_append barrier []⟩
  | cons top below ih =>
    obtain ⟨gone, left, same⟩ := ih
    simp only [List.cons_append, evict, same]
    split
    · exact ⟨0, count, rfl⟩
    split
    · exact ⟨0, count, rfl⟩
    · exact ⟨gone, left, rfl⟩

private theorem steps_order_opened {items : List (Item O)} (listed : ∀ item ∈ items, item.1 ≠ .endOfList)
    (stack : List (Item O)) (count : Nat) :
    Item.steps (order items (stack ++ opened count)) = Item.steps (order items stack) := by
  induction items generalizing stack count with
  | nil => simp
  | cons item items ih =>
    obtain ⟨here, others⟩ := List.forall_mem_cons.mp listed
    obtain ⟨gone, left, same⟩ := exists_evict_opened here stack count
    have later := ih others (item :: (evict item.1 stack).2) left
    rw [List.cons_append] at later
    simp [order_cons, same, later]

private theorem steps_order_opened_append {items : List (Item O)} (listed : ∀ item ∈ items, item.1 ≠ .endOfList)
    (count depth : Nat) :
    Item.steps (order (opened count ++ items) (opened depth)) = Item.steps (order items []) := by
  induction count generalizing depth with
  | zero => exact steps_order_opened listed [] depth
  | succ count ih =>
    have kept : evict .leftParen (opened depth) = (([] : List (Item O)), opened depth) := by
      cases depth <;> rfl
    show Item.steps (order ((.leftParen, none) :: (opened count ++ items)) (opened depth)) = _
    rw [order_cons, kept]
    exact ih (depth + 1)

private theorem steps_order_closed (count : Nat) (stack : List (Item O)) :
    Item.steps (order (closed count) stack) = Item.steps stack := by
  induction count generalizing stack with
  | zero => rfl
  | succ count ih =>
    show Item.steps (order ((.rightParen, none) :: closed count) stack) = _
    rw [order_cons, Item.steps_append, ih, Item.steps_cons, Item.step?_rightParen, Option.toList_none,
      List.nil_append, ← Item.steps_append, evict_split]

theorem steps_order_between {items : List (Item O)} (listed : ∀ item ∈ items, item.1 ≠ .endOfList)
    (before after : Nat) :
    Item.steps (order (opened before ++ (items ++ closed after)) []) = Item.steps (order items []) := by
  have within : ∀ item ∈ items ++ closed after, item.1 ≠ .endOfList := by
    intro item member
    rcases List.mem_append.mp member with written | added
    · exact listed item written
    · rw [List.eq_of_mem_replicate added]
      exact nofun
  calc Item.steps (order (opened before ++ (items ++ closed after)) [])
    _ = Item.steps (order (items ++ closed after) []) := steps_order_opened_append within before 0
    _ = Item.steps (order items []) := by
      rw [order_append, Item.steps_append, steps_order_closed, ← Item.steps_append, order]

end Waiting

/-- A strip and the strip with its parens completed have the same program. No token is lost on the way, and the end
of the list stays at the bottom of the stack, where nothing reaches it. -/
theorem compile_completed {tokens : List Token} {payloads : List O} (listed : .endOfList ∉ tokens)
    (counted : tokens.countP Token.isOperator = payloads.length) :
    Token.Balanced (Token.completed tokens) ∧
      ∃ program, compile tokens payloads = .ok program ∧
        compile (Token.completed tokens) payloads = .ok program ∧
        program.length + tokens.countP Token.isParen = tokens.length ∧
        ∀ count, ∃ waiting, .endOfList ∉ waiting ∧
          (Held.scan ((Item.join tokens payloads).take count) .start).2.tokens = waiting ++ [.endOfList] := by
  have valid := Item.valid_join listed counted
  have listedWhole : .endOfList ∉ Token.completed tokens := by
    simp [Token.completed, listed, List.mem_replicate]
  have countedWhole : (Token.completed tokens).countP Token.isOperator = payloads.length := by
    simp [Token.completed, List.countP_append, List.countP_replicate, Token.isOperator, counted]
  refine ⟨Token.balanced_completed tokens, _, compile_eq_emitted listed counted, ?_, ?_, fun count => ?_⟩
  · rw [compile_eq_emitted listedWhole countedWhole, Token.completed, Item.join_between counted, Held.emitted,
      Waiting.steps_order_between fun item member => (valid item member).listed, Held.emitted]
  · have size := Item.length_steps fun item member => (valid item member).listed
    rw [Item.map_fst_join] at size
    rw [Program.length, ← Program.map_fst_steps, List.length_map, steps_emitted_order valid,
      (Waiting.steps_order_perm _).length_eq, size]
  · have within : ∀ item ∈ (Item.join tokens payloads).take count, Item.Valid item := fun item member =>
      valid item (List.mem_of_mem_take member)
    refine ⟨(Waiting.scan ((Item.join tokens payloads).take count) []).2.map Prod.fst, ?_, ?_⟩
    · intro member
      obtain ⟨item, waits, same⟩ := List.mem_map.mp member
      exact (within item (Waiting.mem_of_mem_scan waits)).listed same
    · rw [Held.scan_start within]
      simp [Held.ofItems]

theorem compile_completed_in_both_directions :
    let tokens : List Token := [.operand, .rightParen, .rightParen, .binary .second, .leftParen, .unary .first,
      .leftParen, .operand, .rightParen]
    .endOfList ∉ tokens ∧ tokens.countP Token.isOperator = ["*", "-"].length ∧
      Token.completed tokens = [.leftParen, .leftParen] ++ tokens ++ [.rightParen] ∧
      ∃ program, compile tokens ["*", "-"] = .ok program ∧
        compile (Token.completed tokens) ["*", "-"] = .ok program := by
  intro tokens
  have listed : .endOfList ∉ tokens := by decide
  have counted : tokens.countP Token.isOperator = ["*", "-"].length := by decide
  obtain ⟨_, program, compiles, same, _⟩ := compile_completed listed counted
  exact ⟨listed, counted, rfl, program, compiles, same⟩

end SignalStrip
