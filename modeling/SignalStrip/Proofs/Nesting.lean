import SignalStrip.Proofs.Waiting

/-! Groups on a stack. Items whose parens pair up never reach below the stack they were read on, so a group
behaves as one operand, and an operator that binds loosest parts what is read before it from what is read
after it. -/

namespace SignalStrip

variable {O : Type}

def Token.isKept (token : Token) : Bool :=
  (ProgramToken.ofToken? token).isSome

namespace Token

theorem isKept_of_isOperator {token : Token} (operator : token.isOperator) : token.isKept := by
  cases token <;> first | rfl | cases operator

theorem priority_of_isKept {token : Token} (kept : token.isKept) :
    token.priority.stack = token.priority.input ∧ 0 < token.priority.input := by
  cases token with
  | endOfList | leftParen | rightParen => cases kept
  | operand => decide
  | binary tier | unary tier =>
    have := tier.precedence_pos
    simp only [priority, true_and]
    omega

theorem priority_of_isOperator {token : Token} (operator : token.isOperator) :
    token.priority.stack < 7 := by
  cases token with
  | endOfList | operand | leftParen | rightParen => cases operator
  | binary tier | unary tier =>
    have := tier.precedence_le
    simp only [priority]
    omega

theorem ne_rightParen_of_isKept {token : Token} (kept : token.isKept) : token ≠ .rightParen := by
  intro same
  rw [same] at kept
  cases kept

end Token

def parenthesized (inner : List (Item O)) : List (Item O) :=
  (.leftParen, none) :: (inner ++ [(.rightParen, none)])

/-- Items whose parens pair up. Those that are kept and outside all groups have the property `outer`. -/
inductive Nested : (Item O → Prop) → List (Item O) → Prop where
  | nil {outer : Item O → Prop} : Nested outer []
  | kept {outer : Item O → Prop} {item : Item O} {items : List (Item O)} (kept : item.1.isKept)
      (holds : outer item) (rest : Nested outer items) : Nested outer (item :: items)
  | group {outer : Item O → Prop} {inner items : List (Item O)} (inside : Nested (fun _ => True) inner)
      (rest : Nested outer items) : Nested outer (parenthesized inner ++ items)

namespace Nested

theorem append {outer : Item O → Prop} {first second : List (Item O)} (before : Nested outer first)
    (after : Nested outer second) : Nested outer (first ++ second) := by
  induction before with
  | nil => exact after
  | kept kept holds _ ih => exact .kept kept holds (ih after)
  | group inside _ _ ih =>
    rw [List.append_assoc]
    exact .group inside (ih after)

theorem mono {outer weaker : Item O → Prop} {items : List (Item O)} (nested : Nested outer items)
    (implies : ∀ item, item.1.isKept → outer item → weaker item) : Nested weaker items := by
  induction nested with
  | nil => exact .nil
  | kept kept holds _ ih => exact .kept kept (implies _ kept holds) (ih implies)
  | group inside _ _ ih => exact .group inside (ih implies)

end Nested

namespace Waiting

/-- What reading items does to a stack, when only those with the property `outer` can reach it. -/
structure Contained (outer : Item O → Prop) (items : List (Item O)) : Prop where
  floor : ∀ floor, (∀ item : Item O, item.1.isKept → outer item → Blocks floor item.1) →
    Blocks floor .leftParen → ∀ stack,
      scan items (stack ++ floor) = ((scan items stack).1, (scan items stack).2 ++ floor)
  member : ∀ stack, ∀ item ∈ (scan items stack).2,
    item ∈ stack ∨ item = (.rightParen, none) ∨ item.1.isKept ∧ outer item

private theorem evict_all {incoming : Token} {stack : List (Item O)} (opening : incoming ≠ .rightParen)
    (loose : ∀ item ∈ stack, incoming.priority.input ≤ item.1.priority.stack) :
    evict incoming stack = (stack, []) := by
  induction stack with
  | nil => rfl
  | cons top below ih =>
    obtain ⟨here, others⟩ := List.forall_mem_cons.mp loose
    simp only [evict, opening, false_and, if_false, ih others, if_neg (Int.not_lt.mpr here)]

private theorem evict_rightParen {inner : List (Item O)} (floor : List (Item O))
    (closed : ∀ item ∈ inner, item.1 ≠ .leftParen ∧ item.1 ≠ .endOfList) :
    evict .rightParen (inner ++ (.leftParen, none) :: floor) =
      (inner ++ [(.leftParen, none)], floor) := by
  induction inner with
  | nil => rfl
  | cons top below ih =>
    obtain ⟨⟨closing, listed⟩, others⟩ := List.forall_mem_cons.mp closed
    have low : ¬ top.1.priority.stack < Token.rightParen.priority.input :=
      Int.not_lt.mpr (Token.priority_nonneg listed).2
    simp only [List.cons_append, evict, closing, and_false, if_false, if_neg low, ih others]

private theorem Contained.parenthesized {inner : List (Item O)} (inside : Contained (fun _ => True) inner)
    (stack : List (Item O)) :
    scan (parenthesized inner) stack =
      ((evict .leftParen stack).1 ++ (order inner [] ++ [(.leftParen, none)]),
        (.rightParen, none) :: (evict .leftParen stack).2) := by
  have held := inside.floor ((.leftParen, none) :: (evict .leftParen stack).2)
    (by
      intro item kept _ top member
      cases member
      exact (Token.priority_of_isKept kept).2)
    (by
      intro top member
      cases member
      show Token.leftParen.priority.stack < Token.leftParen.priority.input
      decide) []
  have closed : ∀ item ∈ (scan inner []).2, item.1 ≠ .leftParen ∧ item.1 ≠ .endOfList := by
    intro item member
    rcases inside.member [] item member with absent | rfl | ⟨kept, _⟩
    · cases absent
    · exact ⟨nofun, nofun⟩
    · constructor <;> intro same <;> rw [same] at kept <;> cases kept
  rw [List.nil_append] at held
  simp [SignalStrip.parenthesized, scan, scan_append, held, evict_rightParen _ closed, order]

theorem Contained.of_nested {outer : Item O → Prop} {items : List (Item O)}
    (nested : Nested outer items) : Contained outer items := by
  induction nested with
  | nil => exact ⟨fun _ _ _ _ => rfl, fun _ _ member => .inl member⟩
  | @kept outer item items kept holds _ ih =>
    constructor
    · intro floor blocks opening stack
      simp only [scan, evict_append (blocks _ kept holds)]
      rw [← List.cons_append, ih.floor floor blocks opening]
    · intro stack other member
      rcases ih.member _ other member with waiting | found
      · rcases List.mem_cons.mp waiting with rfl | below
        · exact .inr (.inr ⟨kept, holds⟩)
        · exact .inl (mem_of_mem_evict below)
      · exact .inr found
  | @group outer inner items _ _ inside ih =>
    constructor
    · intro floor blocks opening stack
      simp only [scan_append, inside.parenthesized, evict_append opening]
      rw [← List.cons_append, ih.floor floor blocks opening]
    · intro stack other member
      rw [scan_append, inside.parenthesized] at member
      rcases ih.member _ other member with waiting | found
      · rcases List.mem_cons.mp waiting with rfl | below
        · exact .inr (.inl rfl)
        · exact .inl (mem_of_mem_evict below)
      · exact .inr found

/-- A group leaves as if it stood alone, on whatever stack it is read. -/
theorem order_parenthesized {anywhere : Item O → Prop} {inner : List (Item O)}
    (inside : Nested anywhere inner) (items stack : List (Item O)) :
    order (parenthesized inner ++ items) stack =
      (evict .leftParen stack).1 ++ (order inner [] ++
        (.leftParen, none) :: (.rightParen, none) :: order items (evict .leftParen stack).2) := by
  have contained := Contained.of_nested (inside.mono fun _ _ _ => trivial)
  rw [order_append, contained.parenthesized, order_covered items rfl]
  simp

theorem order_group {anywhere : Item O → Prop} {inner stack : List (Item O)}
    (inside : Nested anywhere inner) (blocks : Blocks stack .leftParen) :
    order (parenthesized inner) stack =
      order inner [] ++ (.leftParen, none) :: (.rightParen, none) :: stack := by
  have kept : evict .leftParen stack = ([], stack) := evict_append blocks []
  have ordered := order_parenthesized inside [] stack
  rw [List.append_nil, kept] at ordered
  exact ordered

/-- An operator that binds no more tightly than what is read before it, and less tightly than what is read
after it, leaves last. -/
theorem order_split {before after : List (Item O)} {operator : Item O} (operates : operator.1.isOperator)
    (loose : Nested (fun item => operator.1.priority.input ≤ item.1.priority.input) before)
    (tight : Nested (fun item => operator.1.priority.input < item.1.priority.input) after) :
    order (before ++ operator :: after) [] = order before [] ++ order after [] ++ [operator] := by
  have kept := Token.isKept_of_isOperator operates
  have low := Token.priority_of_isOperator operates
  have level := (Token.priority_of_isKept kept).1
  have released : evict operator.1 (scan before []).2 = ((scan before []).2, []) := by
    apply evict_all (Token.ne_rightParen_of_isKept kept)
    intro item member
    rcases (Contained.of_nested loose).member [] item member with absent | rfl | ⟨waits, above⟩
    · cases absent
    · show operator.1.priority.input ≤ 7
      omega
    · rwa [(Token.priority_of_isKept waits).1]
  have held := (Contained.of_nested tight).floor [operator]
    (by
      intro item _ above top member
      cases member
      rwa [level])
    (by
      intro top member
      cases member
      exact low) []
  rw [List.nil_append] at held
  rw [order_append, order_cons, released]
  simp [order, held]

end Waiting
end SignalStrip
