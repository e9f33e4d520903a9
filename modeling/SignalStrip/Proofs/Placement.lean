import SignalStrip.Proofs.Depth
import SignalStrip.Proofs.ExpressionValue
import SignalStrip.Proofs.Grammar
import SignalStrip.Proofs.Origins

/-! Misplaced tokens. On a strip that makes sense, a value begins exactly where none has just ended. Every other
place is one where values meet or one where a value is missing. An evaluation counts values, so it notices such
places unless the two kinds cancel out. -/

namespace SignalStrip

variable {O : Type}

namespace Token

def begins : Token → Bool
  | operand | unary _ | leftParen => true
  | endOfList | binary _ | rightParen => false

def ends : Token → Bool
  | operand | rightParen => true
  | endOfList | binary _ | unary _ | leftParen => false

/-- Each token with the one after it, when `before` stands in front. The end counts as a right paren. -/
def neighbours (before : Token) (tokens : List Token) : List (Token × Token) :=
  (before :: tokens).zip (tokens ++ [rightParen])

/-- A value begins where another one has just ended. -/
def meets (pair : Token × Token) : Bool :=
  pair.1.ends && pair.2.begins

/-- No value has ended, and none begins. -/
def lacks (pair : Token × Token) : Bool :=
  !pair.1.ends && !pair.2.begins

def meetings (tokens : List Token) : Nat :=
  (neighbours leftParen tokens).countP meets

def gaps (tokens : List Token) : Nat :=
  (neighbours leftParen tokens).countP lacks

@[simp] theorem neighbours_nil (before : Token) : neighbours before [] = [(before, rightParen)] := rfl

@[simp] theorem neighbours_cons (before token : Token) (tokens : List Token) :
    neighbours before (token :: tokens) = (before, token) :: neighbours token tokens := rfl

private theorem neighbours_append_rightParen (before : Token) (first second : List Token) :
    neighbours before (first ++ rightParen :: second) =
      neighbours before first ++ neighbours rightParen second := by
  induction first generalizing before with
  | nil => rfl
  | cons token first ih => simp [ih]

def gain (token : Token) : Int :=
  (ProgramToken.ofToken? token).elim 0 ProgramToken.gain

private theorem gain_eq {token : Token} (listed : token ≠ .endOfList) (before : Token) :
    token.gain + (if lacks (before, token) then 1 else 0) + (if before.ends then 1 else 0) =
      (if meets (before, token) then 1 else 0) + (if token.ends then 1 else 0) := by
  rw [lacks, meets]
  cases before.ends <;> cases token <;> first | rfl | exact (listed rfl).elim

/-- One value is to come where none has just ended. Each meeting brings one too many, and each gap one too few. -/
private theorem sum_gain (before : Token) {tokens : List Token} (listed : .endOfList ∉ tokens) :
    (tokens.map gain).sum + (neighbours before tokens).countP lacks + (if before.ends then 1 else 0) =
      1 + (neighbours before tokens).countP meets := by
  induction tokens generalizing before with
  | nil => cases ended : before.ends <;> simp [lacks, meets, begins, ended]
  | cons token tokens ih =>
    simp only [List.mem_cons, not_or] at listed
    have here := gain_eq (Ne.symm listed.1) before
    have rest := ih token listed.2
    simp only [List.map_cons, List.sum_cons, neighbours_cons, List.countP_cons]
    grind

/-- How many right parens close a group that is not open, and how many groups are never closed, when `depth` of
them are open at first. -/
def unmatched : Nat → List Token → Nat × Nat
  | depth, [] => (0, depth)
  | depth, leftParen :: tokens => unmatched (depth + 1) tokens
  | 0, rightParen :: tokens => ((unmatched 0 tokens).1 + 1, (unmatched 0 tokens).2)
  | depth + 1, rightParen :: tokens => unmatched depth tokens
  | depth, _ :: tokens => unmatched depth tokens

/-- A strip in which parens at its ends match those that have no partner. -/
def completed (tokens : List Token) : List Token :=
  List.replicate (unmatched 0 tokens).1 leftParen ++ tokens ++
    List.replicate (unmatched 0 tokens).2 rightParen

private theorem groupsOpen?_replicate_leftParen (count depth : Nat) (tokens : List Token) :
    groupsOpen? depth (List.replicate count leftParen ++ tokens) = groupsOpen? (depth + count) tokens := by
  induction count generalizing depth with
  | zero => rfl
  | succ count ih =>
    rw [List.replicate_succ, List.cons_append, groupsOpen?, ih, Nat.add_right_comm, Nat.add_assoc]

private theorem groupsOpen?_replicate_rightParen (depth : Nat) :
    groupsOpen? depth (List.replicate depth rightParen) = some 0 := by
  induction depth with
  | zero => rfl
  | succ depth ih => rwa [List.replicate_succ, groupsOpen?]

private theorem groupsOpen?_append_unmatched (depth : Nat) (tokens after : List Token) :
    groupsOpen? (depth + (unmatched depth tokens).1) (tokens ++ after) =
      groupsOpen? (unmatched depth tokens).2 after := by
  induction tokens generalizing depth with
  | nil => rfl
  | cons token tokens ih =>
    rw [List.cons_append]
    cases token with
    | endOfList | operand | binary _ | unary _ => simpa only [unmatched, groupsOpen?] using ih depth
    | leftParen =>
      rw [unmatched, groupsOpen?, Nat.add_right_comm]
      exact ih (depth + 1)
    | rightParen =>
      cases depth with
      | zero =>
        have rest := ih 0
        rwa [Nat.zero_add] at rest ⊢
      | succ depth =>
        rw [unmatched, Nat.add_right_comm, groupsOpen?]
        exact ih depth

theorem balanced_completed (tokens : List Token) : Balanced (completed tokens) := by
  rw [Balanced, completed, List.append_assoc, groupsOpen?_replicate_leftParen,
    groupsOpen?_append_unmatched, groupsOpen?_replicate_rightParen]

private theorem neighbours_replicate_leftParen (count : Nat) (tokens : List Token) :
    neighbours leftParen (List.replicate count leftParen ++ tokens) =
      List.replicate count (leftParen, leftParen) ++ neighbours leftParen tokens := by
  induction count with
  | zero => rfl
  | succ count ih => simp [List.replicate_succ, ih]

private theorem neighbours_append_replicate_rightParen (before : Token) (tokens : List Token) (count : Nat) :
    neighbours before (tokens ++ List.replicate count rightParen) =
      neighbours before tokens ++ List.replicate count (rightParen, rightParen) := by
  induction count generalizing before tokens with
  | zero => simp
  | succ count ih =>
    have closing := ih rightParen []
    rw [List.nil_append] at closing
    rw [List.replicate_succ, neighbours_append_rightParen, closing]
    simp [List.replicate_succ]

private theorem countP_neighbours_completed {wrong : Token × Token → Bool}
    (opens : wrong (leftParen, leftParen) = false) (closes : wrong (rightParen, rightParen) = false)
    (tokens : List Token) :
    (neighbours leftParen (completed tokens)).countP wrong = (neighbours leftParen tokens).countP wrong := by
  rw [completed, List.append_assoc, neighbours_replicate_leftParen, neighbours_append_replicate_rightParen]
  simp [List.countP_append, List.countP_replicate, opens, closes]

end Token

def Token.Placed (before : Token) (tokens : List Token) : Prop :=
  ∀ pair ∈ neighbours before tokens, pair.2.begins = !pair.1.ends

private theorem Token.placed_of_count {before : Token} {tokens : List Token}
    (apart : (neighbours before tokens).countP meets = 0) (whole : (neighbours before tokens).countP lacks = 0) :
    Placed before tokens := by
  intro pair member
  have neither := And.intro (List.countP_eq_zero.mp apart pair member) (List.countP_eq_zero.mp whole pair member)
  revert neither
  simp only [meets, lacks]
  cases pair.1.ends <;> cases pair.2.begins <;> decide

namespace Derives

private theorem exists_last {phrase : Phrase} {items : List (Item O)} (derives : Derives phrase items) (before : Token)
    (awaits : before.ends = false) :
    ∃ last : Token, last.ends = true ∧ ∀ after,
      (Token.neighbours before (items.map Prod.fst ++ after)).countP Token.meets =
        (Token.neighbours last after).countP Token.meets := by
  induction derives generalizing before with
  | operand =>
    refine ⟨.operand, rfl, fun after => ?_⟩
    simp [Token.meets, awaits]
  | unary tier payload _ ih =>
    obtain ⟨last, ends, rest⟩ := ih (.unary tier) rfl
    refine ⟨last, ends, fun after => ?_⟩
    simp [Token.meets, awaits, rest]
  | group _ ih =>
    obtain ⟨last, ends, rest⟩ := ih .leftParen rfl
    refine ⟨.rightParen, rfl, fun after => ?_⟩
    simp [parenthesized, Token.meets, Token.begins, awaits, rest]
  | sole _ ih => exact ih before awaits
  | binary tier payload _ _ ihLeft ihRight =>
    obtain ⟨middle, _, first⟩ := ihLeft before awaits
    obtain ⟨last, ends, second⟩ := ihRight (.binary tier) rfl
    refine ⟨last, ends, fun after => ?_⟩
    simp [first, second, Token.meets, Token.begins]

theorem meetings_eq_zero {items : List (Item O)} (expression : Derives .expression items) :
    Token.meetings (items.map Prod.fst) = 0 := by
  obtain ⟨last, ends, rest⟩ := expression.exists_last .leftParen rfl
  have whole := rest []
  rw [List.append_nil] at whole
  rw [Token.meetings, whole]
  simp [Token.meets, Token.begins]

private theorem extend_of_placed {outer : Item O → Prop} {items : List (Item O)} (nested : Nested outer items)
    (valid : ∀ item ∈ items, Item.Valid item) {before : Token}
    (placed : Token.Placed before (items.map Prod.fst)) :
    (before.ends = true → ∀ {first : List (Item O)}, Derives .expression first →
      Derives .expression (first ++ items)) ∧
    (before.ends = false → ∃ first rest, items = first ++ rest ∧ Derives .primary first ∧
      ∀ {left : List (Item O)}, Derives .expression left → Derives .expression (left ++ rest)) := by
  induction nested generalizing before with
  | nil =>
    have last := placed (before, .rightParen) (List.mem_singleton.mpr rfl)
    refine ⟨fun _ first derives => by rwa [List.append_nil], fun awaits => ?_⟩
    rw [awaits] at last
    cases last
  | @kept outer item items kept _ _ ih =>
    obtain ⟨⟨paired, listed⟩, others⟩ := List.forall_mem_cons.mp valid
    obtain ⟨here, later⟩ := List.forall_mem_cons.mp placed
    obtain ⟨continues, starts⟩ := ih others later
    obtain ⟨token, payload⟩ := item
    simp only at here
    cases token with
    | endOfList | leftParen | rightParen => cases kept
    | operand =>
      cases payload with
      | some payload => cases paired
      | none =>
        refine ⟨fun ended => ?_, fun awaits => ?_⟩
        · rw [ended] at here
          cases here
        · exact ⟨[_], items, rfl, .operand, fun derives => continues rfl derives⟩
    | unary tier =>
      obtain ⟨payload, rfl⟩ := Option.isSome_iff_exists.mp paired
      refine ⟨fun ended => ?_, fun awaits => ?_⟩
      · rw [ended] at here
        cases here
      · obtain ⟨first, rest, rfl, primary, more⟩ := starts rfl
        exact ⟨_ :: first, rest, rfl, .unary tier payload primary, more⟩
    | binary tier =>
      obtain ⟨payload, rfl⟩ := Option.isSome_iff_exists.mp paired
      refine ⟨fun ended first derives => ?_, fun awaits => ?_⟩
      · obtain ⟨second, rest, rfl, primary, more⟩ := starts rfl
        simpa using more (.binary tier payload derives primary)
      · rw [awaits] at here
        cases here
  | @group outer inner items _ _ ihInner ih =>
    have tokens : (parenthesized inner ++ items).map Prod.fst =
        .leftParen :: (inner.map Prod.fst ++ .rightParen :: items.map Prod.fst) := by
      simp [parenthesized]
    rw [tokens, Token.Placed, Token.neighbours_cons, Token.neighbours_append_rightParen] at placed
    obtain ⟨here, later⟩ := List.forall_mem_cons.mp placed
    obtain ⟨within, after⟩ := List.forall_mem_append.mp later
    have validInner : ∀ item ∈ inner, Item.Valid item := fun item member =>
      valid item (by simp [parenthesized, member])
    obtain ⟨first, rest, rfl, primary, more⟩ := (ihInner validInner within).2 rfl
    have group := Derives.group (more (.sole primary))
    have others : ∀ item ∈ items, Item.Valid item := fun item member =>
      valid item (List.mem_append_right _ member)
    refine ⟨fun ended => ?_, fun awaits => ?_⟩
    · simp only [ended] at here
      cases here
    · exact ⟨_, items, rfl, group, fun derives => (ih others after).1 rfl derives⟩

theorem of_placed {outer : Item O → Prop} {items : List (Item O)} (nested : Nested outer items)
    (valid : ∀ item ∈ items, Item.Valid item) (placed : Token.Placed .leftParen (items.map Prod.fst)) :
    Derives .expression items := by
  obtain ⟨first, rest, rfl, primary, more⟩ := (extend_of_placed nested valid placed).2 rfl
  exact more (.sole primary)

end Derives

/-- A strip is an expression, once its parens are completed, exactly if values meet nowhere and none is missing. -/
theorem derives_completed_iff {tokens : List Token} {payloads : List O} (listed : .endOfList ∉ tokens)
    (counted : tokens.countP Token.isOperator = payloads.length)
    (level : Token.meetings tokens = Token.gaps tokens) :
    Derives .expression (Item.join (Token.completed tokens) payloads) ↔ Token.meetings tokens = 0 := by
  have meets : (Token.neighbours .leftParen (Token.completed tokens)).countP Token.meets =
      Token.meetings tokens := Token.countP_neighbours_completed rfl rfl tokens
  have lacks : (Token.neighbours .leftParen (Token.completed tokens)).countP Token.lacks =
      Token.gaps tokens := Token.countP_neighbours_completed rfl rfl tokens
  constructor
  · intro expression
    have none := expression.meetings_eq_zero
    rwa [Item.map_fst_join, Token.meetings, meets] at none
  · intro none
    have within : .endOfList ∉ Token.completed tokens := by
      simp [Token.completed, listed, List.mem_replicate]
    have balances : (Token.completed tokens).countP Token.isOperator = payloads.length := by
      simp [Token.completed, List.countP_append, List.countP_replicate, Token.isOperator, counted]
    have valid := Item.valid_join within balances
    have nested := Nested.of_balanced valid (by
      rw [Item.map_fst_join]
      exact Token.balanced_completed tokens)
    apply Derives.of_placed nested valid
    rw [Item.map_fst_join]
    exact Token.placed_of_count (meets.trans none) (lacks.trans (level.symm.trans none))

private theorem Expression.sum_gain_postorder (tree : Expression O) :
    (tree.postorder.map fun step => step.1.gain).sum = 1 := by
  induction tree with
  | operand => rfl
  | unary tier payload inner ih => simp [postorder, ih]
  | binary tier payload left right ihLeft ihRight => simp [postorder, ihLeft, ihRight]

private theorem Item.sum_gain_steps (items : List (Item O)) :
    ((steps items).map fun step => step.1.gain).sum = ((items.map Prod.fst).map Token.gain).sum := by
  induction items with
  | nil => rfl
  | cons item items ih =>
    rw [List.map_cons, List.map_cons, List.sum_cons, ← ih, steps_cons]
    cases kept : ProgramToken.ofToken? item.1 <;> simp [step?, Token.gain, kept]

/-- With enough operands, an evaluation of a strip gives a value or says what is wrong with its shape. Only where
as many values are missing as meet does it give one, and then the strip is an expression unless there are any. -/
theorem meetings_eq_gaps_of_value {tokens : List Token} {payloads : List O} (listed : .endOfList ∉ tokens)
    (counted : tokens.countP Token.isOperator = payloads.length) :
    ∃ program, compile tokens payloads = .ok program ∧
      ∀ {V : Type} (unary : O → V → V) (binary : O → V → V → V) (supply : List V) (log : Log),
        tokens.count .operand ≤ supply.length →
        let result := (program.evaluate (Recording.interpretation unary binary) (.start supply log)).1
        ((∃ value, result = .ok value) ∨ ∃ error, result = .error (.shape error)) ∧
        ((∃ value, result = .ok value) →
          Token.meetings tokens = Token.gaps tokens ∧
          (Derives .expression (Item.join (Token.completed tokens) payloads) ↔ Token.meetings tokens = 0)) := by
  obtain ⟨program, compiles, steps⟩ := exists_program listed counted
  have valid := Item.valid_join listed counted
  have ordered := Waiting.steps_order_perm (Item.join tokens payloads)
  rw [← steps] at ordered
  have operands : program.operandCount = tokens.count .operand := by
    rw [Program.operandCount, ← program.map_fst_steps, (ordered.map Prod.fst).count_eq,
      Item.count_operand_steps, Item.map_fst_join]
  refine ⟨program, compiles, fun unary binary supply log enough => ⟨?_, fun evaluates => ?_⟩⟩
  · exact program.value_or_shape (steps ▸ paired_of_mem_order valid) unary binary (operands ▸ enough) log
  · obtain ⟨value, evaluates⟩ := evaluates
    obtain ⟨tree, same⟩ := Program.exists_postorder evaluates
    have sole : (tokens.map Token.gain).sum = 1 := by
      rw [← Item.map_fst_join tokens payloads, ← Item.sum_gain_steps,
        ← (ordered.map fun step => step.1.gain).sum_eq, ← same, tree.sum_gain_postorder]
    have level : Token.meetings tokens = Token.gaps tokens := by
      have balance := Token.sum_gain .leftParen listed
      rw [sole] at balance
      have begins : Token.ends .leftParen = false := rfl
      simp only [begins, Bool.false_eq_true, if_false] at balance
      rw [Token.meetings, Token.gaps]
      omega
    exact ⟨level, derives_completed_iff listed counted level⟩

theorem meetings_eq_gaps_of_value_in_stray_parens :
    let tokens : List Token := [.operand, .rightParen, .binary .second, .leftParen, .unary .first, .operand]
    .endOfList ∉ tokens ∧ tokens.countP Token.isOperator = ["*", "-"].length ∧
      Token.meetings tokens = Token.gaps tokens ∧
      Derives .expression (Item.join (Token.completed tokens) ["*", "-"]) := by
  intro tokens
  have listed : .endOfList ∉ tokens := by decide
  have counted : tokens.countP Token.isOperator = ["*", "-"].length := by decide
  obtain ⟨program, compiles, values⟩ := meetings_eq_gaps_of_value listed counted
  cases compiles
  have value := values (fun _ value => -value) (fun _ left right => left * right) [(4 : Int), 5] #[] (by decide)
  obtain ⟨level, expression⟩ := value.2 ⟨-20, rfl⟩
  exact ⟨listed, counted, level, expression.mpr (by decide)⟩

/-- With `x x b1` the operands meet, and the operator has nothing on its right. It takes both operands all the
same. -/
theorem value_of_operator_after_operands :
    let tokens : List Token := [.operand, .operand, .binary .first]
    .endOfList ∉ tokens ∧ tokens.countP Token.isOperator = ["+"].length ∧
      ¬ Derives .expression (Item.join (Token.completed tokens) ["+"]) ∧
      ∃ program, compile tokens ["+"] = .ok program ∧ program.operandCount ≤ [2, 3].length ∧
        (program.evaluate (Recording.interpretation (fun _ value => value) fun _ left right => left + right)
          (.start [2, 3] #[])).1 = .ok 5 := by
  intro tokens
  refine ⟨by decide, by decide, fun expression => ?_, _, rfl, by decide, rfl⟩
  have apart := expression.meetings_eq_zero
  revert apart
  decide

end SignalStrip
