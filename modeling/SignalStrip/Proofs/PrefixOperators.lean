import Mathlib.Data.List.Chain
import SignalStrip.Proofs.ExpressionValue
import SignalStrip.Proofs.Grammar

/-! Unary operators that stand one directly before the other. The later one evicts the earlier one unless it
binds more tightly, though neither has an operand yet. The evicted operator then takes the value that was
written before it. Evaluation notices this only where there is no such value. -/

namespace SignalStrip

variable {O : Type}

namespace Token

/-- A unary operator can only stand directly before one that binds more tightly. -/
def Admits : Token → Token → Prop
  | unary tier, unary next => tier.precedence < next.precedence
  | _, _ => True

instance decidableAdmits : (token next : Token) → Decidable (token.Admits next)
  | unary tier, unary next => inferInstanceAs (Decidable (tier.precedence < next.precedence))
  | unary _, endOfList | unary _, operand | unary _, binary _ | unary _, leftParen | unary _, rightParen
  | endOfList, _ | operand, _ | binary _, _ | leftParen, _ | rightParen, _ =>
    inferInstanceAs (Decidable True)

private theorem admits_of_isUnary_eq_false (token : Token) {next : Token} (plain : next.isUnary = false) :
    token.Admits next := by
  cases next with
  | unary tier => cases plain
  | endOfList | operand | binary _ | leftParen | rightParen => cases token <;> trivial

def Ascending (tokens : List Token) : Prop :=
  tokens.IsChain Admits

instance (tokens : List Token) : Decidable (Ascending tokens) :=
  inferInstanceAs (Decidable (tokens.IsChain Admits))

/-- What stands before the first operand. -/
def lead (tokens : List Token) : List Token :=
  tokens.takeWhile (· ≠ .operand)

private theorem lead_append {first : List Token} (operand : .operand ∈ first) (second : List Token) :
    lead (first ++ second) = lead first := by
  induction first with
  | nil => cases operand
  | cons token first ih =>
    by_cases same : token = .operand
    · simp [lead, same]
    · have later : .operand ∈ first := (List.mem_cons.mp operand).resolve_left (Ne.symm same)
      simpa [lead, same] using ih later

private theorem admits_head?_lead {tier : Tier} {tokens : List Token} :
    (∀ next ∈ (lead tokens).head?, Admits (.unary tier) next) ↔
      ∀ next ∈ tokens.head?, Admits (.unary tier) next := by
  cases tokens with
  | nil => rfl
  | cons token tokens =>
    by_cases same : token = .operand
    · simp [lead, same, Admits]
    · simp [lead, same]

end Token

namespace Formula

private theorem tokens_group (inner : Formula O) :
    (group inner).tokens = .leftParen :: (inner.tokens ++ [.rightParen]) := by
  simp [tokens, items, parenthesized]

private theorem tokens_unary (tier : Tier) (payload : O) (inner : Formula O) :
    (unary tier payload inner).tokens = .unary tier :: inner.tokens := rfl

private theorem tokens_binary (tier : Tier) (payload : O) (left right : Formula O) :
    (binary tier payload left right).tokens = left.tokens ++ .binary tier :: right.tokens := by
  simp [tokens, items]

private theorem operand_mem_tokens (formula : Formula O) : .operand ∈ formula.tokens := by
  induction formula with
  | operand => exact List.mem_singleton.mpr rfl
  | group inner ih => simp [tokens_group, ih]
  | unary tier payload inner ih => simp [tokens_unary, ih]
  | binary tier payload left right ihLeft _ => simp [tokens_binary, ihLeft]

private theorem admits_head?_tokens {tier : Tier} {formula : Formula O} (high : 3 < formula.level) :
    (∀ next ∈ formula.tokens.head?, Token.Admits (.unary tier) next) ↔
      3 + tier.precedence < formula.level := by
  have small := tier.precedence_le
  cases formula with
  | operand =>
    simp only [level]
    refine ⟨fun _ => by omega, fun _ next member => ?_⟩
    cases member
    trivial
  | group inner =>
    simp only [level]
    refine ⟨fun _ => by omega, fun _ next member => ?_⟩
    cases member
    trivial
  | unary other payload inner => simp [tokens_unary, level, Token.Admits]
  | binary other payload left right =>
    exact absurd high (Nat.not_lt.mpr (level_binary_le other payload left right))

theorem respects_iff_ascending {formula : Formula O} (grouped : formula.Grouped) :
    formula.Respects ↔ Token.Ascending formula.tokens := by
  induction formula with
  | operand => exact ⟨fun _ => .singleton _, fun _ => trivial⟩
  | group inner ih =>
    rw [Token.Ascending, tokens_group, List.isChain_cons, List.isChain_append]
    have closes : ∀ last ∈ inner.tokens.getLast?, ∀ next ∈ [Token.rightParen].head?,
        last.Admits next := by
      intro last _ next member
      cases member
      exact last.admits_of_isUnary_eq_false rfl
    refine (ih grouped).trans ⟨fun ascending => ⟨fun _ _ => trivial, ascending, .singleton _, closes⟩,
      fun ⟨_, ascending, _⟩ => ascending⟩
  | unary tier payload inner ih =>
    rw [Token.Ascending, tokens_unary, List.isChain_cons, admits_head?_tokens grouped.1]
    exact and_congr_right fun _ => ih grouped.2
  | binary tier payload left right ihLeft ihRight =>
    obtain ⟨levels, onLeft, onRight⟩ := grouped
    rw [Token.Ascending, tokens_binary, List.isChain_append, List.isChain_cons]
    have before : ∀ last ∈ left.tokens.getLast?,
        ∀ next ∈ (Token.binary tier :: right.tokens).head?, last.Admits next := by
      intro last _ next member
      cases member
      exact last.admits_of_isUnary_eq_false rfl
    constructor
    · intro ⟨_, left, right⟩
      exact ⟨(ihLeft onLeft).mp left, ⟨fun _ _ => trivial, (ihRight onRight).mp right⟩, before⟩
    · intro ⟨left, ⟨_, right⟩, _⟩
      exact ⟨levels, (ihLeft onLeft).mpr left, (ihRight onRight).mpr right⟩

/-- On the way to its first operand, each unary operator is applied to what binds more tightly. -/
def Leads : Formula O → Prop
  | operand => True
  | group inner => inner.Leads
  | unary tier _ inner => 3 + tier.precedence < inner.level ∧ inner.Leads
  | binary _ _ left _ => left.Leads

theorem leads_iff_ascending {formula : Formula O} (grouped : formula.Grouped) :
    formula.Leads ↔ Token.Ascending (Token.lead formula.tokens) := by
  induction formula with
  | operand => exact ⟨fun _ => .nil, fun _ => trivial⟩
  | group inner ih =>
    have lead : Token.lead (group inner).tokens = .leftParen :: Token.lead inner.tokens := by
      rw [tokens_group, ← List.cons_append, Token.lead_append (by simp [operand_mem_tokens])]
      rfl
    rw [lead, Token.Ascending, List.isChain_cons]
    exact (ih grouped).trans ⟨fun ascending => ⟨fun _ _ => trivial, ascending⟩, And.right⟩
  | unary tier payload inner ih =>
    have lead : Token.lead (unary tier payload inner).tokens = .unary tier :: Token.lead inner.tokens := rfl
    rw [lead, Token.Ascending, List.isChain_cons, Token.admits_head?_lead, admits_head?_tokens grouped.1]
    exact and_congr_right fun _ => ih grouped.2
  | binary tier payload left right ihLeft _ =>
    rw [tokens_binary, Token.lead_append left.operand_mem_tokens]
    exact ihLeft grouped.2.1

/-- The waiting unary operators, with the top first, that one of `tier` evicts. -/
def evicted (tier : Tier) (waiting : List (Tier × O)) : List (Tier × O) :=
  waiting.takeWhile fun top => tier.precedence ≤ top.1.precedence

def kept (tier : Tier) (waiting : List (Tier × O)) : List (Tier × O) :=
  waiting.dropWhile fun top => tier.precedence ≤ top.1.precedence

theorem length_evicted (tier : Tier) (waiting : List (Tier × O)) :
    (evicted tier waiting).length + (kept tier waiting).length = waiting.length := by
  rw [← List.length_append, evicted, kept, List.takeWhile_append_dropWhile]

def applied (waiting : List (Tier × O)) : List (Step O) :=
  waiting.map fun (tier, payload) => (.unary tier, some payload)

def waitingItems (waiting : List (Tier × O)) : List (Item O) :=
  waiting.map fun (tier, payload) => (.unary tier, some payload)

/-- The steps that come of reading a formula on waiting unary operators. -/
def reading : Formula O → List (Tier × O) → List (Step O)
  | operand, waiting => (.operand, none) :: applied waiting
  | group inner, waiting => reading inner [] ++ applied waiting
  | unary tier payload inner, waiting =>
    applied (evicted tier waiting) ++ reading inner ((tier, payload) :: kept tier waiting)
  | binary tier payload left right, waiting =>
    reading left [] ++ reading right [] ++ (.binary tier, some payload) :: applied waiting

@[simp] theorem waitingItems_nil : waitingItems ([] : List (Tier × O)) = [] := rfl

@[simp] theorem steps_waitingItems (waiting : List (Tier × O)) :
    Item.steps (waitingItems waiting) = applied waiting := by
  simp [Item.steps, waitingItems, applied, List.filterMap_map, Function.comp_def]

private theorem blocks_waitingItems (waiting : List (Tier × O)) {token : Token}
    (high : token.priority.input = 7) : Waiting.Blocks (waitingItems waiting) token := by
  cases waiting with
  | nil => exact Waiting.blocks_nil token
  | cons top below =>
    intro item member
    cases member
    have small := top.1.precedence_le
    rw [high]
    simp only [Token.priority]
    omega

private theorem evict_waitingItems (tier : Tier) (waiting : List (Tier × O)) :
    Waiting.evict (.unary tier) (waitingItems waiting) =
      (waitingItems (evicted tier waiting), waitingItems (kept tier waiting)) := by
  induction waiting with
  | nil => rfl
  | cons top below ih =>
    simp only [waitingItems, evicted, kept, List.map_cons, Waiting.evict] at ih ⊢
    by_cases looser : tier.precedence ≤ top.1.precedence
    · have released : ¬ (Token.unary top.1).priority.stack < (Token.unary tier).priority.input := by
        simp only [Token.priority]
        omega
      simp [released, looser, ih]
    · have held : (Token.unary top.1).priority.stack < (Token.unary tier).priority.input := by
        simp only [Token.priority]
        omega
      simp [held, looser]

theorem eq_nil_of_binary {tier : Tier} {payload : O} {left right : Formula O} {waiting : List (Tier × O)}
    (primary : waiting = [] ∨ 3 < (binary tier payload left right).level) : waiting = [] := by
  apply primary.resolve_right
  exact Nat.not_lt.mpr (level_binary_le tier payload left right)

theorem steps_order_eq_reading {formula : Formula O} (grouped : formula.Grouped)
    (waiting : List (Tier × O)) (primary : waiting = [] ∨ 3 < formula.level) :
    Item.steps (Waiting.order formula.items (waitingItems waiting)) = reading formula waiting := by
  induction formula generalizing waiting with
  | operand =>
    have blocks : Waiting.Blocks (waitingItems waiting) .operand := blocks_waitingItems waiting rfl
    have kept := Waiting.evict_append blocks []
    rw [List.nil_append] at kept
    simp [items, Waiting.order_cons, kept, Waiting.evict, reading]
  | group inner ih =>
    have within : inner.Grouped := grouped
    have inside := ih within [] (.inl rfl)
    rw [waitingItems_nil] at inside
    rw [items, Waiting.order_group (nested_items_anywhere within) (blocks_waitingItems waiting rfl)]
    simp [inside, reading]
  | unary tier payload inner ih =>
    have inside := ih grouped.2 ((tier, payload) :: kept tier waiting) (.inr grouped.1)
    simp only [items, Waiting.order_cons, evict_waitingItems, Item.steps_append, steps_waitingItems,
      reading]
    exact congrArg _ inside
  | binary tier payload left right ihLeft ihRight =>
    have before := ihLeft grouped.2.1 [] (.inl rfl)
    have after := ihRight grouped.2.2 [] (.inl rfl)
    rw [waitingItems_nil] at before after
    rw [eq_nil_of_binary primary, waitingItems_nil, order_binary (fun _ => Nat.le_refl 3) grouped]
    simp [before, after, reading, applied]

end Formula
end SignalStrip
