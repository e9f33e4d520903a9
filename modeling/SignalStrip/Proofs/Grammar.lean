import SignalStrip.Proofs.Formula
import SignalStrip.Proofs.WeakestOperator

/-! The grammar of infix expressions. What it derives are the written forms of formulas in which binary
operators group by tier and to the left, and each of them is the written form of one such formula. -/

namespace SignalStrip

variable {O : Type}

inductive Phrase where
  | expression
  | primary
  deriving DecidableEq, Repr

inductive Derives : Phrase → List (Item O) → Prop where
  | operand : Derives .primary [(.operand, none)]
  | unary (tier : Tier) (payload : O) {items : List (Item O)} (inner : Derives .primary items) :
      Derives .primary ((.unary tier, some payload) :: items)
  | group {items : List (Item O)} (inner : Derives .expression items) :
      Derives .primary (parenthesized items)
  | sole {items : List (Item O)} (only : Derives .primary items) : Derives .expression items
  | binary (tier : Tier) (payload : O) {first second : List (Item O)} (left : Derives .expression first)
      (right : Derives .primary second) :
      Derives .expression (first ++ (.binary tier, some payload) :: second)

namespace Formula

/-- Binary operators group by tier and to the left, and unary operators take the next primary, whatever
their tiers are. -/
abbrev Grouped : Formula O → Prop :=
  Fits fun _ => 3

/-- Puts an operator and its right operand after a formula, where the tiers group them. -/
def extend (tier : Tier) (payload : O) (primary : Formula O) : Formula O → Formula O
  | binary other first left right =>
    if other.precedence < tier.precedence then
      binary other first left (extend tier payload primary right)
    else binary tier payload (binary other first left right) primary
  | formula => binary tier payload formula primary

variable {tier : Tier} {payload : O} {primary : Formula O}

private theorem items_extend (formula : Formula O) :
    (extend tier payload primary formula).items =
      formula.items ++ (.binary tier, some payload) :: primary.items := by
  induction formula with
  | operand | group _ _ | unary _ _ _ _ => rfl
  | binary other first left right _ ih =>
    unfold extend
    split
    · simp [items, ih]
    · rfl

private theorem level_extend (formula : Formula O) :
    (extend tier payload primary formula).level = min formula.level tier.precedence := by
  have small := tier.precedence_le
  cases formula with
  | operand | group _ | unary _ _ _ =>
    simp only [extend, level]
    omega
  | binary other first left right =>
    unfold extend
    split <;> simp only [level] <;> omega

private theorem grouped_extend {formula : Formula O} (grouped : formula.Grouped) (also : primary.Grouped)
    (high : 3 < primary.level) : (extend tier payload primary formula).Grouped := by
  have small := tier.precedence_le
  induction formula with
  | operand | group _ _ | unary _ _ _ _ =>
    refine ⟨⟨?_, by omega⟩, grouped, also⟩
    simp only [level]
    omega
  | binary other first left right _ ih =>
    obtain ⟨⟨loose, tight⟩, onLeft, onRight⟩ := grouped
    unfold extend
    split
    next tighter =>
      refine ⟨⟨loose, ?_⟩, onLeft, ih onRight⟩
      rw [level_extend]
      omega
    next looser => exact ⟨⟨Nat.not_lt.mp looser, by omega⟩, ⟨⟨loose, tight⟩, onLeft, onRight⟩, also⟩

theorem exists_of_derives {phrase : Phrase} {items : List (Item O)} (derives : Derives phrase items) :
    ∃ formula : Formula O, formula.items = items ∧ formula.Grouped ∧
      (phrase = .primary → 3 < formula.level) := by
  induction derives with
  | operand => exact ⟨operand, rfl, trivial, fun _ => high_operand⟩
  | unary tier payload _ ih =>
    obtain ⟨inner, rfl, grouped, high⟩ := ih
    exact ⟨.unary tier payload inner, rfl, ⟨high rfl, grouped⟩, fun _ =>
      high_unary tier payload inner⟩
  | group _ ih =>
    obtain ⟨inner, rfl, grouped, _⟩ := ih
    exact ⟨.group inner, rfl, grouped, fun _ => high_group inner⟩
  | sole _ ih =>
    obtain ⟨formula, same, grouped, _⟩ := ih
    exact ⟨formula, same, grouped, nofun⟩
  | binary tier payload _ _ ihLeft ihRight =>
    obtain ⟨formula, rfl, grouped, _⟩ := ihLeft
    obtain ⟨primary, rfl, also, high⟩ := ihRight
    exact ⟨extend tier payload primary formula, items_extend formula,
      grouped_extend grouped also (high rfl), nofun⟩

theorem derives_append {first second : List (Item O)} (left : Derives .expression first)
    (right : Derives .expression second) (tier : Tier) (payload : O) :
    Derives .expression (first ++ (.binary tier, some payload) :: second) := by
  generalize same : Phrase.expression = phrase at right
  induction right with
  | operand | unary _ _ _ _ | group _ _ => cases same
  | sole only _ => exact .binary tier payload left only
  | binary other operator _ last ih =>
    rw [← List.cons_append, ← List.append_assoc]
    exact .binary other operator (ih rfl) last

theorem derives_items {formula : Formula O} (grouped : formula.Grouped) :
    Derives .expression formula.items ∧ (3 < formula.level → Derives .primary formula.items) := by
  induction formula with
  | operand => exact ⟨.sole .operand, fun _ => .operand⟩
  | group inner ih =>
    have group := Derives.group (ih grouped).1
    exact ⟨.sole group, fun _ => group⟩
  | unary tier payload inner ih =>
    have unary := Derives.unary tier payload ((ih grouped.2).2 grouped.1)
    exact ⟨.sole unary, fun _ => unary⟩
  | binary tier payload left right ihLeft ihRight =>
    obtain ⟨_, onLeft, onRight⟩ := grouped
    refine ⟨derives_append (ihLeft onLeft).1 (ihRight onRight).1 tier payload, fun high => ?_⟩
    exact absurd high (Nat.not_lt.mpr (level_binary_le tier payload left right))

private theorem weakest?_binary {tier : Tier} {payload : O} {left right : Formula O}
    (grouped : (binary tier payload left right).Grouped) :
    weakest? 0 (binary tier payload left right).items =
      some (left.items, (.binary tier, some payload), right.items) := by
  obtain ⟨⟨loose, tight⟩, onLeft, onRight⟩ := grouped
  have small := tier.precedence_le
  have before := nested_items onLeft loose fun _ _ => by omega
  have after := nested_items_above onRight tight fun _ _ => small
  exact Parted.weakest? ⟨rfl, trivial, before.mono fun _ _ above => ⟨trivial, fun _ => above⟩,
    after.mono fun _ _ above => ⟨trivial, fun _ => above⟩⟩

private theorem priority_of_weakest?_primary {formula : Formula O} (grouped : formula.Grouped)
    (high : 3 < formula.level) {before after : List (Item O)} {operator : Item O}
    (found : weakest? 0 formula.items = some (before, operator, after)) :
    3 < operator.1.priority.input := by
  have nested := nested_items_above grouped high fun _ _ => Nat.le_refl _
  exact (parted_of_weakest?_eq_some nested found).2.holds

private theorem items_binary_ne {tier : Tier} {payload : O} {left right formula : Formula O}
    (grouped : (binary tier payload left right).Grouped) (also : formula.Grouped)
    (high : 3 < formula.level) : (binary tier payload left right).items ≠ formula.items := by
  intro same
  have found := weakest?_binary grouped
  rw [same] at found
  have above := priority_of_weakest?_primary also high found
  have small := tier.precedence_le
  simp only [Token.priority] at above
  omega

theorem items_injective {first second : Formula O} (grouped : first.Grouped) (also : second.Grouped)
    (same : first.items = second.items) : first = second := by
  induction first generalizing second with
  | operand =>
    cases second with
    | operand => rfl
    | group _ | unary _ _ _ => cases same
    | binary _ _ _ _ => exact (items_binary_ne also grouped high_operand same.symm).elim
  | group inner ih =>
    cases second with
    | operand | unary _ _ _ => cases same
    | group other =>
      have within : other.Grouped := also
      have inside : inner.items = other.items := by simpa [items, parenthesized] using same
      rw [ih grouped within inside]
    | binary _ _ _ _ => exact (items_binary_ne also grouped (high_group inner) same.symm).elim
  | unary tier payload inner ih =>
    cases second with
    | operand | group _ => cases same
    | unary other operator below =>
      simp only [items, List.cons.injEq, Prod.mk.injEq, Token.unary.injEq, Option.some.injEq] at same
      obtain ⟨⟨rfl, rfl⟩, inside⟩ := same
      rw [ih grouped.2 also.2 inside]
    | binary _ _ _ _ =>
      exact (items_binary_ne also grouped (high_unary tier payload inner) same.symm).elim
  | binary tier payload left right ihLeft ihRight =>
    cases second with
    | operand => exact (items_binary_ne grouped also high_operand same).elim
    | group inner => exact (items_binary_ne grouped also (high_group inner) same).elim
    | unary other operator inner =>
      exact (items_binary_ne grouped also (high_unary other operator inner) same).elim
    | binary other operator first second =>
      have parted := weakest?_binary grouped
      rw [same, weakest?_binary also] at parted
      simp only [Option.some.injEq, Prod.mk.injEq, Token.binary.injEq] at parted
      obtain ⟨onLeft, ⟨rfl, rfl⟩, onRight⟩ := parted
      rw [ihLeft grouped.2.1 also.2.1 onLeft.symm, ihRight grouped.2.2 also.2.2 onRight.symm]

/-- The grammar derives the written forms of grouped formulas, each from one formula only. -/
theorem derives_iff {items : List (Item O)} :
    Derives .expression items ↔ ∃ formula : Formula O, formula.Grouped ∧ formula.items = items := by
  constructor
  · intro derives
    obtain ⟨formula, same, grouped, _⟩ := exists_of_derives derives
    exact ⟨formula, grouped, same⟩
  · intro written
    obtain ⟨formula, grouped, same⟩ := written
    rw [← same]
    exact (derives_items grouped).1

end Formula
end SignalStrip
