import SignalStrip.Proofs.Nesting

/-! Expressions as they are written. A formula is an expression with the groups that parens make of it.
Where tiers allow a formula to be written without further parens, compiling what is written gives the
postorder of the expression. -/

namespace SignalStrip

variable {O : Type}

inductive Formula (O : Type) where
  | operand
  | group (inner : Formula O)
  | unary (tier : Tier) (payload : O) (inner : Formula O)
  | binary (tier : Tier) (payload : O) (left right : Formula O)
  deriving DecidableEq, Repr

namespace Formula

/-- The written form, each operator with its payload. -/
def items : Formula O → List (Item O)
  | operand => [(.operand, none)]
  | group inner => parenthesized inner.items
  | unary tier payload inner => (.unary tier, some payload) :: inner.items
  | binary tier payload left right => left.items ++ (.binary tier, some payload) :: right.items

def tokens (formula : Formula O) : List Token :=
  formula.items.map Prod.fst

def payloads (formula : Formula O) : List O :=
  formula.items.filterMap Prod.snd

def erase : Formula O → Expression O
  | operand => .operand
  | group inner => inner.erase
  | unary tier payload inner => .unary tier payload inner.erase
  | binary tier payload left right => .binary tier payload left.erase right.erase

def level : Formula O → Nat
  | operand | group _ => 7
  | unary tier _ _ => 3 + tier.precedence
  | binary tier _ _ _ => tier.precedence

theorem high_operand : 3 < (operand : Formula O).level :=
  show 3 < 7 by omega

theorem high_group (inner : Formula O) : 3 < (group inner).level :=
  show 3 < 7 by omega

theorem high_unary (tier : Tier) (payload : O) (inner : Formula O) : 3 < (unary tier payload inner).level :=
  Nat.lt_add_of_pos_right tier.precedence_pos

theorem level_binary_le (tier : Tier) (payload : O) (left right : Formula O) :
    (binary tier payload left right).level ≤ 3 :=
  tier.precedence_le

/-- Binary operators group by tier and to the left, and what a unary operator is applied to has a level
above `bound`. -/
def Fits (bound : Tier → Nat) : Formula O → Prop
  | operand => True
  | group inner => inner.Fits bound
  | unary tier _ inner => bound tier < inner.level ∧ inner.Fits bound
  | binary tier _ left right =>
    (tier.precedence ≤ left.level ∧ tier.precedence < right.level) ∧ left.Fits bound ∧ right.Fits bound

instance decidableFits (bound : Tier → Nat) : (formula : Formula O) → Decidable (formula.Fits bound)
  | operand => inferInstanceAs (Decidable True)
  | group inner => decidableFits bound inner
  | unary tier _ inner =>
    have := decidableFits bound inner
    inferInstanceAs (Decidable (bound tier < inner.level ∧ inner.Fits bound))
  | binary tier _ left right =>
    have := decidableFits bound left
    have := decidableFits bound right
    inferInstanceAs (Decidable ((tier.precedence ≤ left.level ∧ tier.precedence < right.level) ∧
      left.Fits bound ∧ right.Fits bound))

/-- Every operator is applied to what binds more tightly, except that equal binary tiers may follow each
other on the left. -/
abbrev Respects : Formula O → Prop :=
  Fits fun tier => 3 + tier.precedence

theorem valid_items (formula : Formula O) : ∀ item ∈ formula.items, Item.Valid item := by
  induction formula with
  | operand => exact List.forall_mem_singleton.mpr ⟨rfl, nofun⟩
  | group inner ih =>
    intro item member
    rcases List.mem_cons.mp member with rfl | member
    · exact ⟨rfl, nofun⟩
    · rcases List.mem_append.mp member with inside | last
      · exact ih item inside
      · cases List.mem_singleton.mp last
        exact ⟨rfl, nofun⟩
  | unary tier payload inner ih => exact List.forall_mem_cons.mpr ⟨⟨rfl, nofun⟩, ih⟩
  | binary tier payload left right ihLeft ihRight =>
    refine List.forall_mem_append.mpr ⟨ihLeft, List.forall_mem_cons.mpr ⟨⟨rfl, nofun⟩, ihRight⟩⟩

theorem nested_items {bound : Tier → Nat} {least : Nat} {formula : Formula O} (fits : formula.Fits bound)
    (low : least ≤ formula.level)
    (reaches : ∀ tier : Tier, least ≤ 3 + tier.precedence → least ≤ bound tier + 1) :
    Nested (fun item => (least : Int) ≤ item.1.priority.input) formula.items := by
  induction formula generalizing least with
  | operand =>
    refine .kept rfl ?_ .nil
    simp only [Token.priority, level] at low ⊢
    omega
  | group inner ih =>
    have inside := (ih fits (Nat.zero_le _) fun _ _ => Nat.zero_le _).mono fun _ _ _ => trivial
    simpa [items] using Nested.group inside .nil
  | unary tier payload inner ih =>
    have below := Nat.lt_of_lt_of_le (Nat.lt_succ_of_le (reaches tier low)) (Nat.succ_le_succ fits.1)
    refine .kept rfl ?_ (ih fits.2 (Nat.lt_succ_iff.mp below) reaches)
    simp only [Token.priority, level] at low ⊢
    omega
  | binary tier payload left right ihLeft ihRight =>
    obtain ⟨⟨loose, tight⟩, onLeft, onRight⟩ := fits
    simp only [level] at low
    refine (ihLeft onLeft (by omega) reaches).append (.kept rfl ?_ (ihRight onRight (by omega) reaches))
    simp only [Token.priority]
    omega

theorem nested_items_above {bound : Tier → Nat} {least : Nat} {formula : Formula O}
    (fits : formula.Fits bound) (low : least < formula.level)
    (reaches : ∀ tier : Tier, least < 3 + tier.precedence → least ≤ bound tier) :
    Nested (fun item => (least : Int) < item.1.priority.input) formula.items :=
  (nested_items fits low fun tier above => Nat.succ_le_succ (reaches tier above)).mono
    fun item _ above => by omega

theorem nested_items_anywhere {bound : Tier → Nat} {formula : Formula O} (fits : formula.Fits bound) :
    Nested (fun _ => True) formula.items :=
  (nested_items fits (Nat.zero_le _) fun _ _ => Nat.zero_le _).mono fun _ _ _ => trivial

theorem order_binary {bound : Tier → Nat} (reaches : ∀ tier, 3 ≤ bound tier) {tier : Tier} {payload : O}
    {left right : Formula O} (fits : (binary tier payload left right).Fits bound) :
    Waiting.order (binary tier payload left right).items [] =
      Waiting.order left.items [] ++ Waiting.order right.items [] ++ [(.binary tier, some payload)] := by
  obtain ⟨⟨loose, tight⟩, onLeft, onRight⟩ := fits
  have small := tier.precedence_le
  have before := nested_items onLeft loose fun other _ => by have := reaches other; omega
  have after := nested_items_above onRight tight fun other _ => by have := reaches other; omega
  exact Waiting.order_split rfl before after

theorem steps_order_items {formula : Formula O} (respects : formula.Respects) :
    Item.steps (Waiting.order formula.items []) = formula.erase.postorder := by
  induction formula with
  | operand => rfl
  | group inner ih =>
    have inside : inner.Respects := respects
    rw [items, Waiting.order_group (nested_items_anywhere inside) (Waiting.blocks_nil _)]
    simpa [erase] using ih inside
  | unary tier payload inner ih =>
    obtain ⟨above, inside⟩ := respects
    have after := nested_items_above inside above fun other reached => Nat.le_of_lt_add_one (by omega)
    have ordered : Waiting.order ([] ++ (.unary tier, some payload) :: inner.items) [] = _ :=
      Waiting.order_split rfl .nil after
    rw [List.nil_append] at ordered
    simp [items, ordered, ih inside, erase, Expression.postorder]
  | binary tier payload left right ihLeft ihRight =>
    rw [order_binary (fun other => Nat.le_add_right _ _) respects]
    obtain ⟨_, onLeft, onRight⟩ := respects
    simp [ihLeft onLeft, ihRight onRight, erase, Expression.postorder]

/-- What is written by the tiers compiles to the postorder of what is meant. -/
theorem compile_eq_postorder {formula : Formula O} (respects : formula.Respects) :
    compile formula.tokens formula.payloads = .ok (.ofSteps formula.erase.postorder) := by
  rw [tokens, payloads, compile_of_valid formula.valid_items, Held.emitted, steps_order_items respects]

theorem compile_eq_postorder_of_two_tiers :
    let formula : Formula String :=
      binary .first "+" (binary .first "-" operand (binary .second "*" (unary .first "~" operand) operand)) operand
    formula.Respects ∧
      compile [.operand, .binary .first, .unary .first, .operand, .binary .second, .operand, .binary .first,
          .operand] ["-", "~", "*", "+"] =
        .ok ⟨[.operand, .operand, .unary .first, .operand, .binary .second, .binary .first, .operand,
          .binary .first], ["~", "*", "-", "+"]⟩ := by
  intro formula
  have respects : formula.Respects := by decide
  exact ⟨respects, compile_eq_postorder respects⟩

end Formula
end SignalStrip
