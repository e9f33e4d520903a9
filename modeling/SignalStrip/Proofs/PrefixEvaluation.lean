import SignalStrip.Proofs.PrefixOperators

/-! Evaluation of strips in which a unary operator may have been evicted before its operand was read. Such an
operator finds nothing to take if it stands before the first operand, and the evaluation stops there. Anywhere
else it takes a value that is not its own, and the program has the value of another expression. -/

namespace SignalStrip

variable {O : Type}

/-- The number of operands that have been read before each unary operator, added up. An operator that has been
evicted comes too early and makes it smaller. -/
def delay : Nat → List (Step O) → Nat
  | _, [] => 0
  | read, (.operand, _) :: steps => delay (read + 1) steps
  | read, (.unary _, _) :: steps => read + delay read steps
  | read, (.binary _, _) :: steps => delay read steps

private theorem delay_append (read : Nat) (first second : List (Step O)) :
    delay read (first ++ second) =
      delay read first + delay (read + (first.map Prod.fst).count .operand) second := by
  induction first generalizing read with
  | nil => simp [delay]
  | cons step first ih =>
    obtain ⟨token, payload⟩ := step
    cases token with
    | operand => simp [delay, ih, Nat.add_assoc, Nat.add_comm 1]
    | unary tier => simp [delay, ih, Nat.add_assoc]
    | binary tier => simp [delay, ih]

namespace Expression

private theorem delay_postorder_unary (read : Nat) (tier : Tier) (payload : O) (inner : Expression O) :
    delay read (unary tier payload inner).postorder =
      delay read inner.postorder + (read + inner.operandCount) := by
  simp [postorder, delay_append, delay, count_operand_postorder]

private theorem delay_postorder_binary (read : Nat) (tier : Tier) (payload : O) (left right : Expression O) :
    delay read (binary tier payload left right).postorder =
      delay read left.postorder + delay (read + left.operandCount) right.postorder := by
  simp [postorder, delay_append, delay, count_operand_postorder]

/-- Expressions can be values too. The value of an expression is then the expression itself, except that
functions are not told the tiers. -/
theorem delay_of_value {tree value : Expression O} {supply rest : List (Expression O)}
    (leaves : ∀ leaf ∈ supply, leaf = .operand)
    (known : tree.value (.unary .first) (.binary .first) supply = some (value, rest)) :
    (∀ read, delay read value.postorder = delay read tree.postorder) ∧
      value.operandCount = tree.operandCount ∧ ∀ leaf ∈ rest, leaf = .operand := by
  induction tree generalizing value supply rest with
  | operand =>
    cases supply with
    | nil => cases known
    | cons leaf others =>
      cases known
      obtain ⟨rfl, spared⟩ := List.forall_mem_cons.mp leaves
      exact ⟨fun _ => rfl, rfl, spared⟩
  | unary tier payload inner ih =>
    obtain ⟨⟨below, others⟩, inside, same⟩ := Option.map_eq_some_iff.mp known
    cases same
    obtain ⟨delays, counts, spared⟩ := ih leaves inside
    refine ⟨fun read => ?_, counts, spared⟩
    rw [delay_postorder_unary, delay_postorder_unary, delays, counts]
  | binary tier payload left right ihLeft ihRight =>
    obtain ⟨⟨first, others⟩, onLeft, later⟩ := Option.bind_eq_some_iff.mp known
    obtain ⟨⟨second, others⟩, onRight, same⟩ := Option.map_eq_some_iff.mp later
    cases same
    obtain ⟨delaysLeft, countsLeft, spared⟩ := ihLeft leaves onLeft
    obtain ⟨delaysRight, countsRight, spared⟩ := ihRight spared onRight
    refine ⟨fun read => ?_, by simp only [operandCount, countsLeft, countsRight], spared⟩
    rw [delay_postorder_binary, delay_postorder_binary, delaysLeft, countsLeft, delaysRight]

end Expression

namespace Formula
open Expression

def Spares (formula : Formula O) (waiting : List (Tier × O)) : Prop :=
  ∀ top ∈ waiting.head?, 3 + top.1.precedence < formula.level

private theorem spares_nil (formula : Formula O) : formula.Spares [] := by
  intro top member
  cases member

private theorem spares_of_level {formula : Formula O} (high : formula.level = 7) (waiting : List (Tier × O)) :
    formula.Spares waiting := by
  intro top _
  have small := top.1.precedence_le
  omega

private theorem spares_cons {formula : Formula O} {tier : Tier} {payload : O} {waiting : List (Tier × O)} :
    formula.Spares ((tier, payload) :: waiting) ↔ 3 + tier.precedence < formula.level := by
  simp [Spares]

private theorem reading_of_spares {tier : Tier} {payload : O} {inner : Formula O} {waiting : List (Tier × O)}
    (spares : (unary tier payload inner).Spares waiting) :
    reading (unary tier payload inner) waiting = reading inner ((tier, payload) :: waiting) := by
  cases waiting with
  | nil => rfl
  | cons top below =>
    have tighter : top.1.precedence < tier.precedence := by simpa [level] using spares_cons.mp spares
    simp [reading, evicted, kept, applied, tighter]

private theorem evicted_of_not_spares {tier : Tier} {payload : O} {inner : Formula O} {waiting : List (Tier × O)}
    (evicts : ¬ (unary tier payload inner).Spares waiting) :
    ∃ top rest, evicted tier waiting = top :: rest := by
  cases waiting with
  | nil => exact (evicts (spares_nil _)).elim
  | cons top below =>
    have looser : tier.precedence ≤ top.1.precedence := by simpa [level] using mt spares_cons.mpr evicts
    exact ⟨top, _, List.takeWhile_cons_of_pos (by simpa using looser)⟩

private theorem exists_grow_applied (waiting : List (Tier × O)) {forest : List (Expression O)}
    (present : forest ≠ []) :
    ∃ grown, grow (applied waiting) forest = some grown ∧ grown.length = forest.length := by
  induction waiting generalizing forest with
  | nil => exact ⟨forest, rfl, rfl⟩
  | cons top below ih =>
    cases forest with
    | nil => exact (present rfl).elim
    | cons tree forest =>
      obtain ⟨grown, reads, size⟩ := ih (List.cons_ne_nil (.unary top.1 top.2 tree) forest)
      exact ⟨grown, by simpa [applied, graft] using reads, size⟩

/-- Reading a formula adds one tree to a forest. Where there is no tree yet, no operator may be evicted before
the first operand. -/
private theorem exists_grow_reading {formula : Formula O} (waiting : List (Tier × O))
    {forest : List (Expression O)} (supported : forest ≠ [] ∨ formula.Leads ∧ formula.Spares waiting) :
    ∃ grown, grow (reading formula waiting) forest = some grown ∧
      grown.length = forest.length + 1 := by
  induction formula generalizing waiting forest with
  | operand =>
    obtain ⟨grown, reads, size⟩ := exists_grow_applied waiting (List.cons_ne_nil .operand forest)
    exact ⟨grown, by simpa [reading, graft] using reads, size⟩
  | group inner ih =>
    have inside : forest ≠ [] ∨ inner.Leads ∧ inner.Spares [] :=
      supported.imp_right fun both => ⟨both.1, inner.spares_nil⟩
    obtain ⟨middle, reads, size⟩ := ih [] inside
    obtain ⟨grown, applies, same⟩ :=
      exists_grow_applied waiting (List.ne_nil_of_length_eq_add_one size)
    exact ⟨grown, by simp [reading, reads, applies], same.trans size⟩
  | unary tier payload inner ih =>
    rcases supported with present | ⟨⟨above, leads⟩, spares⟩
    · obtain ⟨middle, evicts, same⟩ := exists_grow_applied (evicted tier waiting) present
      have still : middle ≠ [] := by
        intro missing
        rw [missing] at same
        exact present (List.length_eq_zero_iff.mp same.symm)
      obtain ⟨grown, reads, size⟩ := ih _ (.inl still)
      refine ⟨grown, ?_, by rw [size, same]⟩
      rw [reading, grow_append, evicts]
      exact reads
    · rw [reading_of_spares spares]
      exact ih _ (.inr ⟨leads, spares_cons.mpr above⟩)
  | binary tier payload left right ihLeft ihRight =>
    have first : forest ≠ [] ∨ left.Leads ∧ left.Spares [] :=
      supported.imp_right fun both => ⟨both.1, left.spares_nil⟩
    obtain ⟨middle, onLeft, size⟩ := ihLeft [] first
    obtain ⟨both, onRight, sizes⟩ := ihRight [] (.inl (List.ne_nil_of_length_eq_add_one size))
    rcases both with _ | ⟨second, _ | ⟨first, rest⟩⟩
    · simp [size] at sizes
    · simp [size] at sizes
    · obtain ⟨grown, applies, same⟩ := exists_grow_applied waiting
        (List.cons_ne_nil (.binary tier payload first second) rest)
      refine ⟨grown, by simp [reading, onLeft, onRight, graft, applies], ?_⟩
      simp only [List.length_cons] at sizes same
      omega

theorem exists_unary_reading {formula : Formula O} (grouped : formula.Grouped)
    (waiting : List (Tier × O)) (primary : waiting = [] ∨ 3 < formula.level)
    (evicts : ¬ (formula.Leads ∧ formula.Spares waiting)) :
    ∃ tier payload rest, reading formula waiting = (.unary tier, some payload) :: rest := by
  induction formula generalizing waiting with
  | operand => exact (evicts ⟨trivial, spares_of_level rfl waiting⟩).elim
  | group inner ih =>
    have within : inner.Grouped := grouped
    have inside : ¬ (inner.Leads ∧ inner.Spares []) := by
      intro both
      exact evicts ⟨both.1, spares_of_level rfl waiting⟩
    obtain ⟨tier, payload, rest, same⟩ := ih within [] (.inl rfl) inside
    exact ⟨tier, payload, _, by rw [reading, same]; rfl⟩
  | unary tier payload inner ih =>
    by_cases spares : (unary tier payload inner).Spares waiting
    · have inside : ¬ (inner.Leads ∧ inner.Spares ((tier, payload) :: waiting)) := by
        intro both
        exact evicts ⟨⟨spares_cons.mp both.2, both.1⟩, spares⟩
      rw [reading_of_spares spares]
      exact ih grouped.2 _ (.inr grouped.1) inside
    · obtain ⟨top, others, first⟩ := evicted_of_not_spares spares
      exact ⟨top.1, top.2, _, by rw [reading, first]; rfl⟩
  | binary tier payload left right ihLeft _ =>
    cases eq_nil_of_binary primary
    have inside : ¬ (left.Leads ∧ left.Spares []) := by
      intro both
      exact evicts ⟨both.1, spares_nil _⟩
    obtain ⟨other, operator, rest, same⟩ := ihLeft grouped.2.1 [] (.inl rfl) inside
    exact ⟨other, operator, _, by rw [reading, same]; rfl⟩

private theorem count_applied (waiting : List (Tier × O)) :
    ((applied waiting).map Prod.fst).count .operand = 0 := by
  induction waiting with
  | nil => rfl
  | cons top below ih => simpa [applied] using ih

private theorem delay_applied (read : Nat) (waiting : List (Tier × O)) :
    delay read (applied waiting) = waiting.length * read := by
  induction waiting with
  | nil => simp [applied, delay]
  | cons top below ih =>
    simp only [applied, List.map_cons, delay, List.length_cons, Nat.succ_mul] at ih ⊢
    omega

private theorem count_reading (formula : Formula O) (waiting : List (Tier × O)) :
    ((reading formula waiting).map Prod.fst).count .operand = formula.erase.operandCount := by
  induction formula generalizing waiting with
  | operand => simp [reading, count_applied, erase, operandCount]
  | group inner ih => simp [reading, ih, count_applied, erase]
  | unary tier payload inner ih => simp [reading, ih, count_applied, erase, operandCount]
  | binary tier payload left right ihLeft ihRight =>
    simp [reading, ihLeft, ihRight, count_applied, erase, operandCount]

private theorem delay_reading_unary (read : Nat) (tier : Tier) (payload : O) (inner : Formula O)
    (waiting : List (Tier × O)) :
    delay read (reading (unary tier payload inner) waiting) =
      (evicted tier waiting).length * read +
        delay read (reading inner ((tier, payload) :: kept tier waiting)) := by
  rw [reading, delay_append, delay_applied, count_applied, Nat.add_zero]

theorem delay_reading_le (read : Nat) (formula : Formula O) (waiting : List (Tier × O)) :
    delay read (reading formula waiting) ≤
      delay read formula.erase.postorder + waiting.length * (read + formula.erase.operandCount) := by
  induction formula generalizing read waiting with
  | operand => exact Nat.le_of_eq (by simp [reading, delay, delay_applied, erase, postorder, operandCount])
  | group inner ih =>
    have inside := ih read []
    rw [reading, delay_append, delay_applied, count_reading]
    simp only [List.length_nil, Nat.zero_mul, Nat.add_zero, erase] at inside ⊢
    omega
  | unary tier payload inner ih =>
    have later := ih read ((tier, payload) :: kept tier waiting)
    have early : (evicted tier waiting).length * read ≤
        (evicted tier waiting).length * (read + inner.erase.operandCount) :=
      Nat.mul_le_mul_left _ (Nat.le_add_right _ _)
    rw [delay_reading_unary, erase, delay_postorder_unary, operandCount,
      ← length_evicted tier waiting, Nat.add_mul]
    rw [List.length_cons, Nat.succ_mul] at later
    omega
  | binary tier payload left right ihLeft ihRight =>
    have first := ihLeft read []
    have second := ihRight (read + left.erase.operandCount) []
    simp only [List.length_nil, Nat.zero_mul, Nat.add_zero] at first second
    rw [erase, delay_postorder_binary, operandCount]
    simp only [reading, delay_append, List.map_append, List.count_append, count_reading, delay,
      delay_applied, Nat.add_assoc] at second ⊢
    omega

theorem delay_reading_lt (read : Nat) {formula : Formula O} (grouped : formula.Grouped)
    (waiting : List (Tier × O)) (primary : waiting = [] ∨ 3 < formula.level)
    (evicts : ¬ (formula.Respects ∧ formula.Spares waiting)) :
    delay read (reading formula waiting) <
      delay read formula.erase.postorder + waiting.length * (read + formula.erase.operandCount) := by
  induction formula generalizing read waiting with
  | operand => exact (evicts ⟨trivial, spares_of_level rfl waiting⟩).elim
  | group inner ih =>
    have within : inner.Grouped := grouped
    have inside : ¬ (inner.Respects ∧ inner.Spares []) := by
      intro both
      exact evicts ⟨both.1, spares_of_level rfl waiting⟩
    have less := ih read within [] (.inl rfl) inside
    rw [reading, delay_append, delay_applied, count_reading]
    simp only [List.length_nil, Nat.zero_mul, Nat.add_zero, erase] at less ⊢
    omega
  | unary tier payload inner ih =>
    rw [erase, delay_postorder_unary, operandCount]
    by_cases spares : (unary tier payload inner).Spares waiting
    · have inside : ¬ (inner.Respects ∧ inner.Spares ((tier, payload) :: waiting)) := by
        intro both
        exact evicts ⟨⟨spares_cons.mp both.2, both.1⟩, spares⟩
      have less := ih read grouped.2 _ (.inr grouped.1) inside
      rw [List.length_cons, Nat.succ_mul] at less
      rw [reading_of_spares spares]
      omega
    · obtain ⟨top, others, first⟩ := evicted_of_not_spares spares
      have later := delay_reading_le read inner ((tier, payload) :: kept tier waiting)
      have early : (evicted tier waiting).length * read <
          (evicted tier waiting).length * (read + inner.erase.operandCount) := by
        have positive := inner.erase.operandCount_pos
        refine Nat.mul_lt_mul_of_pos_left ?_ ?_
        · omega
        · simp [first]
      rw [delay_reading_unary, ← length_evicted tier waiting, Nat.add_mul]
      rw [List.length_cons, Nat.succ_mul] at later
      omega
  | binary tier payload left right ihLeft ihRight =>
    cases eq_nil_of_binary primary
    obtain ⟨levels, onLeft, onRight⟩ := grouped
    have first := delay_reading_le read left []
    have second := delay_reading_le (read + left.erase.operandCount) right []
    have strict : delay read (reading left []) < delay read left.erase.postorder ∨
        delay (read + left.erase.operandCount) (reading right []) <
          delay (read + left.erase.operandCount) right.erase.postorder := by
      by_cases respects : left.Respects
      · right
        have inside : ¬ (right.Respects ∧ right.Spares []) := by
          intro both
          exact evicts ⟨⟨levels, respects, both.1⟩, spares_nil _⟩
        simpa using ihRight (read + left.erase.operandCount) onRight [] (.inl rfl) inside
      · left
        have inside : ¬ (left.Respects ∧ left.Spares []) := by
          intro both
          exact respects both.1
        simpa using ihLeft read onLeft [] (.inl rfl) inside
    simp only [List.length_nil, Nat.zero_mul, Nat.add_zero] at first second ⊢
    rw [erase, delay_postorder_binary]
    simp only [reading, delay_append, count_reading, delay, applied, List.map_nil, Nat.add_zero]
    omega

end Formula

namespace Program

/-- Whatever the operands and the functions are, the program has the value of the expression or none. -/
def GivesOnly (program : Program O) (tree : Expression O) : Prop :=
  ∀ {V : Type} (unary : O → V → V) (binary : O → V → V → V) (supply : List V) (log : Log) (value : V),
    (program.evaluate (Recording.interpretation unary binary) (.start supply log)).1 = .ok value →
      ∃ rest, tree.value unary binary supply = some (value, rest)

private theorem givesOnly_of_postorder {program : Program O} {tree : Expression O}
    (steps : tree.postorder = program.steps) : program.GivesOnly tree := by
  intro V unary binary supply log value evaluates
  exact tree.value_of_evaluate unary binary steps evaluates

private theorem evaluate_of_unary_first {σ V F : Type} {program : Program O} {tier : Tier} {payload : O}
    {rest : List (Step O)} (first : program.steps = (.unary tier, some payload) :: rest)
    (interpretation : Interpretation σ O V F) (state : σ) :
    (program.evaluate interpretation state).1 = .error (.shape (.underflow 0)) := by
  simp [evaluate, first, Interpretation.run, Interpretation.perform]

private theorem not_givesOnly_of_delay_ne {program : Program O} {tree other : Expression O}
    (steps : other.postorder = program.steps)
    (apart : delay 0 other.postorder ≠ delay 0 tree.postorder) : ¬ program.GivesOnly tree := by
  intro gives
  obtain ⟨supply, enough, leaves⟩ : ∃ supply : List (Expression O),
      other.operandCount ≤ supply.length ∧ ∀ leaf ∈ supply, leaf = .operand :=
    ⟨List.replicate other.operandCount .operand, by simp, fun _ => List.eq_of_mem_replicate⟩
  obtain ⟨value, known⟩ :=
    other.exists_value (Expression.unary .first) (Expression.binary .first) supply enough
  have evaluates := other.evaluate_of_postorder _ _ steps known #[]
  obtain ⟨rest, claimed⟩ := gives _ _ _ _ _ evaluates
  have onOther := (Expression.delay_of_value leaves known).1 0
  have onTree := (Expression.delay_of_value leaves claimed).1 0
  exact apart (onOther.symm.trans onTree)

end Program

namespace Formula
open Expression

private theorem exists_compile {formula : Formula O} (grouped : formula.Grouped) :
    ∃ program, compile formula.tokens formula.payloads = .ok program ∧
      program.steps = reading formula [] := by
  have valid := formula.valid_items
  refine ⟨_, compile_of_valid valid, ?_⟩
  rw [steps_emitted_order valid]
  exact steps_order_eq_reading grouped [] (.inl rfl)

theorem givesOnly_of_reading {formula : Formula O} (grouped : formula.Grouped) {program : Program O}
    (steps : program.steps = reading formula []) :
    program.GivesOnly formula.erase ↔ formula.Respects ∨ ¬ formula.Leads := by
  constructor
  · intro gives
    by_contra neither
    simp only [not_or, not_not] at neither
    obtain ⟨evicts, leads⟩ := neither
    obtain ⟨grown, reads, size⟩ : ∃ grown, grow (reading formula []) [] = some grown ∧ grown.length = 1 :=
      exists_grow_reading [] (.inr ⟨leads, formula.spares_nil⟩)
    obtain ⟨other, rfl⟩ := List.length_eq_one_iff.mp size
    have same := Expression.postorder_of_grow reads
    have less := delay_reading_lt 0 grouped [] (.inl rfl) fun both => evicts both.1
    refine Program.not_givesOnly_of_delay_ne (same.trans steps.symm) ?_ gives
    rw [same]
    exact Nat.ne_of_lt (by simpa using less)
  · intro either
    rcases either with respects | stuck
    · apply Program.givesOnly_of_postorder
      rw [steps, ← steps_order_eq_reading grouped [] (.inl rfl)]
      exact (steps_order_items respects).symm
    · intro V unary binary supply log value evaluates
      obtain ⟨tier, payload, rest, first⟩ :=
        exists_unary_reading grouped [] (.inl rfl) fun both => stuck both.1
      rw [Program.evaluate_of_unary_first (steps.trans first)] at evaluates
      cases evaluates

end Formula

/-- A strip of the grammar means one formula. Its program gives the value of that formula or none exactly if
each unary operator that stands directly before another one binds less tightly, or if already before the
first operand this is not so. -/
theorem Derives.givesOnly_iff {items : List (Item O)} (expression : Derives .expression items) :
    ∃ formula : Formula O, (∀ other : Formula O, other.Grouped ∧ other.items = items ↔ other = formula) ∧
      ∃ program, compile (items.map Prod.fst) (items.filterMap Prod.snd) = .ok program ∧
        (program.GivesOnly formula.erase ↔
          Token.Ascending (items.map Prod.fst) ∨ ¬ Token.Ascending (Token.lead (items.map Prod.fst))) := by
  obtain ⟨formula, grouped, rfl⟩ := Formula.derives_iff.mp expression
  obtain ⟨program, compiles, steps⟩ := formula.exists_compile grouped
  refine ⟨formula, fun other => ⟨fun ⟨also, same⟩ => Formula.items_injective also grouped same, ?_⟩,
    program, compiles, ?_⟩
  · intro same
    rw [same]
    exact ⟨grouped, rfl⟩
  · rw [Formula.givesOnly_of_reading grouped steps, Formula.respects_iff_ascending grouped,
      Formula.leads_iff_ascending grouped]
    rfl

theorem Derives.givesOnly_sum_of_nested :
    let items : List (Item String) := [(.operand, none), (.binary .first, some "+"),
      (.unary .first, some "!"), (.unary .second, some "~"), (.operand, none)]
    Derives .expression items ∧
      ∃ formula : Formula String, (∀ other : Formula String, other.Grouped ∧ other.items = items ↔ other = formula) ∧
        ∃ program, compile (items.map Prod.fst) (items.filterMap Prod.snd) = .ok program ∧
          program.GivesOnly formula.erase := by
  intro items
  have expression : Derives .expression items :=
    .binary .first "+" (.sole .operand) (.unary .first "!" (.unary .second "~" .operand))
  obtain ⟨formula, unique, program, compiles, exactly⟩ := Derives.givesOnly_iff expression
  exact ⟨expression, formula, unique, program, compiles, exactly.mpr (.inl (by decide))⟩

/-- With `x b1 u2 u1 x` the first unary operator takes the left operand. -/
theorem Derives.evaluate_sum_of_evicted :
    let formula : Formula String :=
      .binary .first "+" .operand (.unary .second "!" (.unary .first "~" .operand))
    let unary := fun (payload : String) value => payload :: value
    let binary := fun (payload : String) left right => left ++ payload :: right
    Derives .expression formula.items ∧
      formula.erase.value unary binary [["a"], ["b"]] = some (["a", "+", "!", "~", "b"], []) ∧
      ∃ program, compile formula.tokens formula.payloads = .ok program ∧
        (program.evaluate (Recording.interpretation unary binary) (.start [["a"], ["b"]] #[])).1 =
          .ok ["!", "a", "+", "~", "b"] := by
  intro formula unary binary
  have grouped : formula.Grouped := by decide
  exact ⟨Formula.derives_iff.mpr ⟨formula, grouped, rfl⟩, rfl, _, rfl, rfl⟩

end SignalStrip
