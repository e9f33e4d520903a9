import Mathlib.Data.List.Basic
import SignalStrip.Proofs.Runs
import SignalStrip.Proofs.Waiting

/-! Where the steps of a program come from. The tokens alone decide in which order the tokens of a strip leave
the stack, so numbered tokens show the way of every payload. An operand leaves as soon as anything is read
after it: operands stay in their order, and no operator overtakes an operand. -/

namespace SignalStrip

variable {O P : Type}

/-- Whatever `among` holds of is compared in the same way under its new name, and parens keep theirs. -/
structure Token.Renames (rename : Token → Token) (among : Token → Prop) : Prop where
  compares {top incoming : Token} (waits : among top) (reads : among incoming) :
    (rename top).priority.stack < (rename incoming).priority.input ↔ top.priority.stack < incoming.priority.input
  opens (token : Token) : rename token = .leftParen ↔ token = .leftParen
  closes (token : Token) : rename token = .rightParen ↔ token = .rightParen

theorem Token.renames_id (among : Token → Prop) : Renames id among :=
  ⟨fun _ _ => .rfl, fun _ => .rfl, fun _ => .rfl⟩

namespace Waiting

variable {rename : Token → Token} {among : Token → Prop} (relabel : Item O → Item P)

theorem evict_map (renames : Token.Renames rename among) (named : ∀ item, (relabel item).1 = rename item.1)
    {incoming : Token} (reads : among incoming) {stack : List (Item O)} (waits : ∀ item ∈ stack, among item.1) :
    evict (rename incoming) (stack.map relabel) =
      ((evict incoming stack).1.map relabel, (evict incoming stack).2.map relabel) := by
  induction stack with
  | nil => rfl
  | cons top below ih =>
    obtain ⟨here, others⟩ := List.forall_mem_cons.mp waits
    simp only [List.map_cons, evict, named, renames.compares here reads, renames.opens, renames.closes, ih others]
    split
    · rfl
    split <;> rfl

theorem order_map (renames : Token.Renames rename among) (named : ∀ item, (relabel item).1 = rename item.1)
    {items stack : List (Item O)} (reads : ∀ item ∈ items, among item.1) (waits : ∀ item ∈ stack, among item.1) :
    order (items.map relabel) (stack.map relabel) = (order items stack).map relabel := by
  induction items generalizing stack with
  | nil => rfl
  | cons item items ih =>
    obtain ⟨here, others⟩ := List.forall_mem_cons.mp reads
    have left : ∀ other ∈ item :: (evict item.1 stack).2, among other.1 :=
      List.forall_mem_cons.mpr ⟨here, fun other member => waits other (mem_of_mem_evict member)⟩
    rw [List.map_cons, order_cons, order_cons, named, evict_map relabel renames named here waits, List.map_append,
      ← ih others left, List.map_cons]

/-- What a token releases leaves before anything else does. An operand never waits below anything, so the
operands that are still to leave have not been read. -/
private theorem pairwise_release {written : Item O → Item O → Prop} {unread stack : List (Item O)}
    (below : ∀ item ∈ stack, item.1 ≠ .operand ∧ ∀ later ∈ unread, written item later) (incoming : Token)
    {next : List (Item O)}
    (ordered : next.Pairwise fun earlier later => later.1 = .operand → written earlier later)
    (among : ∀ later ∈ next, later ∈ unread ++ (evict incoming stack).2) :
    ((evict incoming stack).1 ++ next).Pairwise fun earlier later =>
      later.1 = .operand → written earlier later := by
  have released : ∀ other ∈ (evict incoming stack).1, other ∈ stack := fun other member => by
    rw [← evict_split incoming stack]
    exact List.mem_append_left _ member
  refine List.pairwise_append.mpr ⟨?_, ordered, fun other member later here operand => ?_⟩
  · exact List.pairwise_of_forall_mem_list fun _ _ later member operand =>
      absurd operand (below later (released later member)).1
  · rcases List.mem_append.mp (among later here) with ahead | waiting
    · exact (below other (released other member)).2 later ahead
    · exact absurd operand (below later (mem_of_mem_evict waiting)).1

private theorem pairwise_order {written : Item O → Item O → Prop} {items stack : List (Item O)}
    (ordered : items.Pairwise written)
    (below : ∀ item ∈ stack, item.1 ≠ .operand ∧ ∀ later ∈ items, written item later) :
    (order items stack).Pairwise fun earlier later => later.1 = .operand → written earlier later := by
  induction items generalizing stack with
  | nil =>
    refine List.pairwise_of_forall_mem_list fun _ _ later member operand => ?_
    exact absurd operand (below later member).1
  | cons item items ih =>
    obtain ⟨first, rest⟩ := List.pairwise_cons.mp ordered
    have waiting : ∀ other ∈ (evict item.1 stack).2,
        other.1 ≠ .operand ∧ ∀ later ∈ items, written other later := fun other member => by
      obtain ⟨plain, before⟩ := below other (mem_of_mem_evict member)
      exact ⟨plain, fun later among => before later (List.mem_cons_of_mem _ among)⟩
    obtain ⟨token, payload⟩ := item
    by_cases operand : token = .operand
    · subst operand
      rw [order_operand]
      refine pairwise_release below .operand (List.pairwise_cons.mpr ⟨?_, ih rest waiting⟩) ?_
      · intro later member operand
        rcases mem_order.mp member with unread | held
        · exact first later unread
        · exact absurd operand (waiting later held).1
      · intro later member
        simpa [mem_order] using member
    · rw [order_cons]
      refine pairwise_release below token
        (ih rest (List.forall_mem_cons.mpr ⟨⟨operand, first⟩, waiting⟩)) ?_
      intro later member
      rcases mem_order.mp member with unread | held
      · simp [unread]
      · simpa [or_left_comm] using List.mem_append_right items held

end Waiting

namespace Item

def numbered (tokens : List Token) : List (Item Nat) :=
  tokens.zipIdx.map fun (token, position) => (token, some position)

def payloadOf (items : List (Item O)) (item : Item Nat) : Item O :=
  (item.1, item.2.bind fun position => items[position]?.bind Prod.snd)

private theorem map_payloadOf_numbered (items : List (Item O)) :
    (numbered (items.map Prod.fst)).map (payloadOf items) = items := by
  apply List.ext_getElem?
  intro position
  cases found : items[position]? <;> simp [numbered, payloadOf, found]

theorem mem_numbered {tokens : List Token} {item : Item Nat} (member : item ∈ numbered tokens) :
    ∃ position, tokens[position]? = some item.1 ∧ item.2 = some position := by
  obtain ⟨pair, among, rfl⟩ := List.mem_map.mp member
  exact ⟨pair.2, List.mem_zipIdx_iff_getElem?.mp among, rfl⟩

/-- The positions of the tokens that are no parens, in the order in which they leave. -/
def origins (tokens : List Token) : List Nat :=
  (Waiting.order (numbered tokens) []).filterMap fun item => if item.1.isParen then none else item.2

open List in
theorem origins_perm (tokens : List Token) : origins tokens ~ tokens.findIdxs (!·.isParen) := by
  have left := (Waiting.order_perm (numbered tokens) []).filterMap fun item =>
    if item.1.isParen then none else item.2
  rw [List.append_nil] at left
  refine left.trans (.of_eq ?_)
  rw [numbered, List.filterMap_map, List.findIdxs_eq_filterMap_zipIdx]
  congr 1
  funext pair
  cases paren : pair.1.isParen <;> simp [paren]

theorem pairwise_origins (tokens : List Token) :
    (origins tokens).Pairwise fun earlier later => tokens[later]? = some .operand → earlier < later := by
  have numbers : (numbered tokens).Pairwise fun earlier later =>
      ∀ first ∈ earlier.2, ∀ second ∈ later.2, first < second := by
    have ascending : (tokens.zipIdx.map Prod.snd).Pairwise (· < ·) := by
      rw [List.zipIdx_map_snd]
      exact List.pairwise_lt_range'
    rw [numbered, List.pairwise_map]
    refine (List.pairwise_map.mp ascending).imp fun {earlier later} less first same second also => ?_
    rwa [Option.mem_some_iff.mp same, Option.mem_some_iff.mp also] at less
  have ordered := Waiting.pairwise_order numbers (List.forall_mem_nil _)
  rw [origins, List.pairwise_filterMap]
  refine ordered.imp_of_mem fun {earlier later} _ member written first kept second also operand => ?_
  obtain ⟨position, found, label⟩ := mem_numbered (by simpa [Waiting.mem_order] using member)
  simp only [ite_eq_iff, reduceCtorEq, and_false, false_or] at kept also
  obtain rfl := Option.some.inj (label.symm.trans also.2)
  exact written (Option.some.inj (found.symm.trans operand)) first kept.2 position also.2

private theorem steps_order_eq_origins {items : List (Item O)} (listed : ∀ item ∈ items, item.1 ≠ .endOfList) :
    (steps (Waiting.order items [])).map some =
      (origins (items.map Prod.fst)).map fun position => items[position]?.bind step? := by
  have ordered : Waiting.order ((numbered (items.map Prod.fst)).map (payloadOf items)) [] =
      (Waiting.order (numbered (items.map Prod.fst)) []).map (payloadOf items) :=
    Waiting.order_map (payloadOf items) (Token.renames_id fun _ => True) (fun _ => rfl) (fun _ _ => trivial)
      (List.forall_mem_nil _)
  rw [map_payloadOf_numbered] at ordered
  rw [ordered, steps, origins, List.filterMap_map, List.map_filterMap, List.map_filterMap]
  apply List.filterMap_congr
  intro item member
  obtain ⟨position, found, label⟩ := mem_numbered (by simpa [Waiting.mem_order] using member)
  obtain ⟨⟨token, payload⟩, here, same⟩ : ∃ other, items[position]? = some other ∧ other.1 = item.1 := by
    simpa using found
  have kept := listed _ (List.mem_of_getElem? here)
  obtain ⟨_, label⟩ := item
  subst same label
  cases token with
  | endOfList => exact (kept rfl).elim
  | operand | binary _ | unary _ | leftParen | rightParen =>
    simp [payloadOf, here, Token.isParen]

end Item

namespace Token

/-- `origins` tells for each step of a program at which position of the strip its token stood. -/
structure Rearranged (tokens : List Token) (origins : List Nat) : Prop where
  each : origins.Perm (tokens.findIdxs (!·.isParen))
  operands : origins.filter (tokens[·]? = some .operand) = tokens.findIdxs (· = .operand)
  first : ∀ {operand operator : Nat}, tokens[operand]? = some .operand → operand < operator →
    operator ∈ origins → origins.idxOf operand < origins.idxOf operator

private theorem idxOf_lt_of_pairwise {written : Nat → Nat → Prop} {positions : List Nat}
    (ordered : positions.Pairwise written) {first second : Nat} (member : first ∈ positions)
    (also : second ∈ positions) (apart : first ≠ second) (late : ¬ written second first) :
    positions.idxOf first < positions.idxOf second := by
  by_contra overtakes
  have other : positions.idxOf first ≠ positions.idxOf second := mt (List.idxOf_inj member).mp apart
  have before := List.pairwise_iff_getElem.mp ordered _ _ (List.idxOf_lt_length_iff.mpr also)
    (List.idxOf_lt_length_iff.mpr member) (by omega)
  rw [List.getElem_idxOf, List.getElem_idxOf] at before
  exact late before

private theorem mem_origins {tokens : List Token} {position : Nat} :
    position ∈ Item.origins tokens ↔ ∃ token, tokens[position]? = some token ∧ token.isParen = false := by
  rw [(Item.origins_perm tokens).mem_iff]
  simp [List.getElem?_eq_some_iff]

theorem rearranged_origins (tokens : List Token) : Rearranged tokens (Item.origins tokens) := by
  have ordered := Item.pairwise_origins tokens
  have distinct : (Item.origins tokens).Nodup := (Item.origins_perm tokens).nodup_iff.mpr List.nodup_findIdxs
  refine ⟨Item.origins_perm tokens, ?_, fun {operand operator} found less member => ?_⟩
  · refine List.Perm.eq_of_pairwise (fun _ _ _ _ less more => absurd more (Nat.lt_asymm less)) ?_
      List.pairwise_findIdxs ?_
    · refine (ordered.filter _).imp_of_mem fun {_ later} _ among written => written ?_
      simpa using (List.mem_filter.mp among).2
    · refine (List.perm_ext_iff_of_nodup (distinct.filter _) List.nodup_findIdxs).mpr fun position => ?_
      simp only [List.mem_filter, mem_origins, decide_eq_true_eq, List.mem_findIdxs_iff_exists_getElem_pos,
        ← List.getElem?_eq_some_iff]
      exact ⟨And.right, fun found => ⟨⟨_, found, rfl⟩, found⟩⟩
  · exact idxOf_lt_of_pairwise ordered (mem_origins.mpr ⟨_, found, rfl⟩) member (Nat.ne_of_lt less)
      fun written => Nat.lt_asymm less (written found)

/-- The step that a token becomes, with the payload that stands at the same place among the payloads as
the token among the operators. -/
def stepAt? (tokens : List Token) (payloads : List O) (position : Nat) : Option (Step O) :=
  (tokens[position]?.bind ProgramToken.ofToken?).map fun token =>
    (token, if token = .operand then none
      else payloads[(tokens.take position).countP Token.isOperator]?)

private theorem bind_step?_join (tokens : List Token) (payloads : List O) (position : Nat) :
    (Item.join tokens payloads)[position]?.bind Item.step? = stepAt? tokens payloads position := by
  induction tokens generalizing payloads position with
  | nil => rfl
  | cons token tokens ih =>
    unfold Item.join
    cases position with
    | zero =>
      cases token <;>
        simp [stepAt?, Token.isOperator, Item.step?, ProgramToken.ofToken?, List.head?_eq_getElem?]
    | succ position =>
      split
      next operates =>
        simp [stepAt?, operates, ih]
      next plain => simp [stepAt?, plain, ih]

end Token

namespace Item

theorem count_operand_steps (items : List (Item O)) :
    ((steps items).map Prod.fst).count .operand = (items.map Prod.fst).count .operand := by
  induction items with
  | nil => rfl
  | cons item items ih =>
    obtain ⟨token, payload⟩ := item
    cases token <;> simp [step?, ProgramToken.ofToken?, ih]

theorem length_steps {items : List (Item O)} (listed : ∀ item ∈ items, item.1 ≠ .endOfList) :
    (steps items).length + (items.map Prod.fst).countP Token.isParen = (items.map Prod.fst).length := by
  rw [List.countP_map, List.length_map]
  induction items with
  | nil => rfl
  | cons item items ih =>
    obtain ⟨here, others⟩ := List.forall_mem_cons.mp listed
    have rest := ih others
    obtain ⟨token, payload⟩ := item
    cases token with
    | endOfList => exact (here rfl).elim
    | operand | binary _ | unary _ | leftParen | rightParen =>
      simp [Token.isParen, List.countP_cons]
      omega

end Item

open List in
/-- Whatever the payloads are, the tokens of a strip become the steps of its program in the same order. Each of
them becomes one step, with its own payload, and no operator overtakes an operand. -/
theorem exists_origins {tokens : List Token} (listed : .endOfList ∉ tokens) :
    ∃ origins, Token.Rearranged tokens origins ∧
      ∀ {O : Type} (payloads : List O), tokens.countP Token.isOperator = payloads.length →
        ∃ program, compile tokens payloads = .ok program ∧
          program.steps.map some = origins.map (Token.stepAt? tokens payloads) ∧
          (∀ step ∈ program.steps, step.Paired) ∧
          (∀ {σ V F : Type} (interpretation : Interpretation σ O V F) (state : σ),
            (program.evaluate interpretation state).1 ≠ .error .unpaired) ∧
          program.length + tokens.countP Token.isParen = tokens.length ∧
          program.operandCount = tokens.count .operand := by
  refine ⟨Item.origins tokens, Token.rearranged_origins tokens, fun {O} payloads counted => ?_⟩
  obtain ⟨program, compiles, steps⟩ := exists_program listed counted
  have valid := Item.valid_join listed counted
  have ordered : program.steps ~ Item.steps (Item.join tokens payloads) := steps ▸ Waiting.steps_order_perm _
  have paired : ∀ step ∈ program.steps, step.Paired := steps ▸ paired_of_mem_order valid
  refine ⟨program, compiles, ?_, paired, program.evaluate_ne_unpaired paired, ?_, ?_⟩
  · rw [steps, Item.steps_order_eq_origins fun item member => (valid item member).listed, Item.map_fst_join]
    simp only [Token.bind_step?_join]
  · have size := Item.length_steps fun item member => (valid item member).listed
    rw [Item.map_fst_join] at size
    rw [Program.length, ← program.map_fst_steps, List.length_map, ordered.length_eq, size]
  · rw [Program.operandCount, ← program.map_fst_steps, (ordered.map Prod.fst).count_eq,
      Item.count_operand_steps, Item.map_fst_join]

theorem exists_origins_of_stray_parens :
    let tokens : List Token :=
      [.rightParen, .operand, .binary .first, .leftParen, .unary .second, .operand]
    let program : Program String := ⟨[.operand, .operand, .unary .second, .binary .first], ["!", "+"]⟩
    .endOfList ∉ tokens ∧ compile tokens ["+", "!"] = .ok program ∧
      ∃ origins, Token.Rearranged tokens origins ∧ origins.map (Token.stepAt? tokens ["+", "!"]) =
        [some (.operand, none), some (.operand, none), some (.unary .second, some "!"),
          some (.binary .first, some "+")] := by
  intro tokens program
  have listed : .endOfList ∉ tokens := by decide
  have compiles : compile tokens ["+", "!"] = .ok program := rfl
  obtain ⟨origins, rearranged, every⟩ := exists_origins listed
  obtain ⟨same, compiled, steps, _⟩ := every ["+", "!"] (by decide)
  cases compiles.symm.trans compiled
  exact ⟨listed, compiles, origins, rearranged, steps.symm⟩

end SignalStrip
