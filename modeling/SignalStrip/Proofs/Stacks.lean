import Mathlib.Data.List.Chain
import Mathlib.Data.List.Induction
import SignalStrip.Proofs.Completion

/-! The two stacks while a strip is read. Every token waits above others that it did not release, so from one left
paren to the next the priorities rise, and the stack is no higher than the groups that are open allow. -/

namespace SignalStrip

variable {O P : Type}

namespace Token

theorem groupsOpen?_append (depth : Nat) (first second : List Token) :
    groupsOpen? depth (first ++ second) = (groupsOpen? depth first).bind (groupsOpen? · second) := by
  fun_induction groupsOpen? depth first <;> simp_all [groupsOpen?]

/-- How many groups that were opened behind `position` are open at the end, unless a right paren behind it closes
one that was not. -/
def groupsSince? (tokens : List Token) (position : Nat) : Option Nat :=
  groupsOpen? 0 (tokens.drop (position + 1))

/-- The positions of the left parens whose groups are open at the end, from the outermost on. -/
def unclosed (tokens : List Token) : List Nat :=
  (List.range tokens.length).filter fun position =>
    tokens[position]? = some .leftParen ∧ (groupsSince? tokens position).isSome

private theorem groupsSince?_last (tokens : List Token) (token : Token) :
    groupsSince? (tokens ++ [token]) tokens.length = some 0 := by
  simp [groupsSince?, groupsOpen?]

private theorem groupsSince?_snoc {tokens : List Token} {position : Nat} (within : position < tokens.length)
    (token : Token) :
    groupsSince? (tokens ++ [token]) position = (groupsSince? tokens position).bind (groupsOpen? · [token]) := by
  rw [groupsSince?, List.drop_append_of_le_length within, groupsOpen?_append]
  rfl

private theorem unclosed_snoc (tokens : List Token) (token : Token) :
    unclosed (tokens ++ [token]) =
      (unclosed tokens).filter (fun position => (groupsSince? (tokens ++ [token]) position).isSome) ++
        if token = .leftParen then [tokens.length] else [] := by
  rw [unclosed, List.length_append, List.length_singleton, List.range_succ, List.filter_append]
  congr 1
  · rw [unclosed, List.filter_filter]
    apply List.filter_congr
    intro position member
    have within := List.mem_range.mp member
    rw [List.getElem?_append_left within, groupsSince?_snoc within]
    cases groupsSince? tokens position <;> simp [and_comm]
  · by_cases opens : token = .leftParen
    · simp [opens, groupsSince?_last]
    · simp [opens]

private theorem lt_length_of_mem_unclosed {tokens : List Token} {position : Nat} (member : position ∈ unclosed tokens) :
    position < tokens.length :=
  List.mem_range.mp (List.mem_of_mem_filter member)

private theorem groupsSince?_snoc_of_mem {tokens : List Token} {position : Nat} (member : position ∈ unclosed tokens)
    (token : Token) :
    groupsSince? (tokens ++ [token]) position = (groupsSince? tokens position).bind (groupsOpen? · [token]) :=
  groupsSince?_snoc (lt_length_of_mem_unclosed member) token

private theorem groupsOpen?_of_ne {token : Token} (plain : token ≠ .rightParen) (depth : Nat) :
    groupsOpen? depth [token] = some (token.depthAfter depth) := by
  cases token with
  | rightParen => exact (plain rfl).elim
  | endOfList | operand | binary _ | unary _ | leftParen => simp [groupsOpen?, depthAfter]

private theorem unclosed_snoc_of_ne (tokens : List Token) {token : Token} (plain : token ≠ .rightParen) :
    unclosed (tokens ++ [token]) = unclosed tokens ++ if token = .leftParen then [tokens.length] else [] := by
  rw [unclosed_snoc, List.filter_eq_self.mpr]
  intro position member
  rw [groupsSince?_snoc_of_mem member]
  simp only [unclosed, List.mem_filter, decide_eq_true_eq] at member
  obtain ⟨count, opened⟩ := Option.isSome_iff_exists.mp member.2.2
  rw [opened, Option.bind_some, groupsOpen?_of_ne plain]
  rfl

/-- From the innermost open group on, there are none, one, two and more open groups behind its left paren. -/
def Counted (tokens : List Token) : Prop :=
  (unclosed tokens).reverse.map (groupsSince? tokens) = (List.range (unclosed tokens).length).map some

private theorem Counted.snoc_rightParen {tokens : List Token} (counted : Counted tokens) :
    unclosed (tokens ++ [rightParen]) = (unclosed tokens).dropLast ∧ Counted (tokens ++ [rightParen]) := by
  have after : (unclosed tokens).reverse.map (groupsSince? (tokens ++ [rightParen])) =
      ((List.range (unclosed tokens).length).map some).map (Option.bind · (groupsOpen? · [rightParen])) := by
    rw [← counted, List.map_map]
    apply List.map_congr_left
    intro position member
    exact groupsSince?_snoc_of_mem (List.mem_reverse.mp member) rightParen
  have kept := unclosed_snoc tokens rightParen
  rw [if_neg nofun, List.append_nil] at kept
  obtain empty | ⟨outer, innermost, ends⟩ := List.eq_nil_or_concat (unclosed tokens)
  · rw [empty, List.filter_nil] at kept
    exact ⟨kept.trans (by rw [empty]; rfl), by rw [Counted, kept]; rfl⟩
  · rw [List.concat_eq_append] at ends
    rw [ends] at kept after
    rw [List.reverse_append, List.length_append, List.length_singleton, List.range_succ_eq_map] at after
    obtain ⟨closed, others⟩ := List.cons.inj after
    rw [List.map_map, List.map_map] at others
    change outer.reverse.map _ = (List.range outer.length).map some at others
    have remain : unclosed (tokens ++ [rightParen]) = outer := by
      rw [kept, List.filter_append, List.filter_eq_self.mpr, List.filter_singleton, closed]
      · exact List.append_nil outer
      · intro position member
        have found := List.mem_map_of_mem (f := groupsSince? (tokens ++ [rightParen])) (List.mem_reverse.mpr member)
        rw [others] at found
        obtain ⟨count, _, same⟩ := List.mem_map.mp found
        rw [← same]
        rfl
    exact ⟨by rw [remain, ends, List.dropLast_concat], by rw [Counted, remain, others]⟩

private theorem Counted.snoc_of_ne {tokens : List Token} (counted : Counted tokens) {token : Token}
    (plain : token ≠ .rightParen) : Counted (tokens ++ [token]) := by
  have after : (unclosed tokens).reverse.map (groupsSince? (tokens ++ [token])) =
      (List.range (unclosed tokens).length).map fun count => some (token.depthAfter count) := by
    have before := congrArg (List.map (Option.map (depthAfter · token))) counted
    rw [List.map_map, List.map_map] at before
    refine (List.map_congr_left fun position member => ?_).trans before
    rw [groupsSince?_snoc_of_mem (List.mem_reverse.mp member), Function.comp_apply, Option.map_eq_bind]
    simp only [groupsOpen?_of_ne plain]
    rfl
  rw [Counted, unclosed_snoc_of_ne tokens plain]
  by_cases opening : token = .leftParen
  · subst opening
    rw [if_pos rfl, List.reverse_append, List.length_append, List.length_singleton, List.range_succ_eq_map]
    simp [groupsSince?_last, after, depthAfter]
  · rw [if_neg opening, List.append_nil, after]
    have same (count : Nat) : token.depthAfter count = count := by
      cases token <;> first | rfl | contradiction
    simp only [same]

theorem counted_unclosed (tokens : List Token) : Counted tokens := by
  induction tokens using List.reverseRecOn with
  | nil => rfl
  | append_singleton tokens token ih =>
    by_cases closing : token = .rightParen
    · subst closing
      exact ih.snoc_rightParen.2
    · exact ih.snoc_of_ne closing

/-- What may wait directly below: `upper` would have released it if it bound as tightly, and a right paren waits where
its left paren did. -/
def Rests (upper lower : Token) : Prop :=
  lower.priority.stack < max upper.priority.input upper.priority.stack

private theorem input_le_stack {token : Token} (plain : token ≠ .leftParen) :
    token.priority.input ≤ token.priority.stack := by
  cases token with
  | leftParen => exact (plain rfl).elim
  | endOfList | operand | binary _ | unary _ | rightParen => simp [priority]

private theorem stack_pos {token : Token} (listed : token ≠ .endOfList) (plain : token ≠ .leftParen) :
    0 < token.priority.stack := by
  cases token with
  | endOfList => exact (listed rfl).elim
  | leftParen => exact (plain rfl).elim
  | operand | rightParen => decide
  | binary tier | unary tier =>
    have := tier.precedence_pos
    simp only [priority]
    omega

private theorem Rests.lt_stack {upper lower : Token} (rests : Rests upper lower) (plain : upper ≠ .leftParen) :
    lower.priority.stack < upper.priority.stack := by
  rwa [Rests, Int.max_eq_right (input_le_stack plain)] at rests

private theorem Rests.lt_seven {upper lower : Token} (rests : Rests upper lower) : lower.priority.stack < 7 :=
  Int.lt_of_lt_of_le rests (Int.max_le.mpr upper.priority_le)

/-- Between left parens the priorities rise. -/
private theorem pairwise_of_isChain {segment : List Token} {lower : Token}
    (rests : (segment ++ [lower]).IsChain Rests) (plain : .leftParen ∉ segment) :
    ((segment ++ [lower]).map fun token => token.priority.stack).Pairwise (· > ·) := by
  rw [← List.isChain_iff_pairwise]
  induction segment with
  | nil => exact .singleton _
  | cons token segment ih =>
    simp only [List.mem_cons, not_or] at plain
    have above := ih rests.tail plain.2
    rw [List.cons_append, List.map_cons]
    refine above.cons fun priority head => ?_
    rw [List.head?_map] at head
    obtain ⟨next, first, rfl⟩ := Option.map_eq_some_iff.mp head
    exact (rests.rel_head? first).lt_stack (Ne.symm plain.1)

private theorem lt_seven_of_mem_tail {tokens : List Token} (rests : tokens.IsChain Rests) :
    ∀ token ∈ tokens.tail, token.priority.stack < 7 := by
  induction tokens with
  | nil => exact List.forall_mem_nil _
  | cons top below ih =>
    cases below with
    | nil => exact List.forall_mem_nil _
    | cons next below =>
      exact List.forall_mem_cons.mpr ⟨(List.isChain_cons_cons.mp rests).1.lt_seven, ih rests.tail⟩

/-- No more than six operators, and an operand or a right paren on top of them, wait above a left paren. -/
private theorem length_le_of_isChain {top : Token} {below : List Token} (rests : (top :: below).IsChain Rests)
    (listed : .endOfList ∉ top :: below) :
    ((top :: below).length : Int) ≤ 7 * (top :: below).count .leftParen + top.priority.stack := by
  induction below generalizing top with
  | nil =>
    by_cases opening : top = .leftParen
    · subst opening
      decide
    · have := stack_pos (List.ne_of_not_mem_cons listed).symm opening
      simp [opening]
      omega
  | cons next below ih =>
    simp only [List.mem_cons, not_or] at listed
    have under := ih rests.tail (by simpa using listed.2)
    have least := (List.isChain_cons_cons.mp rests).1
    by_cases opening : top = .leftParen
    · subst opening
      have := least.lt_seven
      rw [List.length_cons, List.count_cons_self]
      simp only [priority]
      omega
    · have := least.lt_stack opening
      rw [List.length_cons, List.count_cons_of_ne opening]
      omega

end Token

namespace Waiting

private theorem leftParens_evict {incoming : Token} (listed : incoming ≠ .endOfList) {stack : List (Item O)}
    (waits : ∀ item ∈ stack, item.1 ≠ .endOfList) :
    (evict incoming stack).2.filter (·.1 = .leftParen) =
      if incoming = .rightParen then (stack.filter (·.1 = .leftParen)).tail
      else stack.filter (·.1 = .leftParen) := by
  induction stack with
  | nil => simp [evict]
  | cons top below ih =>
    obtain ⟨here, others⟩ := List.forall_mem_cons.mp waits
    unfold evict
    split
    next held =>
      have opening : incoming ≠ .rightParen := by
        rintro rfl
        exact absurd (Token.priority_nonneg here).2 (Int.not_le.mpr held)
      rw [if_neg opening]
    next tight =>
      split
      next closes =>
        simp [closes]
      next passes =>
        have plain : top.1 ≠ .leftParen := by
          intro same
          by_cases closing : incoming = .rightParen
          · exact passes ⟨closing, same⟩
          · rw [same] at tight
            exact tight (Token.leftParen_below listed closing)
        rw [ih others, List.filter_cons_of_neg (by simpa using plain)]

theorem isChain_read (incoming : Item O) {stack : List (Item O)}
    (rests : stack.IsChain fun upper lower => upper.1.Rests lower.1) :
    (incoming :: (evict incoming.1 stack).2).IsChain fun upper lower => upper.1.Rests lower.1 := by
  induction stack with
  | nil => exact .singleton _
  | cons top below ih =>
    unfold evict
    split
    next held => exact .cons_cons (Int.lt_of_lt_of_le held (Int.le_max_left ..)) rests
    split
    next closes =>
      refine rests.tail.cons fun lower head => ?_
      have under := rests.rel_head? head
      rw [Token.Rests, closes.2] at under
      rwa [Token.Rests, closes.1]
    next => exact ih rests.tail

variable {rename : Token → Token} {among : Token → Prop} (relabel : Item O → Item P)

theorem scan_map (renames : Token.Renames rename among) (named : ∀ item, (relabel item).1 = rename item.1)
    {items stack : List (Item O)} (reads : ∀ item ∈ items, among item.1) (waits : ∀ item ∈ stack, among item.1) :
    (scan (items.map relabel) (stack.map relabel)).2 = (scan items stack).2.map relabel := by
  induction items generalizing stack with
  | nil => rfl
  | cons item items ih =>
    obtain ⟨here, others⟩ := List.forall_mem_cons.mp reads
    have left : ∀ other ∈ item :: (evict item.1 stack).2, among other.1 :=
      List.forall_mem_cons.mpr ⟨here, fun other member => waits other (mem_of_mem_evict member)⟩
    rw [List.map_cons, scan, scan, named, evict_map relabel renames named here waits]
    exact ih others left

/-- What waits after these tokens have been read, numbered by where it stands among them. -/
def standing (tokens : List Token) : List (Item Nat) :=
  (scan (Item.numbered tokens) []).2

private theorem standing_snoc (tokens : List Token) (token : Token) :
    standing (tokens ++ [token]) = (token, some tokens.length) :: (evict token (standing tokens)).2 := by
  have last : Item.numbered (tokens ++ [token]) = Item.numbered tokens ++ [(token, some tokens.length)] := by
    simp [Item.numbered, List.zipIdx_append]
  rw [standing, last, scan_append]
  rfl

def places (tokens : List Token) : List Nat :=
  (standing tokens).filterMap Prod.snd

private theorem exists_places_snoc (tokens : List Token) (token : Token) :
    ∃ released kept, places tokens = released ++ kept ∧ places (tokens ++ [token]) = tokens.length :: kept := by
  refine ⟨(evict token (standing tokens)).1.filterMap Prod.snd, (evict token (standing tokens)).2.filterMap Prod.snd,
    ?_, ?_⟩
  · rw [← List.filterMap_append, evict_split, places]
  · rw [places, standing_snoc]
    rfl

/-- The payloads of a strip have no part in what waits. -/
theorem scan_take_eq_standing (items : List (Item O)) (count : Nat) :
    (scan (items.take count) []).2 =
      (standing ((items.map Prod.fst).take count)).map (Item.payloadOf items) := by
  have numbered : (Item.numbered ((items.map Prod.fst).take count)).map (Item.payloadOf items) =
      items.take count := by
    apply List.ext_getElem?
    intro position
    by_cases within : position < count
    · cases found : items[position]? <;> simp [Item.numbered, Item.payloadOf, within, found]
    · rw [List.getElem?_eq_none, List.getElem?_eq_none] <;> simp [Item.numbered] <;> omega
  rw [← numbered]
  exact scan_map (Item.payloadOf items) (Token.renames_id fun _ => True) (fun _ => rfl) (fun _ _ => trivial)
    (List.forall_mem_nil _)

private theorem mem_standing {tokens : List Token} {item : Item Nat} (member : item ∈ standing tokens) :
    ∃ position, tokens[position]? = some item.1 ∧ item.2 = some position :=
  Item.mem_numbered (mem_of_mem_scan member)

private theorem ne_endOfList_of_mem_standing {tokens : List Token} (listed : .endOfList ∉ tokens) {item : Item Nat}
    (member : item ∈ standing tokens) : item.1 ≠ .endOfList := by
  intro same
  obtain ⟨position, found, _⟩ := mem_standing member
  exact listed (same ▸ List.mem_of_getElem? found)

private theorem endOfList_not_mem_standing {tokens : List Token} (listed : .endOfList ∉ tokens) :
    .endOfList ∉ (standing tokens).map Prod.fst := by
  intro member
  obtain ⟨item, waits, same⟩ := List.mem_map.mp member
  exact ne_endOfList_of_mem_standing listed waits same

theorem isChain_standing (tokens : List Token) :
    (standing tokens).IsChain fun upper lower => upper.1.Rests lower.1 := by
  induction tokens using List.reverseRecOn with
  | nil => exact .nil
  | append_singleton tokens token ih =>
    rw [standing_snoc]
    exact isChain_read (token, some tokens.length) ih

theorem leftParens_standing {tokens : List Token} (listed : .endOfList ∉ tokens) :
    ((standing tokens).filter (·.1 = .leftParen)).map Prod.snd = (Token.unclosed tokens).reverse.map some := by
  induction tokens using List.reverseRecOn with
  | nil => rfl
  | append_singleton tokens token ih =>
    rw [List.mem_append, List.mem_singleton, not_or] at listed
    have kept := leftParens_evict (Ne.symm listed.2) fun _ => ne_endOfList_of_mem_standing listed.1
    rw [standing_snoc, List.filter_cons, kept]
    by_cases closing : token = .rightParen
    · subst closing
      have closed := (Token.counted_unclosed tokens).snoc_rightParen.1
      simp [closed, ih listed.1]
    · rw [if_neg closing, Token.unclosed_snoc_of_ne tokens closing]
      by_cases opening : token = .leftParen
      · simp [opening, ih listed.1]
      · simp [opening, ih listed.1]

variable {items : List (Item O)} {stack : List (Item Nat)}

def Numbered (items : List (Item O)) (stack : List (Item Nat)) : Prop :=
  ∀ item ∈ stack, ∃ position payload, items[position]? = some (item.1, payload) ∧ item.2 = some position

private theorem numbered_standing (items : List (Item O)) (count : Nat) :
    Numbered items (standing ((items.map Prod.fst).take count)) := by
  intro item member
  obtain ⟨position, found, place⟩ := mem_standing member
  rw [List.getElem?_take, Option.ite_none_right_eq_some, List.getElem?_map, Option.map_eq_some_iff] at found
  obtain ⟨_, ⟨token, payload⟩, found, same⟩ := found
  subst same
  exact ⟨position, payload, found, place⟩

theorem Numbered.tokens (numbered : Numbered items stack) :
    (stack.map Prod.fst).map some = (stack.filterMap Prod.snd).map fun place => items[place]?.map Prod.fst := by
  induction stack with
  | nil => rfl
  | cons item stack ih =>
    obtain ⟨⟨position, payload, found, place⟩, others⟩ := List.forall_mem_cons.mp numbered
    simp [place, found, ih others]

theorem Numbered.payloads (numbered : Numbered items stack) (valid : ∀ item ∈ items, Item.Valid item) :
    ((stack.map (Item.payloadOf items)).filterMap Prod.snd).map some =
      ((stack.filterMap Prod.snd).filter fun place => items[place]?.any fun item => item.1.isOperator).map
        fun place => items[place]?.bind Prod.snd := by
  induction stack with
  | nil => rfl
  | cons item stack ih =>
    obtain ⟨⟨position, payload, found, place⟩, others⟩ := List.forall_mem_cons.mp numbered
    have paired := (valid _ (List.mem_of_getElem? found)).paired
    have rest := ih others
    cases payload with
    | none => simpa [Item.payloadOf, place, found, ← paired] using rest
    | some payload => simpa [Item.payloadOf, place, found, ← paired] using rest

theorem Numbered.leftParens (numbered : Numbered items stack) :
    ((stack.filterMap Prod.snd).filter fun place => items[place]?.map Prod.fst = some .leftParen).map some =
      (stack.filter (·.1 = .leftParen)).map Prod.snd := by
  induction stack with
  | nil => rfl
  | cons item stack ih =>
    obtain ⟨⟨position, payload, found, place⟩, others⟩ := List.forall_mem_cons.mp numbered
    rw [List.filterMap_cons_some place, List.filter_cons, List.filter_cons, found]
    by_cases opening : item.1 = .leftParen
    · simp [opening, place, ih others]
    · simp [opening, ih others]

end Waiting

/-- How the stacks stand when `count` items of a strip have been read. `places` are the positions on the strip of what
waits above the end of the list, with the top first. -/
structure Held.Stands (items : List (Item O)) (count : Nat) (places : List Nat) (held : Held O) : Prop where
  tokens : held.tokens.map some = places.map (fun place => items[place]?.map Prod.fst) ++ [some .endOfList]
  payloads : held.payloads.map some =
    (places.filter fun place => items[place]?.any fun item => item.1.isOperator).map
      fun place => items[place]?.bind Prod.snd
  bottom : .endOfList ∉ held.tokens.dropLast
  top : ∀ token ∈ held.tokens.tail, token ≠ .operand ∧ token ≠ .rightParen
  opened : places.filter (fun place => items[place]?.map Prod.fst = some .leftParen) =
    (Token.unclosed ((items.take count).map Prod.fst)).reverse
  rises : ∀ segment lower, segment ++ [lower] <:+: held.tokens → .leftParen ∉ segment →
    ((segment ++ [lower]).map fun token => token.priority.stack).Pairwise (· > ·)

namespace Waiting

private theorem count_leftParen_standing {tokens : List Token} (listed : .endOfList ∉ tokens) :
    ((standing tokens).map Prod.fst).count .leftParen = (Token.unclosed tokens).length := by
  have same := congrArg List.length (leftParens_standing listed)
  rw [List.length_map, List.length_map, List.length_reverse] at same
  rw [← same, List.count_eq_countP, List.countP_map, List.countP_eq_length_filter]
  rfl

theorem length_standing_le {tokens : List Token} (listed : .endOfList ∉ tokens) :
    (standing tokens).length ≤ 7 + 7 * (Token.unclosed tokens).length := by
  have rests := List.isChain_map_of_isChain Prod.fst (fun _ _ => id) (isChain_standing tokens)
  have plain := endOfList_not_mem_standing listed
  rw [← count_leftParen_standing listed, ← List.length_map Prod.fst]
  cases waits : (standing tokens).map Prod.fst with
  | nil => exact Nat.zero_le _
  | cons top below =>
    rw [waits] at rests plain
    have bound := Token.length_le_of_isChain rests plain
    have highest := top.priority_le.2
    omega

end Waiting

namespace Held

variable {items : List (Item O)}

private theorem listed_take (valid : ∀ item ∈ items, Item.Valid item) (count : Nat) :
    .endOfList ∉ (items.map Prod.fst).take count := by
  intro member
  obtain ⟨item, among, same⟩ := List.mem_map.mp (List.mem_of_mem_take member)
  exact (valid item among).listed same

theorem scan_take_eq (valid : ∀ item ∈ items, Item.Valid item) (count : Nat) :
    (scan (items.take count) .start).2 =
      ofItems ((Waiting.standing ((items.map Prod.fst).take count)).map (Item.payloadOf items) ++
        [(.endOfList, none)]) := by
  rw [scan_start fun item member => valid item (List.mem_of_mem_take member), Waiting.scan_take_eq_standing]

theorem tokens_scan_take (valid : ∀ item ∈ items, Item.Valid item) (count : Nat) :
    (scan (items.take count) .start).2.tokens =
      (Waiting.standing ((items.map Prod.fst).take count)).map Prod.fst ++ [.endOfList] := by
  rw [scan_take_eq valid]
  simp [ofItems, Function.comp_def, Item.payloadOf]

theorem payloads_scan_take (valid : ∀ item ∈ items, Item.Valid item) (count : Nat) :
    (scan (items.take count) .start).2.payloads =
      ((Waiting.standing ((items.map Prod.fst).take count)).map (Item.payloadOf items)).filterMap Prod.snd := by
  rw [scan_take_eq valid]
  simp [ofItems]

theorem isChain_scan_take (valid : ∀ item ∈ items, Item.Valid item) (count : Nat) :
    (scan (items.take count) .start).2.tokens.IsChain Token.Rests := by
  rw [tokens_scan_take valid, List.isChain_append]
  refine ⟨List.isChain_map_of_isChain Prod.fst (fun _ _ => id) (Waiting.isChain_standing _), .singleton _, ?_⟩
  rintro token last _ ⟨⟩
  obtain ⟨item, waits, rfl⟩ := List.mem_map.mp (List.mem_of_getLast? last)
  have plain := Waiting.ne_endOfList_of_mem_standing (listed_take valid count) waits
  exact Int.lt_of_lt_of_le (by decide) (Int.le_trans (Token.priority_nonneg plain).1 (Int.le_max_left ..))

theorem stands_scan (valid : ∀ item ∈ items, Item.Valid item) (count : Nat) :
    Stands items count (Waiting.places ((items.map Prod.fst).take count)) (scan (items.take count) .start).2 := by
  have listed := listed_take valid count
  have numbered := Waiting.numbered_standing items count
  have tokens := tokens_scan_take valid count
  have rests := isChain_scan_take valid count
  refine ⟨?_, ?_, ?_, ?_, ?_, ?_⟩
  · rw [tokens, List.map_append, numbered.tokens]
    rfl
  · rw [payloads_scan_take valid, numbered.payloads valid]
    rfl
  · rw [tokens, List.dropLast_concat]
    exact Waiting.endOfList_not_mem_standing listed
  · intro token member
    have low := Token.lt_seven_of_mem_tail rests token member
    constructor <;> rintro rfl <;> exact absurd low (by decide)
  · apply (List.map_injective_iff (f := some)).mpr fun _ _ => Option.some.inj
    rw [Waiting.places, numbered.leftParens, Waiting.leftParens_standing listed, List.map_take]
  · intro segment lower within plain
    obtain ⟨above, below, same⟩ := within
    rw [← same] at rests
    exact Token.pairwise_of_isChain rests.left_of_append.right_of_append plain

theorem length_scan_take_le (valid : ∀ item ∈ items, Item.Valid item) (count : Nat) :
    (scan (items.take count) .start).2.tokens.length ≤
      8 + 7 * (Token.unclosed ((items.map Prod.fst).take count)).length := by
  have bound := Waiting.length_standing_le (listed_take valid count)
  rw [tokens_scan_take valid, List.length_append, List.length_map, List.length_singleton]
  omega

/-- Whenever a strip ends, nothing is left waiting. -/
theorem drain_scan_take (valid : ∀ item ∈ items, Item.Valid item) (count : Nat) :
    (drain (scan (items.take count) .start).2.tokens (scan (items.take count) .start).2.payloads).2 = ⟨[], []⟩ := by
  have within : ∀ item ∈ items.take count, Item.Valid item :=
    fun item member => valid item (List.mem_of_mem_take member)
  have waiting : ∀ item ∈ (Waiting.scan (items.take count) []).2, Item.Valid item :=
    fun item member => within item (Waiting.mem_of_mem_scan member)
  rw [scan_start within, drain_ofItems (fun item member => (waiting item member).paired)
    fun item member => (waiting item member).listed]

end Held

/-- What is read waits on top of what it leaves, and where everything waiting was read determines both stacks. -/
theorem exists_places {tokens : List Token} {payloads : List O} (listed : .endOfList ∉ tokens)
    (counted : tokens.countP Token.isOperator = payloads.length) :
    ∃ items, attach 0 tokens payloads = .ok items ∧ ∃ places : Nat → List Nat,
      places 0 = [] ∧
      (∀ count < tokens.length, ∃ released kept,
        places count = released ++ kept ∧ places (count + 1) = count :: kept) ∧
      ∀ count,
        let held := (Held.scan (items.take count) .start).2
        Held.Stands items count (places count) held ∧
          held.tokens.length ≤ 8 + 7 * (Token.unclosed (tokens.take count)).length ∧
          (Held.drain held.tokens held.payloads).2 = ⟨[], []⟩ := by
  have valid := Item.valid_join listed counted
  have named := Item.map_fst_join tokens payloads
  refine ⟨_, Item.attach_eq_join listed counted 0, fun count => Waiting.places (tokens.take count), rfl,
    fun count within => ?_, fun count => ⟨?_, ?_, Held.drain_scan_take valid count⟩⟩
  · have next := Waiting.exists_places_snoc (tokens.take count) tokens[count]
    rwa [List.take_concat_get', List.length_take, Nat.min_eq_left (Nat.le_of_lt within)] at next
  · have stands := Held.stands_scan valid count
    rwa [named] at stands
  · have bound := Held.length_scan_take_le valid count
    rwa [named] at bound

/-- A right paren that closes nothing, a group that is closed again and one that stays open and is full: no stack
with one open group is higher. -/
theorem exists_places_of_full_group :
    let operators : List Token :=
      [.binary .first, .binary .second, .binary .third, .unary .first, .unary .second, .unary .third]
    let group : List Token := [.leftParen, .leftParen, .operand, .rightParen] ++ operators ++ [.operand]
    let tokens := .rightParen :: operators ++ group
    let payloads := ["+", "*", "^", "!", "~", "-", "add", "times", "power", "not", "flip", "minus"]
    .endOfList ∉ tokens ∧ tokens.countP Token.isOperator = payloads.length ∧ Token.unclosed tokens = [7] ∧
      ∃ items, attach 0 tokens payloads = .ok items ∧ ∃ places,
        let held := (Held.scan (items.take tokens.length) .start).2
        Held.Stands items tokens.length places held ∧
          held.tokens = .operand :: operators.reverse ++ .leftParen :: operators.reverse ++ [.endOfList] ∧
          held.payloads = ["minus", "flip", "not", "power", "times", "add", "-", "~", "!", "^", "*", "+"] ∧
          held.tokens.length = 8 + 7 * 1 := by
  intro operators group tokens payloads
  have listed : .endOfList ∉ tokens := by decide
  have counted : tokens.countP Token.isOperator = payloads.length := by decide
  obtain ⟨items, attached, places, _, _, every⟩ := exists_places listed counted
  refine ⟨listed, counted, by decide, items, attached, places tokens.length, (every tokens.length).1, ?_⟩
  obtain rfl := Except.ok.inj attached
  exact ⟨rfl, rfl, rfl⟩

end SignalStrip
