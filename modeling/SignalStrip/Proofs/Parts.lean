import Mathlib.Data.Set.List
import SignalStrip.Proofs.Assembly

/-! Parts that belong together. Tokens and payloads are refused for the same reasons when a strip is put together and
when they are compiled, and what is not refused could have been pressed key by key. Compilation reads from the left,
so it names the first thing that is wrong. -/

namespace SignalStrip

variable {O : Type}

namespace Token

/-- The token at `position` is reserved, or operators before it take all of `supplied` payloads and it is one more. -/
def Offends (tokens : List Token) (supplied position : Nat) : Prop :=
  ∃ token ∈ tokens[position]?,
    token = .endOfList ∨ token.isOperator = true ∧ supplied ≤ (tokens.take position).countP isOperator

def Fine (tokens : List Token) (supplied position : Nat) : Prop :=
  ∀ earlier < position, ¬ Offends tokens supplied earlier

private theorem Fine.listed {tokens : List Token} {supplied position : Nat} (fine : Fine tokens supplied position) :
    .endOfList ∉ tokens.take position := by
  intro member
  obtain ⟨place, within, found⟩ := List.mem_iff_getElem.mp member
  rw [List.getElem_take] at found
  rw [List.length_take] at within
  exact fine place (Nat.lt_of_lt_of_le within (Nat.min_le_left ..)) ⟨_, List.getElem?_eq_getElem _, .inl found⟩

private theorem Fine.count_le {tokens : List Token} {supplied position : Nat} (fine : Fine tokens supplied position) :
    (tokens.take position).countP isOperator ≤ supplied :=
  countP_take_le fun earlier less _ found operates =>
    Nat.lt_of_not_le fun used => fine earlier less ⟨_, found, .inr ⟨operates, used⟩⟩

private theorem fine_or_offends (tokens : List Token) (supplied count : Nat) :
    Fine tokens supplied count ∨ ∃ position, Offends tokens supplied position ∧ Fine tokens supplied position := by
  induction count with
  | zero => exact .inl nofun
  | succ count ih =>
    obtain fine | wrong := ih
    · by_cases here : Offends tokens supplied count
      · exact .inr ⟨count, here, fine⟩
      · refine .inl fun earlier less => ?_
        obtain before | rfl := Nat.lt_succ_iff_lt_or_eq.mp less
        · exact fine earlier before
        · exact here
    · exact .inr wrong

theorem Fine.attach_eq {tokens : List Token} {payloads : List O} {position : Nat}
    (fine : Fine tokens payloads.length position) (within : position ≤ tokens.length) :
    ∃ items, attach 0 tokens payloads =
      (attach position (tokens.drop position)
        (payloads.drop ((tokens.take position).countP isOperator))).map (items ++ ·) := by
  have counted : (tokens.take position).countP isOperator =
      (payloads.take ((tokens.take position).countP isOperator)).length := by
    rw [List.length_take, Nat.min_eq_left fine.count_le]
  have attached := Item.attach_append fine.listed counted 0 (tokens.drop position)
    (payloads.drop ((tokens.take position).countP isOperator))
  rw [List.take_append_drop, List.take_append_drop, List.length_take, Nat.min_eq_left within, Nat.zero_add] at attached
  exact ⟨_, attached⟩

end Token

/-- What is noticed while tokens are compiled with this many payloads, and how it is put. The first token that is wrong
counts, and payloads that are left over only if there is none. -/
inductive PartsFault.Noticed (tokens : List Token) (supplied : Nat) : PartsFault → String → Prop where
  | endOfList {position : Nat} (found : tokens[position]? = some .endOfList)
      (first : Token.Fine tokens supplied position) :
      Noticed tokens supplied (.endOfListAt (position + 1))
        s!"end-of-list token at infix position {position + 1} is reserved for the compiler"
  | payload {position : Nat} {token : Token} (found : tokens[position]? = some token)
      (operates : token.isOperator = true) (used : supplied ≤ (tokens.take position).countP Token.isOperator)
      (first : Token.Fine tokens supplied position) :
      Noticed tokens supplied (.missingPayload (position + 1) token)
        s!"no operator payload for token {position + 1} ({token.text})"
  | unused {unused : Nat} (fine : Token.Fine tokens supplied tokens.length) (positive : 0 < unused)
      (surplus : tokens.countP Token.isOperator + unused = supplied) :
      Noticed tokens supplied (.unusedPayloads unused tokens.length)
        s!"{unused} unused operator payloads after {tokens.length} infix tokens"

namespace PartsFault.Noticed

variable {tokens : List Token} {payloads : List O} {fault : PartsFault} {text : String}

private theorem message {supplied : Nat} (noticed : Noticed tokens supplied fault text) : text = fault.message := by
  cases noticed <;> rfl

private theorem compile (noticed : Noticed tokens payloads.length fault text) :
    SignalStrip.compile tokens payloads = .error fault := by
  have stops : attach 0 tokens payloads = .error fault := by
    cases noticed with
    | @endOfList position found first =>
      obtain ⟨within, here⟩ := List.getElem?_eq_some_iff.mp found
      obtain ⟨items, attached⟩ := first.attach_eq (Nat.le_of_lt within)
      rw [attached, List.drop_eq_getElem_cons within, here]
      simp [attach, Except.map]
    | @payload position token found operates used first =>
      obtain ⟨within, here⟩ := List.getElem?_eq_some_iff.mp found
      obtain ⟨items, attached⟩ := first.attach_eq (Nat.le_of_lt within)
      have plain : token ≠ .endOfList := by
        intro same
        rw [same] at operates
        cases operates
      rw [attached, List.drop_eq_getElem_cons within, here, List.drop_of_length_le used]
      simp [attach, plain, operates, Except.map]
    | @unused unused fine positive surplus =>
      obtain ⟨items, attached⟩ := fine.attach_eq (Nat.le_refl _)
      have left : (payloads.drop (tokens.countP Token.isOperator)).length = unused := by
        rw [List.length_drop, ← surplus, Nat.add_sub_cancel_left]
      have present : (payloads.drop (tokens.countP Token.isOperator)).isEmpty = false := by
        rw [List.isEmpty_eq_false_iff, ← List.length_pos_iff, left]
        exact positive
      rw [List.take_length, List.drop_length] at attached
      rw [attached, attach, present, left]
      rfl
  rw [SignalStrip.compile, stops]
  rfl

end PartsFault.Noticed

namespace Key

private theorem item_injective : Function.Injective (item : Key O → Item O) := by
  intro first second same
  cases first <;> cases second <;> cases same <;> rfl

private theorem exists_of_valid {item : Item O} (valid : Item.Valid item) : ∃ key : Key O, key.item = item := by
  obtain ⟨token, payload⟩ := item
  obtain ⟨paired, listed⟩ := valid
  cases token with
  | endOfList => exact (listed rfl).elim
  | operand => exact ⟨.operand, by cases payload <;> cases paired; rfl⟩
  | leftParen => exact ⟨.leftParen, by cases payload <;> cases paired; rfl⟩
  | rightParen => exact ⟨.rightParen, by cases payload <;> cases paired; rfl⟩
  | binary tier =>
    obtain ⟨operator, rfl⟩ := Option.isSome_iff_exists.mp paired
    exact ⟨.binary tier operator, rfl⟩
  | unary tier =>
    obtain ⟨operator, rfl⟩ := Option.isSome_iff_exists.mp paired
    exact ⟨.unary tier operator, rfl⟩

end Key

namespace Strip

/-- What a strip keeps to, however it was made. -/
structure Sound (strip : Strip O) : Prop where
  listed : .endOfList ∉ strip.tokens
  counted : strip.tokens.countP Token.isOperator = strip.payloads.length

private theorem sound_empty : (empty : Strip O).Sound :=
  ⟨nofun, rfl⟩

theorem Sound.press {strip : Strip O} (sound : strip.Sound) (key : Key O) : (strip.press key).Sound := by
  obtain ⟨listed, counted⟩ := sound
  refine ⟨?_, ?_⟩
  · rw [Strip.press, List.mem_append, not_or]
    exact ⟨listed, by cases key <;> simp [Key.token]⟩
  · rw [Strip.press, List.countP_append, List.length_append, counted]
    cases key <;> rfl

private theorem Sound.foldl_press {strip : Strip O} (sound : strip.Sound) (keys : List (Key O)) :
    (keys.foldl Strip.press strip).Sound := by
  induction keys generalizing strip with
  | nil => exact sound
  | cons key keys ih => exact ih (sound.press key)

theorem ofParts_eq_ok {tokens : List Token} {payloads : List O} {strip : Strip O} :
    ofParts tokens payloads = .ok strip ↔ strip = ⟨tokens, payloads⟩ ∧ strip.Sound := by
  simp only [ofParts]
  constructor
  · intro accepted
    split at accepted
    · cases accepted
    next listed =>
      split at accepted
      next counted =>
        cases accepted
        exact ⟨rfl, listed, counted⟩
      next => cases accepted
  · intro sound
    obtain ⟨rfl, listed, counted⟩ := sound
    rw [if_neg listed, if_pos counted]

variable {strip : Strip O}

theorem Sound.ofParts (sound : strip.Sound) : Strip.ofParts strip.tokens strip.payloads = .ok strip :=
  ofParts_eq_ok.mpr ⟨rfl, sound⟩

theorem Sound.exists_program (sound : strip.Sound) : ∃ program, strip.compile = .ok program :=
  ⟨_, compile_eq_emitted sound.listed sound.counted⟩

private theorem ofKeys_parts (keys : List (Key O)) :
    ofKeys keys = ⟨keys.map Key.token, keys.filterMap Key.payload?⟩ := by
  rw [ofKeys, foldl_press]
  rfl

theorem ofKeys_injective : Function.Injective (ofKeys : List (Key O) → Strip O) := by
  have attached (keys : List (Key O)) :
      attach 0 (ofKeys keys).tokens (ofKeys keys).payloads = .ok (keys.map Key.item) := by
    rw [ofKeys_eq]
    exact attach_of_valid (Key.valid_items keys) 0
  intro first second same
  have items := (attached first).symm.trans (same ▸ attached second)
  exact List.map_injective_iff.mpr Key.item_injective (Except.ok.inj items)

/-- There is one way to press a sound strip. -/
theorem Sound.exists_keys (sound : strip.Sound) :
    ∃ keys : List (Key O), ∀ others : List (Key O), ofKeys others = strip ↔ others = keys := by
  have attached := Item.attach_eq_join sound.listed sound.counted 0
  obtain ⟨keys, pressed⟩ : ∃ keys : List (Key O), keys.map Key.item = Item.join strip.tokens strip.payloads := by
    rw [← Set.mem_range, Set.range_list_map]
    exact fun item member => Key.exists_of_valid (valid_of_attach attached item member)
  have made : ofKeys keys = strip := by
    rw [ofKeys_eq, pressed, (parts_of_attach attached).1, (parts_of_attach attached).2]
  refine ⟨keys, fun others => ⟨fun same => ofKeys_injective (same.trans made.symm), fun same => ?_⟩⟩
  rw [same, made]

end Strip

private theorem Strip.exists_noticed {tokens : List Token} {payloads : List O}
    (wrong : ¬ (Strip.mk tokens payloads).Sound) :
    ∃ fault text, PartsFault.Noticed tokens payloads.length fault text := by
  obtain fine | ⟨position, ⟨token, found, reason⟩, first⟩ :=
    Token.fine_or_offends tokens payloads.length tokens.length
  · have listed := fine.listed
    have bound := fine.count_le
    rw [List.take_length] at listed bound
    have surplus : tokens.countP Token.isOperator < payloads.length :=
      Nat.lt_of_le_of_ne bound fun counted => wrong ⟨listed, counted⟩
    exact ⟨_, _, .unused fine (Nat.sub_pos_of_lt surplus) (Nat.add_sub_cancel' bound)⟩
  · obtain rfl | ⟨operates, used⟩ := reason
    · exact ⟨_, _, .endOfList found first⟩
    · exact ⟨_, _, .payload found operates used first⟩

theorem compile_eq_error {tokens : List Token} {payloads : List O} {fault : PartsFault} :
    compile tokens payloads = .error fault ↔
      PartsFault.Noticed tokens payloads.length fault fault.message := by
  refine ⟨fun stops => ?_, fun notices => notices.compile⟩
  by_cases sound : (Strip.mk tokens payloads).Sound
  · obtain ⟨program, compiles⟩ := sound.exists_program
    cases compiles.symm.trans stops
  · obtain ⟨other, text, notices⟩ := Strip.exists_noticed sound
    cases notices.compile.symm.trans stops
    exact notices.message ▸ notices

theorem exists_compile_error_iff {tokens : List Token} {payloads : List O} :
    (∃ fault, compile tokens payloads = .error fault) ↔ ¬ (Strip.mk tokens payloads).Sound := by
  constructor
  · intro stops sound
    obtain ⟨fault, stops⟩ := stops
    obtain ⟨program, compiles⟩ := sound.exists_program
    cases compiles.symm.trans stops
  · intro wrong
    obtain ⟨fault, text, notices⟩ := Strip.exists_noticed wrong
    exact ⟨fault, notices.compile⟩

theorem Strip.exists_ofParts_error_iff {tokens : List Token} {payloads : List O} :
    (∃ fault, ofParts tokens payloads = .error fault) ↔ ¬ (Strip.mk tokens payloads).Sound := by
  constructor
  · intro refused sound
    obtain ⟨fault, refused⟩ := refused
    cases sound.ofParts.symm.trans refused
  · intro wrong
    cases outcome : ofParts tokens payloads with
    | error fault => exact ⟨fault, rfl⟩
    | ok strip =>
      obtain ⟨rfl, sound⟩ := ofParts_eq_ok.mp outcome
      exact (wrong sound).elim

theorem Strip.not_sound_iff {tokens : List Token} {payloads : List O} :
    ¬ (Strip.mk tokens payloads).Sound ↔
      .endOfList ∈ tokens ∨ tokens.countP Token.isOperator ≠ payloads.length := by
  constructor
  · intro wrong
    by_cases listed : .endOfList ∈ tokens
    · exact .inl listed
    · exact .inr fun counted => wrong ⟨listed, counted⟩
  · intro wrong sound
    exact wrong.elim sound.listed fun differs => differs sound.counted

/-- Compilation refuses what cannot be put together, and nothing else. All ways to a strip give the same program, and
every strip that is pressed, on its own or onto parts, has one. -/
theorem Strip.compile_ofParts (tokens : List Token) (payloads : List O) :
    let wrong := .endOfList ∈ tokens ∨ tokens.countP Token.isOperator ≠ payloads.length
    ((∃ fault, SignalStrip.compile tokens payloads = .error fault) ↔ wrong) ∧
    ((∃ fault, ofParts tokens payloads = .error fault) ↔ wrong) ∧
    (¬ wrong → ∃ strip program, ofParts tokens payloads = .ok strip ∧ strip.compile = .ok program ∧
      SignalStrip.compile tokens payloads = .ok program ∧
      ∃ keys : List (Key O), ofKeys keys = strip ∧ ∀ others : List (Key O),
        others.map Key.token = tokens ∧ others.filterMap Key.payload? = payloads ↔ others = keys) ∧
    (∀ fault, SignalStrip.compile tokens payloads = .error fault ↔
      PartsFault.Noticed tokens payloads.length fault fault.message) ∧
    ∀ start : Strip O, start = .empty ∨ ofParts tokens payloads = .ok start → ∀ keys : List (Key O),
      let strip := keys.foldl press start
      strip.Sound ∧ (∃ program, strip.compile = .ok program) ∧
        ofParts strip.tokens strip.payloads = .ok strip := by
  intro wrong
  refine ⟨exists_compile_error_iff.trans not_sound_iff, exists_ofParts_error_iff.trans not_sound_iff, fun right => ?_,
    fun fault => compile_eq_error, fun start made keys => ?_⟩
  · have sound : (Strip.mk tokens payloads).Sound := by
      by_contra unsound
      exact right (not_sound_iff.mp unsound)
    obtain ⟨program, compiles⟩ := sound.exists_program
    obtain ⟨keys, pressed⟩ := sound.exists_keys
    refine ⟨_, program, sound.ofParts, compiles, compiles, keys, (pressed keys).mpr rfl, fun others => ?_⟩
    rw [← pressed, ofKeys_parts, Strip.mk.injEq]
  · have sound : start.Sound := by
      obtain rfl | accepted := made
      · exact sound_empty
      · exact (ofParts_eq_ok.mp accepted).2
    have pressed := sound.foldl_press keys
    exact ⟨pressed, pressed.exists_program, pressed.ofParts⟩

end SignalStrip
