import SignalStrip.Proofs.Rounding
import SignalStrip.Signal.Source

/-! The range of white noise. A word is spread over a factor that is a little more than 2, so the largest product is
just below 2 and only rounding brings it there. No rounding takes a product past 2 or below 0, since it keeps the order
and leaves both as they are. -/

namespace SignalStrip

namespace Source

variable {A : Type} [Sample A]

def readings : Nat → Source A → List (Waveform A)
  | 0, _ => []
  | count + 1, source => source.read.1 :: readings count source.read.2

private theorem readings_noise (rate : A) (length calls : Nat) (stream : WordStream) :
    readings calls (.noise rate length stream) = (List.range calls).map fun call =>
      ⟨rate, (List.range length).map fun index =>
        noiseSample (stream.word (stream.taken + (call * length + index)))⟩ := by
  induction calls generalizing stream with
  | zero => rfl
  | succ calls ih =>
    rw [readings, List.range_succ_eq_map, List.map_cons, List.map_map]
    simp [read, noiseBlock, WordStream.take, WordStream.word, ih, Nat.succ_mul, Nat.add_assoc, Nat.add_left_comm,
      Function.comp_def]

end Source

private theorem toNat_shiftRight (word : UInt64) : (word >>> 12).toNat = word.toNat / 2 ^ 12 := by
  rw [UInt64.toNat_shiftRight, Nat.shiftRight_eq_div_pow]
  rfl

private theorem shiftRight_lt (word : UInt64) : (word >>> 12).toNat < 2 ^ 52 := by
  have := word.toNat_lt
  rw [toNat_shiftRight]
  omega

/-- The factor is the next number above 2 that has 53 significant bits. -/
theorem value_noiseSample (word : UInt64) :
    (noiseSample word : Rounded).value =
      rounded (rounded ((word >>> 12).toNat / 2 ^ 52 * (2 + 2 ^ (-51 : ℤ))) - 1) := by
  have small : word.toNat / Nat.pow 2 12 ≤ 2 ^ 53 := by
    have := shiftRight_lt word
    rw [toNat_shiftRight] at this
    exact (this.trans (by norm_num)).le
  have factor : ((Nat.pow 2 52 + 1 : ℕ) : ℚ) / 2 ^ 51 = 2 + 2 ^ (-51 : ℤ) := by
    norm_num
  rw [noiseSample, Rounded.value_add, Rounded.value_mul, Rounded.value_dyadic small,
    Rounded.value_dyadic (by norm_num), Rounded.value_neg_one, factor, toNat_shiftRight, sub_eq_add_neg]
  rfl

theorem noiseSample_le_noiseSample {first second : UInt64} (ordered : first >>> 12 ≤ second >>> 12) :
    (noiseSample first : Rounded).value ≤ (noiseSample second : Rounded).value := by
  have top : ((first >>> 12).toNat : ℚ) ≤ (second >>> 12).toNat := by
    exact_mod_cast ordered
  rw [value_noiseSample, value_noiseSample]
  apply rounded_le_rounded
  apply sub_le_sub_right
  apply rounded_le_rounded
  gcongr

theorem noiseSample_between (word : UInt64) :
    -1 ≤ (noiseSample word : Rounded).value ∧ (noiseSample word : Rounded).value ≤ 1 := by
  have top : ((word >>> 12).toNat : ℚ) ≤ 2 ^ 52 - 1 := by
    have := shiftRight_lt word
    rw [le_sub_iff_add_le]
    exact_mod_cast this
  have above : ((0 : ℤ) : ℚ) ≤ rounded ((word >>> 12).toNat / 2 ^ 52 * (2 + 2 ^ (-51 : ℤ))) := by
    apply le_rounded (by norm_num)
    rw [Int.cast_zero]
    positivity
  have below : rounded ((word >>> 12).toNat / 2 ^ 52 * (2 + 2 ^ (-51 : ℤ))) ≤ (2 : ℤ) := by
    apply rounded_le (by norm_num)
    calc ((word >>> 12).toNat : ℚ) / 2 ^ 52 * (2 + 2 ^ (-51 : ℤ))
      _ ≤ (2 ^ 52 - 1) / 2 ^ 52 * (2 + 2 ^ (-51 : ℤ)) := by gcongr
      _ ≤ (2 : ℤ) := by norm_num
  push_cast at above below
  rw [value_noiseSample]
  constructor
  · exact_mod_cast le_rounded (by norm_num : |(-1 : ℤ)| ≤ 2 ^ 53) (by push_cast; linarith)
  · exact_mod_cast rounded_le (by norm_num : |(1 : ℤ)| ≤ 2 ^ 53) (by push_cast; linarith)

/-- In any arithmetic and at any rate, every block has one sample for each of the next words, which come round again
after the last. With 53 significant bits a sample is between -1 and 1 whatever its word is, and a word that is larger in
its upper bits does not give a smaller sample. -/
theorem noise_within_unit {stream : WordStream} (nonempty : 0 < stream.words.size) (length calls : Nat) :
    (∀ {A : Type} [Sample A] (rate : A),
      let blocks := (Source.noise rate length stream).readings calls
      blocks.length = calls ∧ ∀ call < calls, ∃ block, blocks[call]? = some block ∧ block.rate = rate ∧
        block.samples.map some = (List.range length).map fun index =>
          stream.words[(stream.taken + (call * length + index)) % stream.words.size]?.map noiseSample) ∧
    (∀ rate : Rounded, ∀ block ∈ (Source.noise rate length stream).readings calls, ∀ sample ∈ block.samples,
      -1 ≤ sample.value ∧ sample.value ≤ 1) ∧
    (∀ word : UInt64, (noiseSample word : Rounded).value =
      rounded (rounded ((word >>> 12).toNat / 2 ^ 52 * (2 + 2 ^ (-51 : ℤ))) - 1)) ∧
    ∀ first second : UInt64, first >>> 12 ≤ second >>> 12 →
      (noiseSample first : Rounded).value ≤ (noiseSample second : Rounded).value := by
  refine ⟨fun {A} _ rate => ?_, fun rate block member sample among => ?_, value_noiseSample,
    fun first second => noiseSample_le_noiseSample⟩
  · have every := Source.readings_noise rate length calls stream
    refine ⟨by simp [every], fun call within => ⟨⟨rate, (List.range length).map fun index =>
      noiseSample (stream.word (stream.taken + (call * length + index)))⟩, ?_, rfl, ?_⟩⟩
    · simp [every, within]
    · simp [WordStream.word, Nat.mod_lt _ nonempty]
  · rw [Source.readings_noise] at member
    obtain ⟨call, _, rfl⟩ := List.mem_map.mp member
    obtain ⟨index, _, rfl⟩ := List.mem_map.mp among
    exact noiseSample_between _

theorem noise_within_unit_of_three_words :
    let stream : WordStream := ⟨#[0xffffffffffffffff, 0, 0x8000000000000000], 0⟩
    let blocks := (Source.noise (1 : Rounded) 2 stream).readings 2
    0 < stream.words.size ∧
    (∀ block ∈ blocks, ∀ sample ∈ block.samples, -1 ≤ sample.value ∧ sample.value ≤ 1) ∧
    blocks.map (fun block => block.samples.map Rounded.value) = [[1, -1], [1 / 2 ^ 52, 1]] := by
  intro stream blocks
  have nonempty : 0 < stream.words.size := by decide
  obtain ⟨_, between, _⟩ := noise_within_unit nonempty 2 2
  exact ⟨nonempty, between 1, by decide +kernel⟩

end SignalStrip
