import Mathlib.Data.List.DropRight
import Mathlib.Data.List.Dedup
import SignalStrip.Proofs.TermRequests

/-! A ledger of the zero caches. At the number of each allocation it names what the array was made for, and it names
nothing twice. Every turn keeps to it, whatever the combiners and their caches are. -/

namespace SignalStrip

variable {A : Type}

/-- What an array is made for: a length and a cache, after this cache was cleared a number of times. -/
structure Origin where
  cache : Nat
  length : Nat
  clearings : Nat
  deriving DecidableEq

namespace Turn

def clears (cache : Nat) (turn : Turn A) : Bool :=
  match turn.request with
  | .clear => turn.combiner.cache == cache
  | .compile _ | .evaluate .. | .evaluateTerm .. | .materialize _ | .zeros _ | .zero => false

private theorem clears_iff {cache : Nat} {turn : Turn A} :
    turn.clears cache = true ↔ turn.request = .clear ∧ turn.combiner.cache = cache := by
  obtain ⟨combiner, request⟩ := turn
  cases request <;> simp [clears]

theorem clears_eq_false {turn : Turn A} (kept : turn.request ≠ .clear) (cache : Nat) : turn.clears cache = false :=
  eq_false_of_ne_true fun clears => kept (clears_iff.mp clears).1

def origin (past : List (Turn A)) (cache length : Nat) : Origin :=
  ⟨cache, length, past.countP (clears cache)⟩

variable {past : List (Turn A)} {turn : Turn A} {cache : Nat}

private theorem origin_snoc (kept : turn.clears cache = false) (length : Nat) :
    origin (past ++ [turn]) cache length = origin past cache length := by
  simp [origin, kept]

variable [Sample A]

/-- The length of the zeros that a turn hands out as data from this cache. -/
def served? (cache : Nat) (turn : Turn A) : Option Nat :=
  if turn.combiner.cache = cache then turn.zeros? else none

theorem served?_eq_some {length : Nat} :
    turn.served? cache = some length ↔ turn.combiner.cache = cache ∧ turn.zeros? = some length := by
  simp [served?]

theorem served?_eq_none (idle : turn.zeros? = none) (cache : Nat) : turn.served? cache = none := by
  rw [served?, idle, ite_self]

theorem request_ne_clear {length : Nat} (zeros : turn.zeros? = some length) : turn.request ≠ .clear := by
  intro clear
  cases (zeros?_of_clear clear).symm.trans zeros

/-- The lengths served from a cache since it was cleared last. -/
def recent (cache : Nat) (past : List (Turn A)) : List Nat :=
  (past.rtakeWhile fun turn => !turn.clears cache).filterMap (served? cache)

private theorem recent_snoc (past : List (Turn A)) (kept : turn.clears cache = false) :
    recent cache (past ++ [turn]) = recent cache past ++ (turn.served? cache).toList := by
  rw [recent, List.rtakeWhile_concat_pos _ _ _ (by simp [kept]), List.filterMap_append]
  cases served : turn.served? cache <;> simp [recent, served]

private theorem recent_snoc_of_clears (past : List (Turn A)) (clears : turn.clears cache) :
    recent cache (past ++ [turn]) = [] := by
  rw [recent, List.rtakeWhile_concat_neg _ _ _ (by simp [clears])]
  rfl

end Turn

/-- A cache holds the arrays that the ledger names for it since it was cleared, and they are those that were served. -/
structure ZeroCache.Accounted [Sample A] (past : List (Turn A)) (ledger : List Origin) (number : Nat)
    (cache : ZeroCache A) : Prop where
  lengths : (cache.arrays.map Prod.fst).Nodup
  holds (length : Nat) (array : SharedArray A) : (length, array) ∈ cache.arrays ↔
    array.samples = List.replicate length 0 ∧ ledger[array.allocation]? = some (Turn.origin past number length)
  recent (length : Nat) : Turn.origin past number length ∈ ledger ↔ length ∈ Turn.recent number past

private theorem getElem?_snoc {ledger : List Origin} {entry sought : Origin} {number : Nat} :
    (ledger ++ [entry])[number]? = some sought ↔
      ledger[number]? = some sought ∨ number = ledger.length ∧ sought = entry := by
  rcases Nat.lt_trichotomy number ledger.length with earlier | rfl | later
  · simp [List.getElem?_append_left earlier, Nat.ne_of_lt earlier]
  · simp [eq_comm]
  · have beyond : (ledger ++ [entry])[number]? = none := by
      rw [List.getElem?_append_right (Nat.le_of_lt later), List.getElem?_eq_none]
      exact Nat.le_sub_of_add_le' later
    simp [beyond, List.getElem?_eq_none (Nat.le_of_lt later), Nat.ne_of_gt later]

namespace ZeroCache.Accounted

variable [Sample A] {past : List (Turn A)} {turn : Turn A} {ledger : List Origin} {number : Nat}
  {cache : ZeroCache A}

theorem advance (accounted : cache.Accounted past ledger number) (kept : turn.clears number = false)
    (named : ∀ length, turn.served? number = some length → Turn.origin past number length ∈ ledger) :
    cache.Accounted (past ++ [turn]) ledger number where
  lengths := accounted.lengths
  holds length array := by
    rw [Turn.origin_snoc kept]
    exact accounted.holds length array
  recent length := by
    rw [Turn.origin_snoc kept, Turn.recent_snoc past kept, List.mem_append, ← accounted.recent,
      Option.mem_toList]
    exact (or_iff_left_of_imp (named length)).symm

/-- No entry of the ledger is as late as the arrays that a cache holds after it was cleared. -/
theorem of_clears (elapsed : ∀ entry ∈ ledger, entry.clearings ≤ past.countP (Turn.clears entry.cache))
    (clears : turn.clears number) : (empty : ZeroCache A).Accounted (past ++ [turn]) ledger number := by
  have absent (length : Nat) : Turn.origin (past ++ [turn]) number length ∉ ledger := by
    intro member
    have early := elapsed _ member
    simp only [Turn.origin, List.countP_append, List.countP_singleton, if_pos clears] at early
    exact Nat.not_succ_le_self _ early
  refine ⟨.nil, fun length array => ⟨nofun, fun held => ?_⟩, fun length => ?_⟩
  · exact (absent length (List.mem_of_getElem? held.2)).elim
  · rw [Turn.recent_snoc_of_clears past clears, iff_false_left (absent length)]
    exact List.not_mem_nil

omit [Sample A] in
private theorem different {entry : Origin} (other : entry.cache ≠ number) (length : Nat) :
    Turn.origin past number length ≠ entry := by
  intro same
  subst same
  exact other rfl

theorem extend (accounted : cache.Accounted past ledger number) {entry : Origin} (other : entry.cache ≠ number) :
    cache.Accounted past (ledger ++ [entry]) number where
  lengths := accounted.lengths
  holds length array := by
    rw [getElem?_snoc, or_iff_left fun last => different other length last.2]
    exact accounted.holds length array
  recent length := by
    rw [List.mem_append, List.mem_singleton, or_iff_left (different other length), accounted.recent]

theorem insert (accounted : cache.Accounted past ledger number) {length : Nat}
    (served : turn.served? number = some length) (kept : turn.clears number = false)
    (missing : length ∉ cache.arrays.map Prod.fst) :
    (cache.insert length ⟨List.replicate length 0, ledger.length⟩).Accounted (past ++ [turn])
      (ledger ++ [Turn.origin past number length]) number where
  lengths := List.nodup_cons.mpr ⟨missing, accounted.lengths⟩
  holds other array := by
    have new : (other, array) = (length, ⟨List.replicate length 0, ledger.length⟩) ↔
        array.samples = List.replicate other 0 ∧ array.allocation = ledger.length ∧
          Turn.origin past number other = Turn.origin past number length := by
      obtain ⟨samples, allocation⟩ := array
      constructor
      · intro same
        cases same
        exact ⟨rfl, rfl, rfl⟩
      · intro same
        obtain ⟨rfl, rfl, alike⟩ := same
        cases alike
        rfl
    rw [Turn.origin_snoc kept, getElem?_snoc, and_or_left, ← accounted.holds, ← new, or_comm]
    exact List.mem_cons
  recent other := by
    have same : Turn.origin past number other = Turn.origin past number length ↔ other = length := by
      simp [Turn.origin]
    rw [Turn.origin_snoc kept, Turn.recent_snoc past kept, served, List.mem_append, List.mem_append,
      accounted.recent, List.mem_singleton, same, Option.toList_some, List.mem_singleton]

private theorem mem_lengths (accounted : cache.Accounted past ledger number) (length : Nat) :
    length ∈ cache.arrays.map Prod.fst ↔ length ∈ Turn.recent number past := by
  rw [← accounted.recent]
  constructor
  · intro member
    obtain ⟨entry, held, rfl⟩ := List.mem_map.mp member
    exact List.mem_of_getElem? ((accounted.holds entry.1 entry.2).mp held).2
  · intro named
    obtain ⟨allocation, held⟩ := List.mem_iff_getElem?.mp named
    have member := (accounted.holds length ⟨List.replicate length 0, allocation⟩).mpr ⟨rfl, held⟩
    exact List.mem_map_of_mem member

end ZeroCache.Accounted

/-- How a store comes about that had the log `first` in the beginning. The turns of the past were served the arrays
`given`, and the ledger names what each of them was made for. -/
structure ZeroStore.Accounted [Sample A] (first : Log) (past : List (Turn A)) (given : List ArrayName)
    (ledger : List Origin) (store : ZeroStore A) : Prop where
  allocated : store.allocated = ledger.length
  logged : allocations store.log = allocations first ++ ledger.map Origin.length
  distinct : ledger.Nodup
  elapsed : ∀ entry ∈ ledger, entry.clearings ≤ past.countP (Turn.clears entry.cache)
  caches (number : Nat) : (store.caches number).Accounted past ledger number
  served (allocation : Nat) : .cached allocation ∈ given ↔ allocation < ledger.length

namespace ZeroStore

theorem zeros_eq [Zero A] (store : ZeroStore A) (number length : Nat) :
    (∃ array, (length, array) ∈ (store.caches number).arrays ∧ store.zeros number length = (array, store)) ∨
    length ∉ (store.caches number).arrays.map Prod.fst ∧
      let array : SharedArray A := ⟨List.replicate length 0, store.allocated⟩
      store.zeros number length = (array,
        { store.setCache number ((store.caches number).insert length array) with
          allocated := store.allocated + 1
          log := store.log.push (.allocated length) }) := by
  cases found : (store.caches number).find? length with
  | some array =>
    refine .inl ⟨array, ?_, by simp only [zeros, found]⟩
    obtain ⟨before, after, split, _⟩ := List.lookup_eq_some_iff.mp found
    rw [split]
    exact List.mem_append_right before List.mem_cons_self
  | none =>
    refine .inr ⟨fun member => ?_, by simp only [zeros, found]⟩
    obtain ⟨entry, listed, rfl⟩ := List.mem_map.mp member
    have unequal := List.lookup_eq_none_iff.mp found entry listed
    simp at unequal

variable [Sample A]

def after (turns : List (Turn A)) (store : ZeroStore A) : ZeroStore A :=
  turns.foldl (fun store turn => (turn.answer store).2) store

/-- The arrays that turns are served, in order. -/
def servings : List (Turn A) → ZeroStore A → List ArrayName
  | [], _ => []
  | turn :: turns, store => (turn.serving? store).toList ++ servings turns (turn.answer store).2

namespace Accounted

variable {first : Log} {past : List (Turn A)} {given : List ArrayName} {ledger : List Origin} {store : ZeroStore A}
  {turn : Turn A}

private theorem write (accounted : store.Accounted first past given ledger) {log : Log}
    (same : allocations log = allocations store.log) (named : Nat) :
    { store with named := named, log := log }.Accounted first past given ledger :=
  { accounted with logged := same.trans accounted.logged }

private theorem give (accounted : store.Accounted first past given ledger) {allocation : Nat}
    (before : allocation < ledger.length) : store.Accounted first past (given ++ [.cached allocation]) ledger where
  __ := accounted
  served other := by
    rw [List.mem_append, List.mem_singleton, accounted.served]
    exact or_iff_left_of_imp fun same => ArrayName.cached.inj same ▸ before

private theorem elapsed_snoc (accounted : store.Accounted first past given ledger) (turn : Turn A) :
    ∀ entry ∈ ledger, entry.clearings ≤ (past ++ [turn]).countP (Turn.clears entry.cache) := by
  intro entry member
  rw [List.countP_append]
  exact Nat.le_add_right_of_le (accounted.elapsed entry member)

theorem advance (accounted : store.Accounted first past given ledger) (kept : turn.request ≠ .clear)
    (named : ∀ number length, turn.served? number = some length → Turn.origin past number length ∈ ledger) :
    store.Accounted first (past ++ [turn]) given ledger where
  __ := accounted
  elapsed := accounted.elapsed_snoc turn
  caches number := (accounted.caches number).advance (Turn.clears_eq_false kept number) (named number)

theorem idle (accounted : store.Accounted first past given ledger) (idle : turn.zeros? = none)
    (kept : turn.request ≠ .clear) : (turn.answer store).2.Accounted first (past ++ [turn]) given ledger := by
  obtain ⟨log, named, same, _, reached⟩ := turn.answer_snd_of_idle idle kept store
  rw [reached]
  refine (accounted.write same named).advance kept fun number length served => ?_
  cases (Turn.served?_eq_none idle number).symm.trans served

theorem clear (accounted : store.Accounted first past given ledger) (clear : turn.request = .clear) :
    (turn.answer store).2.Accounted first (past ++ [turn]) given ledger := by
  rw [turn.answer_of_clear clear]
  refine { accounted with elapsed := accounted.elapsed_snoc turn, caches := fun number => ?_ }
  by_cases own : number = turn.combiner.cache
  · subst own
    rw [ZeroStore.clear, setCache_same]
    exact .of_clears accounted.elapsed (Turn.clears_iff.mpr ⟨clear, rfl⟩)
  · rw [ZeroStore.clear, setCache_other _ own]
    refine (accounted.caches number).advance ?_ fun length served => ?_
    · exact eq_false_of_ne_true fun clears => own (Turn.clears_iff.mp clears).2.symm
    · cases (Turn.served?_eq_none (Turn.zeros?_of_clear clear) number).symm.trans served

theorem allocate (accounted : store.Accounted first past given ledger) {number length : Nat}
    (served : turn.served? number = some length) (missing : length ∉ (store.caches number).arrays.map Prod.fst) :
    { store.setCache number ((store.caches number).insert length ⟨List.replicate length 0, store.allocated⟩) with
      allocated := store.allocated + 1
      log := store.log.push (.allocated length) }.Accounted first (past ++ [turn])
        (given ++ [ArrayName.cached ledger.length]) (ledger ++ [Turn.origin past number length]) := by
  obtain ⟨rfl, zeros⟩ := Turn.served?_eq_some.mp served
  have kept := Turn.clears_eq_false (Turn.request_ne_clear zeros)
  have absent : Turn.origin past turn.combiner.cache length ∉ ledger := by
    rwa [(accounted.caches _).recent, ← (accounted.caches _).mem_lengths]
  refine ⟨?_, ?_, ?_, fun entry member => ?_, fun other => ?_, fun allocation => ?_⟩
  · rw [List.length_append, ← accounted.allocated]
    rfl
  · rw [allocations_push, accounted.logged, List.append_assoc, List.map_append]
    rfl
  · rw [← List.concat_eq_append]
    exact accounted.distinct.concat absent
  · rcases List.mem_append.mp member with old | new
    · exact accounted.elapsed_snoc turn entry old
    · cases List.mem_singleton.mp new
      rw [List.countP_append]
      exact Nat.le_add_right _ _
  · by_cases own : other = turn.combiner.cache
    · subst own
      rw [setCache_same, accounted.allocated]
      exact (accounted.caches _).insert served (kept _) missing
    · rw [setCache_other _ own]
      refine ((accounted.caches other).advance (kept other) fun size asked => ?_).extend (Ne.symm own)
      exact (own (Turn.served?_eq_some.mp asked).1.symm).elim
  · rw [List.mem_append, List.mem_singleton, accounted.served, ArrayName.cached.injEq, List.length_append]
    exact Nat.lt_succ_iff_lt_or_eq.symm

/-- A turn that hands out zeros gets the array that the ledger names for what it asks for. There is a new entry only
where nobody has been given this array before. -/
theorem serve (accounted : store.Accounted first past given ledger) {length : Nat}
    (zeros : turn.zeros? = some length) :
    ∃ allocation more,
      (turn.answer store).1 = .ok (.array ⟨List.replicate length 0, .cached allocation⟩) ∧
      (turn.answer store).2.Accounted first (past ++ [turn]) (given ++ [.cached allocation]) (ledger ++ more) ∧
      (ledger ++ more)[allocation]? = some (Turn.origin past turn.combiner.cache length) ∧
      more = if .cached allocation ∈ given then [] else [Turn.origin past turn.combiner.cache length] := by
  obtain ⟨_, log, same, answers⟩ := turn.answer_of_zeros zeros store
  have written := accounted.write same store.named
  rw [answers]
  obtain ⟨array, member, hit⟩ | ⟨missing, miss⟩ :=
    { store with log := log }.zeros_eq turn.combiner.cache length
  · rw [hit]
    obtain ⟨samples, named⟩ := ((written.caches _).holds length array).mp member
    have before : array.allocation < ledger.length := (List.getElem?_eq_some_iff.mp named).1
    refine ⟨array.allocation, [], ?_, ?_, ?_, ?_⟩
    · rw [SharedArray.handout, samples]
    · rw [List.append_nil]
      refine (written.advance (Turn.request_ne_clear zeros) fun number size asked => ?_).give before
      obtain ⟨rfl, wanted⟩ := Turn.served?_eq_some.mp asked
      cases zeros.symm.trans wanted
      exact List.mem_of_getElem? named
    · rw [List.append_nil, named]
    · rw [if_pos ((accounted.served _).mpr before)]
  · rw [miss]
    refine ⟨ledger.length, [Turn.origin past turn.combiner.cache length], ?_, ?_, ?_, ?_⟩
    · rw [SharedArray.handout, ← accounted.allocated]
    · exact written.allocate (Turn.served?_eq_some.mpr ⟨rfl, zeros⟩) missing
    · exact List.getElem?_concat_length
    · rw [if_neg fun given => Nat.lt_irrefl _ ((accounted.served _).mp given)]

theorem answer (accounted : store.Accounted first past given ledger) (turn : Turn A) :
    ∃ more, (turn.answer store).2.Accounted first (past ++ [turn]) (given ++ (turn.serving? store).toList)
      (ledger ++ more) := by
  cases zeros : turn.zeros? with
  | some length =>
    obtain ⟨allocation, more, answers, accounted, _⟩ := accounted.serve zeros
    rw [Turn.serving?_of_zeros zeros, Turn.handed?, answers]
    exact ⟨more, accounted⟩
  | none =>
    refine ⟨[], ?_⟩
    rw [Turn.serving?, zeros, Option.bind_none, Option.toList_none, List.append_nil, List.append_nil]
    by_cases clear : turn.request = .clear
    · exact accounted.clear clear
    · exact accounted.idle zeros clear

theorem after (accounted : store.Accounted first past given ledger) (future : List (Turn A)) :
    ∃ more, (store.after future).Accounted first (past ++ future) (given ++ servings future store)
      (ledger ++ more) := by
  induction future generalizing past given ledger store with
  | nil => exact ⟨[], by simpa [servings, ZeroStore.after] using accounted⟩
  | cons turn future ih =>
    obtain ⟨here, accounted⟩ := accounted.answer turn
    obtain ⟨later, accounted⟩ := ih accounted
    refine ⟨here ++ later, ?_⟩
    simpa [servings, ZeroStore.after] using accounted

end Accounted

end ZeroStore

end SignalStrip
