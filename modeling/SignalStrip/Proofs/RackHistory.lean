import SignalStrip.Signal.Source
import SignalStrip.Proofs.Listening

/-! The history of a rack. What a source gives to a reader follows from how it was plugged in and from what
happened to it before, and an evaluation happens to it only through its reads. Every reply follows from that history. -/

namespace SignalStrip

variable {A : Type}

inductive SourceEvent (A : Type) where
  | heard (waveform : Waveform A)
  | replaced (waveform : Waveform A)

namespace SourceEvent

def isHeard : SourceEvent A → Bool
  | heard _ => true
  | replaced _ => false

def replacement? : SourceEvent A → Option (Waveform A)
  | heard _ => none
  | replaced waveform => some waveform

def hearings (past : List (SourceEvent A)) : Nat :=
  past.countP isHeard

/-- The waveform put in last, which is the given one where none was. -/
def latest (waveform : Waveform A) (past : List (SourceEvent A)) : Waveform A :=
  (past.filterMap replacement?).getLast?.getD waveform

@[simp] theorem hearings_heard (past : List (SourceEvent A)) (waveform : Waveform A) :
    hearings (past ++ [.heard waveform]) = hearings past + 1 := by
  simp [hearings, isHeard]

@[simp] theorem latest_heard (first : Waveform A) (past : List (SourceEvent A)) (waveform : Waveform A) :
    latest first (past ++ [.heard waveform]) = latest first past := by
  simp [latest, replacement?]

@[simp] theorem latest_replaced (first : Waveform A) (past : List (SourceEvent A))
    (waveform : Waveform A) : latest first (past ++ [.replaced waveform]) = waveform := by
  simp [latest, replacement?]

end SourceEvent

namespace Source
open SourceEvent

def after (past : List (SourceEvent A)) : Source A → Source A
  | constant waveform => constant waveform
  | held waveform => held (latest waveform past)
  | counter rate length reads => counter rate length (reads + hearings past)
  | noise rate length stream =>
    noise rate length { stream with taken := stream.taken + hearings past * length }

private theorem after_nil (source : Source A) : source.after [] = source := by
  cases source with
  | constant _ | held _ | counter _ _ _ => rfl
  | noise _ _ _ => simp [after, hearings]

variable [Sample A]

/-- What a source gives to whoever reads it next after these events. A counter counts this reading along
with the earlier ones, and noise goes on with the words that they left. -/
def signal (past : List (SourceEvent A)) : Source A → Waveform A
  | constant waveform => waveform
  | held waveform => latest waveform past
  | counter rate length reads => .constant rate (Sample.dyadic (reads + (hearings past + 1)) 0) length
  | noise rate length stream =>
    ⟨rate, (List.range length).map fun index =>
      noiseSample (stream.word (stream.taken + hearings past * length + index))⟩

theorem read_after (past : List (SourceEvent A)) (source : Source A) (waveform : Waveform A) :
    (source.after past).read = (source.signal past, source.after (past ++ [.heard waveform])) := by
  cases source with
  | constant _ => rfl
  | held _ => simp [after, read, signal]
  | counter _ _ _ => simp [after, read, signal, Nat.add_assoc]
  | noise _ _ _ =>
    simp [after, read, signal, noiseBlock, WordStream.take, WordStream.word, Nat.add_assoc, Nat.add_mul]

end Source

abbrev History (A : Type) := List (String × SourceEvent A)

namespace History

def about (history : History A) (name : String) : List (SourceEvent A) :=
  history.filterMap fun event => if event.1 = name then some event.2 else none

def ofReadings (readings : List (String × Waveform A)) : History A :=
  readings.map fun reading => (reading.1, .heard reading.2)

def heard (history : History A) : List String :=
  (history.filter fun event => event.2.isHeard).map Prod.fst

@[simp] theorem about_append (first second : History A) (name : String) :
    (first ++ second).about name = first.about name ++ second.about name :=
  List.filterMap_append

@[simp] theorem about_same (name : String) (event : SourceEvent A) :
    about [(name, event)] name = [event] := by
  simp [about]

@[simp] theorem about_other {name other : String} (different : other ≠ name) (event : SourceEvent A) :
    about [(name, event)] other = [] := by
  simp [about, different.symm]

@[simp] theorem heard_append (first second : History A) :
    (first ++ second).heard = first.heard ++ second.heard := by
  simp [heard]

@[simp] theorem heard_ofReadings (readings : List (String × Waveform A)) :
    (ofReadings readings).heard = readings.map Prod.fst := by
  induction readings with
  | nil => rfl
  | cons reading readings ih => exact congrArg (reading.1 :: ·) ih

private theorem ofReadings_snoc (readings : List (String × Waveform A)) (name : String) (waveform : Waveform A) :
    ofReadings (readings ++ [(name, waveform)]) = ofReadings readings ++ [(name, .heard waveform)] :=
  List.map_append

@[simp] theorem heard_reading (name : String) (waveform : Waveform A) :
    heard [(name, .heard waveform)] = [name] := rfl

@[simp] theorem heard_replacement (name : String) (waveform : Waveform A) :
    heard [(name, .replaced waveform)] = [] := rfl

variable [Sample A]

/-- Everyone who was heard gave what the events before that lead to, from these sources on. -/
def Fresh (sources : String → Source A) (history : History A) : Prop :=
  ∀ (past : History A) name waveform future, history = past ++ (name, .heard waveform) :: future →
    waveform = (sources name).signal (past.about name)

private theorem fresh_nil (sources : String → Source A) : Fresh sources [] := by
  intro past name waveform future split
  cases past <;> cases split

/-- Only the last event of a history has to be looked at when it is added. -/
theorem Fresh.snoc {sources : String → Source A} {history : History A} (fresh : Fresh sources history)
    {name : String} {event : SourceEvent A}
    (last : ∀ waveform, event = .heard waveform → waveform = (sources name).signal (history.about name)) :
    Fresh sources (history ++ [(name, event)]) := by
  intro past other waveform future split
  rcases List.eq_nil_or_concat future with rfl | ⟨future, final, rfl⟩
  · obtain ⟨rfl, same⟩ := List.append_inj' split rfl
    cases same
    exact last waveform rfl
  · rw [List.concat_eq_append, ← List.cons_append, ← List.append_assoc] at split
    exact fresh past other waveform future (List.append_inj_left' split rfl)

end History

abbrev RackOutcome (A : Type) := Except (Halt (OperationFault CombinatorFault)) (RackReply A)

namespace Rack

variable [Sample A]

def after (operation : RackOperation A) (requests : List (RackRequest A)) (rack : Rack A) : Rack A :=
  requests.foldl (fun rack request => (rack.answer operation request).2) rack

def replies (operation : RackOperation A) : List (RackRequest A) → Rack A → List (RackOutcome A)
  | [], _ => []
  | request :: requests, rack =>
    let (reply, rack) := rack.answer operation request
    reply :: replies operation requests rack

/-- A request after a past, what it does to the sources, and what is replied. An evaluation reads as many of its
producers as it takes to come to its result, and beyond what they give nothing decides it. -/
inductive Told (operation : RackOperation A) (sources : String → Source A) (past : History A) :
    RackRequest A → History A → RackOutcome A → Prop where
  | value {readings : List (String × Waveform A)}
      {result : Except (Halt (OperationFault CombinatorFault)) (Waveform A)}
      (names : readings.map Prod.fst = operation.producers.take readings.length)
      (decides : ∀ unread : List (Waveform A), readings.length + unread.length = operation.producers.length →
        let given : Operation (Waveform A) (Waveform A) CombinatorFault :=
          ⟨operation.program, readings.map Prod.snd ++ unread⟩
        result = (given.currentValue .given ()).1 ∧ readings.length = given.operandsPassed .given ()) :
      Told operation sources past .value (.ofReadings readings) (result.map .waveform)
  | read {name : String} {waveform : Waveform A} (gives : waveform = (sources name).signal (past.about name)) :
      Told operation sources past (.read name) [(name, .heard waveform)] (.ok (.waveform waveform))
  | replace {name : String} {first waveform : Waveform A} (holds : sources name = .held first) :
      Told operation sources past (.replace name waveform) [(name, .replaced waveform)]
        (.ok (.waveform (SourceEvent.latest first (past.about name))))
  | keep {name : String} {waveform : Waveform A} (fixed : ∀ first, sources name ≠ .held first) :
      Told operation sources past (.replace name waveform) [] (.ok .unavailable)
  | level {name : String} {value : A} (offers : (sources name).level? = some value) :
      Told operation sources past (.level name) [] (.ok (.level value))
  | withhold {name : String} (lacks : (sources name).level? = none) :
      Told operation sources past (.level name) [] (.ok .unavailable)

/-- Requests after a past with all their replies, and the history they make. -/
inductive Answered (operation : RackOperation A) (sources : String → Source A) :
    History A → List (RackRequest A) → List (RackOutcome A) → History A → Prop where
  | nil {past : History A} : Answered operation sources past [] [] []
  | cons {past done future : History A} {request : RackRequest A} {reply : RackOutcome A}
      {requests : List (RackRequest A)} {replies : List (RackOutcome A)}
      (told : Told operation sources past request done reply)
      (rest : Answered operation sources (past ++ done) requests replies future) :
      Answered operation sources past (request :: requests) (reply :: replies) (done ++ future)

structure Follows (first : Rack A) (history : History A) (current : Rack A) : Prop where
  sources (name : String) : current.sources name = (first.sources name).after (history.about name)
  reads : current.reads = first.reads ++ history.heard
  fresh : history.Fresh first.sources

theorem Follows.read {first current : Rack A} {history : History A}
    (follows : Follows first history current) (name : String) :
    Follows first (history ++ [(name, .heard (current.read name).1)]) (current.read name).2 := by
  have reading := (first.sources name).read_after (history.about name) (current.read name).1
  rw [← follows.sources] at reading
  refine ⟨fun other => ?_, ?_, follows.fresh.snoc ?_⟩
  · by_cases same : other = name
    · subst same
      rw [History.about_append, History.about_same]
      exact (plug_same ..).trans (congrArg Prod.snd reading)
    · rw [History.about_append, History.about_other same, List.append_nil, ← follows.sources]
      exact plug_other _ same _
  · show current.reads.push name = _
    rw [follows.reads, History.heard_append, History.heard_reading]
    exact Array.ext' (by simp)
  · rintro waveform ⟨⟩
    exact congrArg Prod.fst reading

private theorem Follows.note {first current : Rack A} {history : History A}
    (follows : Follows first history current) (record : Record) :
    Follows first history (studio.note record current) :=
  ⟨follows.sources, follows.reads, follows.fresh⟩

theorem Follows.held_iff {first current : Rack A} {history : History A}
    (follows : Follows first history current) (name : String) (before : Waveform A) :
    current.sources name = .held before ↔
      ∃ initial, first.sources name = .held initial ∧ before = SourceEvent.latest initial (history.about name) := by
  rw [follows.sources]
  cases first.sources name <;> simp [Source.after, eq_comm]

theorem Follows.replace {first current : Rack A} {history : History A}
    (follows : Follows first history current) {name : String} {before : Waveform A}
    (holds : current.sources name = .held before) (waveform : Waveform A) :
    Follows first (history ++ [(name, .replaced waveform)]) (current.plug name (.held waveform)) := by
  refine ⟨fun other => ?_, ?_, follows.fresh.snoc nofun⟩
  · by_cases same : other = name
    · subst same
      obtain ⟨initial, same, _⟩ := (follows.held_iff other before).mp holds
      rw [plug_same, History.about_append, History.about_same, same]
      simp [Source.after]
    · rw [History.about_append, History.about_other same, List.append_nil, ← follows.sources]
      exact plug_other _ same _
  · rw [History.heard_append, History.heard_replacement, List.append_nil]
    exact follows.reads

/-- An evaluation happens to a rack as its reads do, one after the other. -/
theorem Follows.value {first current : Rack A} {history : History A}
    (follows : Follows first history current) (operation : RackOperation A) :
    Follows first (history ++ .ofReadings (operation.heard studio current))
      (operation.currentValue studio current).2 := by
  have listened := evaluateOperations_keeps studio.recorded
    (fun world : Rack A × List (String × Waveform A) =>
      Follows first (history ++ .ofReadings world.2) world.1)
    (fun name _ held => by
      have next := held.read name
      rw [List.append_assoc, ← History.ofReadings_snoc] at next
      exact next)
    (fun record _ held => held.note record) operation.program operation.producers (current, [])
    (by rwa [History.ofReadings, List.map_nil, List.append_nil])
  rwa [← (operation.currentValue_recorded studio current []).2]

private theorem Follows.level? {first current : Rack A} {history : History A}
    (follows : Follows first history current) (name : String) :
    (current.sources name).level? = (first.sources name).level? := by
  rw [follows.sources]
  cases first.sources name <;> rfl

private theorem told_value (operation : RackOperation A) (sources : String → Source A) (past : History A)
    (rack : Rack A) :
    Told operation sources past .value (.ofReadings (operation.heard studio rack))
      (rack.answer operation .value).1 := by
  refine .value ?_ fun unread size => ?_
  · rw [operation.map_fst_heard, operation.length_heard]
  · rw [operation.length_heard]
    exact operation.currentValue_eq_given studio rack size

theorem Follows.answer {first current : Rack A} {history : History A}
    (follows : Follows first history current) (operation : RackOperation A) (request : RackRequest A) :
    ∃ done, Told operation first.sources history request done (current.answer operation request).1 ∧
      Follows first (history ++ done) (current.answer operation request).2 := by
  cases request with
  | value => exact ⟨_, told_value operation first.sources history current, follows.value operation⟩
  | read name =>
    have reading := (first.sources name).read_after (history.about name) (current.read name).1
    rw [← follows.sources] at reading
    exact ⟨_, .read (congrArg Prod.fst reading), follows.read name⟩
  | replace name waveform =>
    cases holds : current.sources name with
    | held before =>
      obtain ⟨initial, same, rfl⟩ := (follows.held_iff name before).mp holds
      simp only [Rack.answer, holds]
      exact ⟨_, .replace same, follows.replace holds waveform⟩
    | constant _ | counter _ _ _ | noise _ _ _ =>
      refine ⟨[], ?_, by simpa only [Rack.answer, holds, List.append_nil]⟩
      simp only [Rack.answer, holds]
      refine .keep fun initial same => ?_
      cases holds.symm.trans ((follows.held_iff name _).mpr ⟨initial, same, rfl⟩)
  | level name =>
    have initially := follows.level? name
    cases offers : (current.sources name).level? with
    | some value =>
      simp only [Rack.answer, offers]
      exact ⟨[], .level (initially.symm.trans offers), by rwa [List.append_nil]⟩
    | none =>
      simp only [Rack.answer, offers]
      exact ⟨[], .withhold (initially.symm.trans offers), by rwa [List.append_nil]⟩

theorem Follows.after {first current : Rack A} {history : History A}
    (follows : Follows first history current) (operation : RackOperation A)
    (requests : List (RackRequest A)) :
    ∃ future, Answered operation first.sources history requests (current.replies operation requests) future ∧
      Follows first (history ++ future) (current.after operation requests) := by
  induction requests generalizing history current with
  | nil => exact ⟨[], .nil, by rwa [List.append_nil]⟩
  | cons request requests ih =>
    obtain ⟨done, told, next⟩ := follows.answer operation request
    obtain ⟨future, answered, last⟩ := ih next
    exact ⟨done ++ future, .cons told answered, by rwa [← List.append_assoc]⟩

theorem follows_self (rack : Rack A) : Follows rack [] rack := by
  refine ⟨fun name => ?_, ?_, History.fresh_nil _⟩
  · exact (rack.sources name).after_nil.symm
  · exact Array.ext' (by simp [History.heard])

/-- An evaluation reads the producers it was built with as they were written, from the first on and one for
each operand that it passes, and its result depends on nothing but what they give. Over a whole run, every
reading of a source gives what the readings and replacements before it lead to, and so does every reply. -/
theorem fresh_readings (operation : RackOperation A) (rack : Rack A) :
    (∀ keys log, ((OperationBuilder.ofKeys keys).build log).1 = .ok operation →
      operation.producers = keys.filterMap OperationKey.producer?) ∧
    (operation.currentValue studio rack).2.reads =
      rack.reads ++ operation.producers.take (operation.operandsPassed studio rack) ∧
    (operation.heard studio rack).map Prod.fst =
      operation.producers.take (operation.operandsPassed studio rack) ∧
    (∀ unread : List (Waveform A),
      (operation.heard studio rack).length + unread.length = operation.producers.length →
        (operation.currentValue studio rack).1 = (evaluateOperations .given operation.program
          ((operation.heard studio rack).map Prod.snd ++ unread) ()).1) ∧
    ∀ requests, ∃ history : History A,
      Answered operation rack.sources [] requests (rack.replies operation requests) history ∧
      history.Fresh rack.sources ∧
      (rack.after operation requests).reads = rack.reads ++ history.heard := by
  refine ⟨fun keys log built => OperationBuilder.producers_of_build built, ?_,
    operation.map_fst_heard studio rack, fun unread size => (operation.currentValue_eq_given studio rack size).1,
    fun requests => ?_⟩
  · have reads := (rack.follows_self.value operation).reads
    rwa [List.nil_append, History.heard_ofReadings, operation.map_fst_heard] at reads
  · obtain ⟨history, answered, run⟩ := rack.follows_self.after operation requests
    exact ⟨history, answered, run.fresh, run.reads⟩

/-- A counter that is read once alone and then stands on both sides of a difference. -/
theorem fresh_readings_of_shared_counter :
    letI := Sample.whole
    let difference (left right : Waveform Int) : Except CombinatorFault (Waveform Int) :=
      .ok (Mixer.subtract.apply left right)
    let operation : RackOperation Int :=
      ⟨⟨[.operand, .operand, .binary .first], [.binary difference]⟩, ["n", "n"]⟩
    let rack := (Rack.empty #[]).plug "n" (.counter 1 2 0)
    operation.producers =
      [.operand "n", .binary .first difference, .operand "n"].filterMap OperationKey.producer? ∧
    (operation.currentValue studio rack).1 = (evaluateOperations .given operation.program
      [⟨1, [1, 1]⟩, ⟨1, [2, 2]⟩] ()).1 ∧
    ∃ history : History Int,
      Answered operation rack.sources [] [.read "n", .value, .replace "n" ⟨1, [0]⟩, .read "n"]
        [.ok (.waveform ⟨1, [1, 1]⟩), .ok (.waveform ⟨1, [-1, -1]⟩), .ok .unavailable,
          .ok (.waveform ⟨1, [4, 4]⟩)] history ∧
      history.Fresh rack.sources ∧ #["n", "n", "n", "n"] = rack.reads ++ history.heard := by
  let := Sample.whole
  intro difference operation rack
  obtain ⟨written, _, _, decides, run⟩ := fresh_readings operation rack
  exact ⟨written [.operand "n", .binary .first difference, .operand "n"] #[] rfl, decides [] rfl, run _⟩

end Rack

end SignalStrip
