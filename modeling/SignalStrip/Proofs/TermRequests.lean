import SignalStrip.Term.Session
import SignalStrip.Proofs.Runs

/-! What requests to a combiner do. Some take zeros from its cache, one clears it, and all others leave every cache
alone. Some hand back an array that they were given. Which of these happens follows from the request, never from the
caches or the log. -/

namespace SignalStrip

variable {A : Type}

def Record.allocated? : Record → Option Nat
  | allocated length => some length
  | compiled .. | step .. | zeroSum _ | zeroProduct _ => none

def allocations (log : Log) : List Nat :=
  log.toList.filterMap Record.allocated?

theorem allocations_push (log : Log) (record : Record) :
    allocations (log.push record) = allocations log ++ record.allocated?.toList := by
  cases record <;> simp [allocations, Record.allocated?]

namespace Term

def zeros? : Term A → Option Nat
  | zero length => some length
  | data .. => none

/-- The name of the array behind a term, if it has been handed out before. -/
def name? : Term A → Option ArrayName
  | zero _ => none
  | data _ name => name

def unnamed : Term A → Term A
  | zero length => zero length
  | data samples _ => data samples none

end Term

/-- What only writes to the log, and nothing about arrays. -/
structure Quiet {α : Type} (compute : Log → α × Log) : Prop where
  same (log other : Log) : (compute log).1 = (compute other).1
  kept (log : Log) : allocations (compute log).2 = allocations log

private theorem Quiet.constant {α : Type} (value : α) : Quiet fun log => (value, log) :=
  ⟨fun _ _ => rfl, fun _ => rfl⟩

private theorem Quiet.exists_log {α : Type} {compute : Log → α × Log} (quiet : Quiet compute) (log other : Log) :
    ∃ after, allocations after = allocations log ∧ compute log = ((compute other).1, after) :=
  ⟨(compute log).2, quiet.kept log, Prod.ext (quiet.same log other) rfl⟩

private theorem Quiet.of_fst {α β : Type} {compute : Log → α × Log} (quiet : Quiet compute) (change : α → β) :
    Quiet fun log => (change (compute log).1, (compute log).2) :=
  ⟨fun log other => congrArg change (quiet.same log other), quiet.kept⟩

theorem quiet_compileLogged {O : Type} (tokens : List Token) (payloads : List O) :
    Quiet (compileLogged tokens payloads) := by
  unfold compileLogged
  split
  · exact ⟨fun _ _ => rfl, fun log => (allocations_push ..).trans (List.append_nil _)⟩
  · exact .constant _

private theorem TermOp.shortcut?_allocated {op : TermOp} {left right term : Term A} {record : Record}
    (taken : op.shortcut? left right = some (record, term)) : record.allocated? = none := by
  unfold shortcut? at taken
  split at taken <;> cases taken <;> rfl

theorem TermOp.quiet_apply [Sample A] (op : TermOp) (left right : Term A) : Quiet (op.apply left right) := by
  unfold apply
  split
  · split
    next record term taken =>
      refine ⟨fun _ _ => rfl, fun log => ?_⟩
      rw [allocations_push, shortcut?_allocated taken, Option.toList_none, List.append_nil]
    next => exact .constant _
  · exact .constant _

namespace TermSupply

variable [Sample A]

private theorem keeps_allocations (listed : List Nat) :
    (interpretation (A := A)).Keeps fun supply => allocations supply.log = listed where
  next {supply _ _} held taken := by
    obtain ⟨terms, log⟩ := supply
    cases terms with
    | nil => cases taken
    | cons term rest =>
      cases taken
      exact held
  unary _ _ _ held := held
  binary op left right supply held := ((op.quiet_apply left right).kept supply.log).trans held
  note position token depth _ held := by
    rw [interpretation, allocations_push, held]
    exact List.append_nil listed

end TermSupply

namespace TermOp

variable [Sample A]

/-- What an operator computes is new, and otherwise it hands on one of its inputs. -/
theorem eq_or_eq_of_apply {op : TermOp} {left right term : Term A} {log after : Log}
    (applies : op.apply left right log = (.ok term, after)) :
    term.name? = none ∨ term = left ∨ term = right := by
  unfold apply at applies
  split at applies
  · split at applies
    next taken =>
      cases applies
      unfold shortcut? at taken
      split at taken <;> cases taken
      · exact .inr (.inr rfl)
      · exact .inr (.inl rfl)
      · exact .inl rfl
      · exact .inl rfl
    next =>
      cases applies
      exact .inl rfl
  · cases applies

end TermOp

/-- A relation between terms that holds between what operators make of them. -/
structure Term.Respected [Sample A] (stands : Term A → Term A → Prop) : Prop where
  length {term other : Term A} (same : stands term other) : term.length = other.length
  zero (length : Nat) : stands (.zero length) (.zero length)
  apply (op : TermOp) {left right other beside : Term A} (onLeft : stands left other) (onRight : stands right beside)
    (log after : Log) :
    Answers stands Eq (fun _ _ => True) (op.apply left right log) (op.apply other beside after)

namespace Term

variable [Sample A]

private theorem respected_given (given : List (Term A)) :
    Respected fun term other : Term A => term = other ∧ (term.name? = none ∨ term ∈ given) where
  length same := by rw [same.1]
  zero _ := ⟨rfl, .inl rfl⟩
  apply op left right _ _ onLeft onRight log after := by
    obtain ⟨rfl, onLeft⟩ := onLeft
    obtain ⟨rfl, onRight⟩ := onRight
    have same := (op.quiet_apply left right).same after log
    generalize applies : op.apply left right log = outcome, op.apply left right after = other at same
    obtain ⟨result, last⟩ := outcome
    obtain ⟨_, final⟩ := other
    cases same
    cases result with
    | error fault => exact .error rfl trivial
    | ok term =>
      refine .ok ⟨rfl, ?_⟩ trivial
      obtain new | rfl | rfl := TermOp.eq_or_eq_of_apply applies
      · exact .inl new
      · exact onLeft
      · exact onRight

private theorem find?_respected {stands : Term A → Term A → Prop} (respected : Respected stands) (dimension : Nat)
    {operands others : List (Term A)} (level : List.Forall₂ stands operands others) :
    Option.Rel stands (operands.find? fun term => term.length != dimension)
      (others.find? fun term => term.length != dimension) := by
  induction level with
  | nil => exact .none
  | @cons term other _ _ same _ ih =>
    rw [List.find?_cons, List.find?_cons, respected.length same]
    cases other.length != dimension with
    | true => exact .some same
    | false => exact ih

end Term

namespace TermSupply

variable [Sample A]

private theorem corresponds_respected {stands : Term A → Term A → Prop} (respected : Term.Respected stands) :
    Interpretation.Corresponds (fun _ => True) stands Eq
      (fun supply other => List.Forall₂ stands supply.terms other.terms) (interpretation (A := A)) interpretation where
  next := by
    intro supply beside level
    obtain ⟨terms, log⟩ := supply
    obtain ⟨others, other⟩ := beside
    cases level with
    | nil => exact .none
    | cons same level => exact .some ⟨same, level⟩
  unary _ _ kept := .error rfl kept
  binary := by
    intro tier op left right _ _ supply other _ onLeft onRight kept
    have answers := respected.apply op onLeft onRight supply.log other.log
    simp only [interpretation]
    obtain ⟨_, _, _, _, here, there, same, _⟩ | ⟨_, _, _, _, here, there, rfl, _⟩ := answers.outcomes
    · rw [here, there]
      exact .ok same kept
    · rw [here, there]
      exact .error rfl kept
  note _ _ _ kept := kept

end TermSupply

namespace Combiner

variable [Sample A] (combiner : Combiner) (program : Program TermOp) {operands others : List (Term A)}

theorem evaluateTerm_respected {stands : Term A → Term A → Prop} (respected : Term.Respected stands)
    (level : List.Forall₂ stands operands others) (log other : Log) :
    Answers stands Eq (fun _ _ => True) (combiner.evaluateTerm program operands log)
      (combiner.evaluateTerm program others other) := by
  have found := Term.find?_respected respected combiner.dimension level
  have run := Program.evaluate_answers (TermSupply.corresponds_respected respected) program (fun _ _ => trivial)
    ⟨operands, log⟩ ⟨others, other⟩ level
  unfold evaluateTerm
  rw [level.length_eq]
  split
  · generalize operands.find? _ = misfit, others.find? _ = opposite at found
    cases found with
    | some same => exact .error (by rw [respected.length same]) trivial
    | none =>
      cases program.isEmpty with
      | true => exact .ok (respected.zero combiner.dimension) trivial
      | false =>
        obtain ⟨_, _, _, _, here, there, same, _⟩ | ⟨_, _, _, _, here, there, same, _⟩ := run.outcomes
        · simp only [here, there]
          exact .ok same trivial
        · simp only [here, there]
          exact .error (Halt.eq_of_matches same) trivial
  · exact .error rfl trivial

private theorem evaluateTerm_given (operands : List (Term A)) (log other : Log) :
    Answers (fun term other => term = other ∧ (term.name? = none ∨ term ∈ operands)) Eq (fun _ _ => True)
      (combiner.evaluateTerm program operands log) (combiner.evaluateTerm program operands other) :=
  combiner.evaluateTerm_respected program (Term.respected_given operands)
    (List.forall₂_same.mpr fun _ member => ⟨rfl, .inr member⟩) log other

theorem quiet_evaluateTerm (operands : List (Term A)) : Quiet (combiner.evaluateTerm program operands) := by
  have same (log other : Log) :
      (combiner.evaluateTerm program operands log).1 = (combiner.evaluateTerm program operands other).1 := by
    obtain ⟨_, _, _, _, here, there, ⟨rfl, _⟩, _⟩ | ⟨_, _, _, _, here, there, rfl, _⟩ :=
      (combiner.evaluateTerm_given program operands log other).outcomes
    · rw [here, there]
    · rw [here, there]
  have kept (log : Log) :
      allocations (program.evaluate TermSupply.interpretation ⟨operands, log⟩).2.log = allocations log :=
    Program.evaluate_keeps (TermSupply.keeps_allocations (allocations log)) program rfl
  refine ⟨same, fun log => ?_⟩
  unfold evaluateTerm
  split
  · split
    · rfl
    · split
      · rfl
      · exact kept log
  · rfl

end Combiner

theorem Combiner.quiet_compileLogged (strip : Strip TermOp) : Quiet (Combiner.compileLogged strip) := by
  unfold Combiner.compileLogged
  split
  · exact .constant _
  · exact (SignalStrip.quiet_compileLogged strip.tokens strip.payloads).of_fst _

theorem TermSource.quiet_compileLogged (source : TermSource) : Quiet source.compileLogged := by
  cases source with
  | keys pressed => exact (SignalStrip.quiet_compileLogged _ _).of_fst _
  | combinedKeys pressed => exact Combiner.quiet_compileLogged _
  | combinedParts tokens ops =>
    unfold TermSource.compileLogged
    dsimp only
    split
    · exact Combiner.quiet_compileLogged _
    · exact .constant _
  | loose tokens ops => exact (SignalStrip.quiet_compileLogged _ _).of_fst _

def TermReply.values : TermReply A → TermReply A
  | array handout => array ⟨handout.samples, .other 0⟩
  | term answer => term answer.unnamed
  | reply => reply

namespace TermRequest

def terms : TermRequest A → List (Term A)
  | evaluate _ operands | evaluateTerm _ operands => operands
  | materialize term => [term]
  | compile _ | zeros _ | zero | clear => []

def unnamed : TermRequest A → TermRequest A
  | evaluate program operands => evaluate program (operands.map Term.unnamed)
  | evaluateTerm program operands => evaluateTerm program (operands.map Term.unnamed)
  | materialize term => materialize term.unnamed
  | request => request

end TermRequest

/-- A request and the combiner that it is put to. -/
structure Turn (A : Type) where
  combiner : Combiner
  request : TermRequest A

namespace Turn

/-- What a turn asks for, whatever cache it is put to and whichever arrays hold its samples. -/
def unnamed (turn : Turn A) : Turn A :=
  ⟨⟨turn.combiner.dimension, 0⟩, turn.request.unnamed⟩

variable [Sample A]

def answer (turn : Turn A) (store : ZeroStore A) : Except (Halt CombinerFault) (TermReply A) × ZeroStore A :=
  turn.combiner.answer turn.request store

def handed? (turn : Turn A) (store : ZeroStore A) : Option ArrayName :=
  (turn.answer store).1.toOption.bind TermReply.name?

/-- The length of the zeros that a turn takes out of a cache, if it does. -/
def zeros? (turn : Turn A) : Option Nat :=
  match turn.request with
  | .zeros length => some length
  | .materialize term => term.zeros?
  | .evaluate program operands =>
    (turn.combiner.evaluateTerm program operands #[]).1.toOption.bind Term.zeros?
  | .compile _ | .evaluateTerm .. | .zero | .clear => none

def serving? (turn : Turn A) (store : ZeroStore A) : Option ArrayName :=
  turn.zeros?.bind fun _ => turn.handed? store

/-- The name of the array that a turn hands back, if it is one that had been handed out before. -/
def returned? (turn : Turn A) : Option ArrayName :=
  match turn.request with
  | .materialize term => term.name?
  | .evaluate program operands | .evaluateTerm program operands =>
    (turn.combiner.evaluateTerm program operands #[]).1.toOption.bind Term.name?
  | .compile _ | .zeros _ | .zero | .clear => none

variable {turn : Turn A}

theorem answer_of_zeros {length : Nat} (zeros : turn.zeros? = some length) (store : ZeroStore A) :
    turn.returned? = none ∧ ∃ log, allocations log = allocations store.log ∧
      let handing := { store with log := log }.zeros turn.combiner.cache length
      turn.answer store = (.ok (.array handing.1.handout), handing.2) := by
  obtain ⟨combiner, request⟩ := turn
  cases request with
  | zeros size =>
    cases zeros
    exact ⟨rfl, store.log, rfl, rfl⟩
  | materialize term =>
    cases term with
    | zero size =>
      cases zeros
      exact ⟨rfl, store.log, rfl, rfl⟩
    | data samples name => cases zeros
  | evaluate program operands =>
    obtain ⟨log, kept, reached⟩ := (combiner.quiet_evaluateTerm program operands).exists_log store.log #[]
    simp only [zeros?] at zeros
    simp only [returned?, answer, Combiner.answer, Combiner.evaluate, reached]
    generalize (combiner.evaluateTerm program operands #[]).1 = outcome at zeros
    obtain _ | _ | _ := outcome <;> cases zeros
    exact ⟨rfl, log, kept, rfl⟩
  | compile source | evaluateTerm program operands | zero | clear => cases zeros

theorem serving?_of_zeros {length : Nat} (zeros : turn.zeros? = some length) (store : ZeroStore A) :
    turn.serving? store = turn.handed? store := by
  rw [serving?, zeros, Option.bind_some]

theorem zeros?_of_clear (clear : turn.request = .clear) : turn.zeros? = none := by
  rw [zeros?, clear]

theorem answer_of_clear (clear : turn.request = .clear) (store : ZeroStore A) :
    turn.answer store = (.ok .cleared, store.clear turn.combiner.cache) := by
  rw [answer, clear]
  rfl

/-- A turn that neither hands out zeros nor clears a cache leaves all of them alone. If it hands out an array, it is
the one that it hands back or a new one. -/
theorem answer_of_idle (idle : turn.zeros? = none) (kept : turn.request ≠ .clear) (store : ZeroStore A) :
    ∃ log, allocations log = allocations store.log ∧
      (turn.handed? store = none ∧ turn.returned? = none ∧ (turn.answer store).2 = { store with log := log } ∨
        turn.handed? store = some ({ store with log := log }.name turn.returned?).1 ∧
          (turn.answer store).2 = ({ store with log := log }.name turn.returned?).2) := by
  obtain ⟨combiner, request⟩ := turn
  cases request with
  | zeros size => cases idle
  | clear => exact (kept rfl).elim
  | zero => exact ⟨store.log, rfl, .inl ⟨rfl, rfl, rfl⟩⟩
  | materialize term =>
    cases term with
    | zero size => cases idle
    | data samples name => exact ⟨store.log, rfl, .inr ⟨rfl, rfl⟩⟩
  | compile source =>
    obtain ⟨log, same, reached⟩ := source.quiet_compileLogged.exists_log store.log #[]
    refine ⟨log, same, .inl ⟨?_, rfl, ?_⟩⟩
    · simp only [handed?, answer, Combiner.answer, reached]
      cases (source.compileLogged #[]).1 <;> rfl
    · simp only [answer, Combiner.answer, reached]
  | evaluateTerm program operands =>
    obtain ⟨log, same, reached⟩ := (combiner.quiet_evaluateTerm program operands).exists_log store.log #[]
    refine ⟨log, same, ?_⟩
    simp only [handed?, returned?, answer, Combiner.answer, reached]
    obtain halt | length | ⟨samples, name⟩ := (combiner.evaluateTerm program operands #[]).1
    · exact .inl ⟨rfl, rfl, rfl⟩
    · exact .inl ⟨rfl, rfl, rfl⟩
    · exact .inr ⟨rfl, rfl⟩
  | evaluate program operands =>
    obtain ⟨log, same, reached⟩ := (combiner.quiet_evaluateTerm program operands).exists_log store.log #[]
    refine ⟨log, same, ?_⟩
    simp only [zeros?] at idle
    simp only [handed?, returned?, answer, Combiner.answer, Combiner.evaluate, reached]
    generalize (combiner.evaluateTerm program operands #[]).1 = outcome at idle
    obtain halt | length | ⟨samples, name⟩ := outcome
    · exact .inl ⟨rfl, rfl, rfl⟩
    · cases idle
    · exact .inr ⟨rfl, rfl⟩

theorem answer_snd_of_idle (idle : turn.zeros? = none) (kept : turn.request ≠ .clear) (store : ZeroStore A) :
    ∃ log named, allocations log = allocations store.log ∧ store.named ≤ named ∧
      (turn.answer store).2 = { store with named := named, log := log } := by
  obtain ⟨log, same, ⟨_, _, reached⟩ | ⟨_, reached⟩⟩ := turn.answer_of_idle idle kept store
  · exact ⟨log, store.named, same, Nat.le_refl _, reached⟩
  · cases returned : turn.returned? with
    | some name => exact ⟨log, store.named, same, Nat.le_refl _, by rw [reached, returned]; rfl⟩
    | none => exact ⟨log, store.named + 1, same, Nat.le_succ _, by rw [reached, returned]; rfl⟩

end Turn

end SignalStrip
