import CellKernel.EventLog
import CellKernel.QueueCounters

/-
Calls of is_empty and is_full beside one producer and one consumer. A call
loads head, then tail, in two steps, and any steps of others may come between.
The producer and the consumer make such a call only between their own
operations; other threads make one whenever they want.
-/
namespace CellChecks
open CellRuns CellQueue CellInterleaving

inductive Caller (Observer : Type) where
  | producer
  | consumer
  | observer (o : Observer)
  deriving DecidableEq

inductive Check where
  | isEmpty
  | isFull
  deriving DecidableEq

def Check.answer (CAP : Nat) (head tail : UInt64) : Check → Bool
  | .isEmpty => head == tail
  | .isFull => countersFull CAP head tail

/-- Where a caller is in a call. instants are the published counters since the
    call began; head is what it loaded, after pushed items were published. -/
inductive CheckPc where
  | idle
  | called (check : Check) (instants : List Instant)
  | headLoaded (check : Check) (head : UInt64) (instants : List Instant) (pushed : Nat)
  deriving DecidableEq

/-- A returned call, with the numbers of items published at its first load, and
    of items published and popped at its second. -/
structure Answer (Observer : Type) where
  caller : Caller Observer
  check : Check
  result : Bool
  instants : List Instant
  pushedBefore : Nat
  pushed : Nat
  popped : Nat
  deriving DecidableEq

inductive QueueEvent (Observer : Type) where
  | pushed (ok : Bool)
  | popped (found : Bool)
  | answered (answer : Answer Observer)
  deriving DecidableEq

structure Checked (Observer T : Type) (CAP : Nat) where
  world : World Unit Unit T CAP
  calls : Caller Observer → CheckPc
  log : List (QueueEvent Observer)

inductive CheckAction (Observer T : Type) where
  | queue (a : Action Unit Unit T)
  | call (caller : Caller Observer) (check : Check)
  | load (caller : Caller Observer)

variable {Observer T : Type} {CAP : Nat}

def Checked.new : Checked Observer T CAP := ⟨World.new, fun _ => .idle, []⟩

def partyOf : Action Unit Unit T → Caller Observer
  | .pushLoad _ _ | .pushCheck _ | .pushWrite _ | .pushPublish _ => .producer
  | .popLoad _ | .popCheck _ | .popRead _ _ | .popRelease _ => .consumer

def betweenOperations (w : World Unit Unit T CAP) : Caller Observer → Bool
  | .producer => (w.pusher ()).resting
  | .consumer => (w.popper ()).resting
  | .observer _ => true

/-- What a push or pop returns with the step, if it returns. -/
def outcome (w : World Unit Unit T CAP) : Action Unit Unit T → Option (QueueEvent Observer)
  | .pushCheck _ =>
      match w.pusher () with
      | .loaded _ head => if countersFull CAP head w.queue.tail then some (.pushed false) else none
      | _ => none
  | .pushPublish _ => some (.pushed true)
  | .popCheck _ =>
      match w.popper () with
      | .loaded tail => if tail = w.queue.head then some (.popped false) else none
      | _ => none
  | .popRelease _ => some (.popped true)
  | _ => none

def CheckPc.witness (instant : Instant) : CheckPc → CheckPc
  | .idle => .idle
  | .called check instants => .called check (instants ++ [instant])
  | .headLoaded check head instants pushed => .headLoaded check head (instants ++ [instant]) pushed

section
variable [DecidableEq Observer]

def Checked.moveCall (s : Checked Observer T CAP) (caller : Caller Observer) (pc : CheckPc) :
    Checked Observer T CAP :=
  { s with calls := Function.update s.calls caller pc }

def Checked.finish (s : Checked Observer T CAP) (caller : Caller Observer)
    (answer : Answer Observer) : Checked Observer T CAP :=
  { s with
    calls := Function.update s.calls caller .idle
    log := s.log ++ [.answered answer] }

def checkStep (s : Checked Observer T CAP) :
    CheckAction Observer T → Option (Checked Observer T CAP)
  | .queue a =>
      match s.calls (partyOf a) with
      | .idle =>
          match step s.world a with
          | none => none
          | some v => some ⟨v, fun caller => (s.calls caller).witness v.published,
              s.log ++ (outcome s.world a).toList⟩
      | _ => none
  | .call caller check =>
      match s.calls caller with
      | .idle =>
          if betweenOperations s.world caller then
            some (s.moveCall caller (.called check [s.world.published]))
          else none
      | _ => none
  | .load caller =>
      match s.calls caller with
      | .idle => none
      | .called check instants =>
          some (s.moveCall caller
            (.headLoaded check s.world.queue.head instants s.world.accepted.length))
      | .headLoaded check head instants pushed =>
          some (s.finish caller ⟨caller, check, check.answer CAP head s.world.queue.tail, instants,
            pushed, s.world.accepted.length, s.world.returned.length⟩)

section
variable {s t : Checked Observer T CAP}

theorem queue_cases {a : Action Unit Unit T} (taken : checkStep s (.queue a) = some t) :
    s.calls (partyOf a) = .idle ∧ ∃ v, step s.world a = some v ∧
      t = ⟨v, fun caller => (s.calls caller).witness v.published,
        s.log ++ (outcome s.world a).toList⟩ := by
  simp only [checkStep] at taken
  split at taken
  · rename_i resting
    split at taken
    · cases taken
    · rename_i v ran
      exact ⟨resting, v, ran, (Option.some.inj taken).symm⟩
  · cases taken

theorem call_cases {caller : Caller Observer} {check : Check}
    (taken : checkStep s (.call caller check) = some t) :
    s.calls caller = .idle ∧ betweenOperations s.world caller = true ∧
      t = s.moveCall caller (.called check [s.world.published]) := by
  simp only [checkStep] at taken
  split at taken
  · rename_i resting
    split at taken
    · rename_i between
      exact ⟨resting, between, (Option.some.inj taken).symm⟩
    · cases taken
  · cases taken

theorem load_cases {caller : Caller Observer} (taken : checkStep s (.load caller) = some t) :
    (∃ check instants, s.calls caller = .called check instants ∧
      t = s.moveCall caller
        (.headLoaded check s.world.queue.head instants s.world.accepted.length)) ∨
    ∃ check head instants pushed, s.calls caller = .headLoaded check head instants pushed ∧
      t = s.finish caller ⟨caller, check, check.answer CAP head s.world.queue.tail, instants,
        pushed, s.world.accepted.length, s.world.returned.length⟩ := by
  simp only [checkStep] at taken
  split at taken
  · cases taken
  · rename_i check instants here
    exact Or.inl ⟨check, instants, here, (Option.some.inj taken).symm⟩
  · rename_i check head instants pushed here
    exact Or.inr ⟨check, head, instants, pushed, here, (Option.some.inj taken).symm⟩

theorem check_appends {a : CheckAction Observer T} (taken : checkStep s a = some t) :
    t.log = s.log ∨ ∃ event, t.log = s.log ++ [event] := by
  cases a with
  | queue a =>
    obtain ⟨_, v, _, rfl⟩ := queue_cases taken
    cases outcome s.world a with
    | none => exact Or.inl (List.append_nil s.log)
    | some event => exact Or.inr ⟨event, rfl⟩
  | call caller check =>
    obtain ⟨_, _, rfl⟩ := call_cases taken
    exact Or.inl rfl
  | load caller =>
    rcases load_cases taken with ⟨check, instants, _, rfl⟩ | ⟨check, head, instants, pushed, _, rfl⟩
    · exact Or.inl rfl
    · exact Or.inr ⟨_, rfl⟩

end

theorem checked_counters (fits : CAP < 2 ^ 64) {s : Checked Observer T CAP}
    (reached : Reachable checkStep Checked.new s) : Counters s.world := by
  induction reached with
  | start => exact counters_new
  | next a before _ taken ih =>
    cases a with
    | queue a =>
      obtain ⟨_, v, ran, rfl⟩ := queue_cases taken
      exact counters_step fits ih ran
    | call caller check =>
      obtain ⟨_, _, rfl⟩ := call_cases taken
      exact ih
    | load caller =>
      rcases load_cases taken with ⟨check, instants, _, rfl⟩ | ⟨_, head, instants, pushed, _, rfl⟩
      · exact ih
      · exact ih

end

end CellChecks
