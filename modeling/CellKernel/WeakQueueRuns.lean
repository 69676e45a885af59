import CellKernel.Runs
import CellKernel.WeakQueueReplies

/-
Runs of one producer and one consumer over memory with release and acquire
atomics: no access to a slot races, and what the calls return is what a bounded
first-in first-out queue returns, except that a call may act on an old counter.
-/
namespace CellWeak
open CellFifo CellInterleaving CellQueue CellRuns ReleaseAcquire
variable {T : Type} {CAP : Nat}

inductive Party where
  | producer
  | consumer
  deriving DecidableEq

inductive Counter where
  | head
  | tail
  deriving DecidableEq

/-- One queue alone in memory; the slots are numbered. -/
def onlyQueue : Place Party Counter Nat :=
  ⟨.head, .tail, id, .producer, .consumer, by decide, Function.injective_id⟩

structure WeakWorld (T : Type) (CAP : Nat) where
  memory : Memory Party Counter Nat UInt64
  ring : Ring Party Counter T CAP

inductive WeakAction (T : Type) where
  | push (a : PushAction T)
  | pop (a : PopAction T)

def WeakWorld.start : WeakWorld T CAP := ⟨Memory.start fun _ => 0, Ring.new⟩

def weakStep (w : WeakWorld T CAP) : WeakAction T → Option (WeakWorld T CAP)
  | .push a => (pushStep onlyQueue w.memory w.ring a).map fun (m, r) => ⟨m, r⟩
  | .pop a => (popStep onlyQueue w.memory w.ring a).map fun (m, r) => ⟨m, r⟩

def WeakWorld.held (w : WeakWorld T CAP) : List T :=
  w.ring.accepted.drop w.ring.returned.length

section
variable {w v : WeakWorld T CAP}

inductive WeakMove (w v : WeakWorld T CAP) : Prop where
  | push (move : PushMove onlyQueue w.memory w.ring v.memory v.ring)
  | pop (move : PopMove onlyQueue w.memory w.ring v.memory v.ring)

theorem weak_move {a : WeakAction T} (ran : weakStep w a = some v) : WeakMove w v := by
  cases a with
  | push a =>
    obtain ⟨⟨m, r⟩, moved, rfl⟩ := Option.map_eq_some_iff.mp ran
    exact .push (push_move moved)
  | pop a =>
    obtain ⟨⟨m, r⟩, moved, rfl⟩ := Option.map_eq_some_iff.mp ran
    exact .pop (pop_move moved)

theorem weak_accepted_grows (move : WeakMove w v) :
    w.ring.accepted.length ≤ v.ring.accepted.length := by
  rcases move with push | pop
  · rcases push_effect push with ⟨same, _⟩ | ⟨item, _, grown, _⟩
    · rw [same]
    · simp [grown]
  · rcases pop_effect pop with ⟨same, _⟩ | ⟨_, _, _, same, _⟩
    · rw [same]
    · rw [same]

theorem weak_invariant (fits : CAP < 2 ^ 64) (reached : Reachable weakStep WeakWorld.start w)
    (range : w.ring.InRange) : RingInv onlyQueue w.memory w.ring := by
  apply @holds_while _ _ _ _ _ (fun w : WeakWorld T CAP => w.ring.InRange)
    (fun w => RingInv onlyQueue w.memory w.ring) _ _ _ w reached range
  · exact ring_new _ onlyQueue rfl rfl
  · intro s a t ran later
    exact later.imp_right fun few => Nat.lt_of_le_of_lt (weak_accepted_grows (weak_move ran)) few
  · intro s a t within inv _ ran _
    rcases weak_move ran with push | pop
    · exact push_inv fits inv within push
    · exact pop_inv fits inv pop

end

/-- With the orderings of the source no access to a slot races with an earlier
    one: the producer writes only slots whose last item it knows to be read,
    the consumer reads only the oldest item, which it knows to be written. -/
theorem release_acquire_excludes_races (fits : CAP < 2 ^ 64) {w : WeakWorld T CAP}
    (reached : Reachable weakStep WeakWorld.start w)
    (range : CAP ∣ 2 ^ 64 ∨ w.ring.accepted.length < 2 ^ 64) :
    (∀ item head, w.ring.pusher = .admitted item head →
      ¬ w.memory.Races .producer (slotIndex CAP head) true ∧
        w.ring.buffer[slotIndex CAP head]? = some none) ∧
    (∀ tail, w.ring.popper = .admitted tail →
      ¬ w.memory.Races .consumer (slotIndex CAP tail) false ∧
        ∃ oldest, w.ring.accepted[w.ring.returned.length]? = some oldest ∧
          w.ring.buffer[slotIndex CAP tail]? = some (some oldest)) := by
  have inv := weak_invariant fits reached range
  constructor
  · intro item head here
    exact ⟨write_ordered fits inv range here, write_blank fits inv range here⟩
  · intro tail here
    obtain ⟨oldest, next, _, held⟩ := read_oldest inv here
    exact ⟨read_ordered fits inv range here, oldest, next, held⟩

theorem release_acquire_excludes_races_one_item : ∃ w : WeakWorld Nat 2,
    w.ring.accepted = [7] ∧ w.ring.popper = .admitted 0 ∧
      ¬ w.memory.Races .consumer (slotIndex 2 0) false := by
  have ran : (run weakStep (fun _ _ => True) (WeakWorld.start : WeakWorld Nat 2)
      [.push (.load 7 0), .push (.check 0), .push .write, .push (.publish 1), .pop (.load 0),
        .pop (.check 1)]).map (fun w =>
          decide (w.ring.accepted = [7] ∧ w.ring.popper = .admitted 0)) = some true := by
    decide
  obtain ⟨w, reached, shows⟩ := reaches_showing _ _ ran
  obtain ⟨accepted, here⟩ := of_decide_eq_true shows
  exact ⟨w, accepted, here,
    ((release_acquire_excludes_races (by decide) reached (Or.inl (by decide))).2 0 here).1⟩

/-- The calls are those of a bounded queue, published when a counter is stored.
    A push that is refused, or a pop that finds nothing, is told the truth
    about the newest counter that its thread knows of. -/
theorem weak_queue_refines_fifo (fits : CAP < 2 ^ 64) {w v : WeakWorld T CAP}
    (reached : Reachable weakStep WeakWorld.start w)
    (range : CAP ∣ 2 ^ 64 ∨ w.ring.accepted.length < 2 ^ 64) {a : WeakAction T}
    (ran : weakStep w a = some v) :
    w.ring.returned <+: w.ring.accepted ∧
    (∃ q q' : Fifo T CAP, q.items = w.held ∧ q'.items = v.held ∧
      ((v.ring.accepted = w.ring.accepted ∧ v.ring.returned = w.ring.returned) ∨
        (∃ item, v.ring.accepted = w.ring.accepted ++ [item] ∧
          v.ring.returned = w.ring.returned ∧ q.push item = some q') ∨
        ∃ item, v.ring.accepted = w.ring.accepted ∧
          v.ring.returned = w.ring.returned ++ [item] ∧ q.pop = some (item, q'))) ∧
    (∀ time, a = .push (.check time) → v.ring.pusher = .idle →
      ∀ known, Observed w.memory .producer .tail w.ring.tails known →
        known + CAP ≤ w.ring.accepted.length) ∧
    (∀ time, a = .pop (.check time) → v.ring.popper = .idle →
      ∀ known, Observed w.memory .consumer .head w.ring.heads known →
        known ≤ w.ring.returned.length) := by
  have inv := weak_invariant fits reached range
  have bounded : w.held.length ≤ CAP := held_short inv
  refine ⟨ring_returned_accepted inv, ?_, ?_, ?_⟩
  · cases a with
    | push a =>
      obtain ⟨⟨m, r⟩, moved, rfl⟩ := Option.map_eq_some_iff.mp ran
      have pushed := push_spec fits inv range moved
      rcases pushed.reply with ⟨_, same⟩ | ⟨_, same, _⟩ | ⟨item, _, _, accepted, _, short, grown⟩
      · have held : w.held = WeakWorld.held ⟨m, r⟩ := by
          rw [WeakWorld.held, WeakWorld.held, same, pushed.returned]
        exact ⟨⟨w.held, bounded⟩, ⟨w.held, bounded⟩, rfl, held, Or.inl ⟨same, pushed.returned⟩⟩
      · have held : w.held = WeakWorld.held ⟨m, r⟩ := by
          rw [WeakWorld.held, WeakWorld.held, same, pushed.returned]
        exact ⟨⟨w.held, bounded⟩, ⟨w.held, bounded⟩, rfl, held, Or.inl ⟨same, pushed.returned⟩⟩
      · obtain ⟨q', taken, items⟩ := push_succeeds ⟨w.held, bounded⟩ item short
        exact ⟨⟨w.held, bounded⟩, q', rfl, items.trans grown.symm,
          Or.inr (Or.inl ⟨item, accepted, pushed.returned, taken⟩)⟩
    | pop a =>
      obtain ⟨⟨m, r⟩, moved, rfl⟩ := Option.map_eq_some_iff.mp ran
      have popped := pop_spec fits inv moved
      rcases popped.reply with ⟨_, same⟩ | ⟨_, same, _⟩ | ⟨item, _, returned, _, shape⟩
      · have held : w.held = WeakWorld.held ⟨m, r⟩ := by
          rw [WeakWorld.held, WeakWorld.held, same, popped.accepted]
        exact ⟨⟨w.held, bounded⟩, ⟨w.held, bounded⟩, rfl, held, Or.inl ⟨popped.accepted, same⟩⟩
      · have held : w.held = WeakWorld.held ⟨m, r⟩ := by
          rw [WeakWorld.held, WeakWorld.held, same, popped.accepted]
        exact ⟨⟨w.held, bounded⟩, ⟨w.held, bounded⟩, rfl, held, Or.inl ⟨popped.accepted, same⟩⟩
      · have short : (WeakWorld.held ⟨m, r⟩).length ≤ CAP := held_short popped.inv
        exact ⟨⟨w.held, bounded⟩, ⟨WeakWorld.held ⟨m, r⟩, short⟩, rfl, rfl,
          Or.inr (Or.inr ⟨item, popped.accepted, returned, (pop_some_iff _ _ _).mpr shape⟩)⟩
  · rintro time rfl idle known observed
    obtain ⟨⟨m, r⟩, moved, rfl⟩ := Option.map_eq_some_iff.mp ran
    exact refused_truth fits inv moved idle observed
  · rintro time rfl idle known observed
    obtain ⟨⟨m, r⟩, moved, rfl⟩ := Option.map_eq_some_iff.mp ran
    exact empty_truth fits inv moved idle observed

/-- A push that loads the old tail is refused by the empty queue. -/
theorem weak_queue_refines_fifo_stale : ∃ w v : WeakWorld Nat 1, w.held = [] ∧
    weakStep w (.push (.check 0)) = some v ∧ v.ring.pusher = .idle ∧
      w.ring.returned <+: w.ring.accepted := by
  have ran : (run weakStep (fun _ _ => True) (WeakWorld.start : WeakWorld Nat 1)
      [.push (.load 7 0), .push (.check 0), .push .write, .push (.publish 1), .pop (.load 0),
        .pop (.check 1), .pop (.read 0), .pop (.release 1), .push (.load 8 1)]).map (fun w =>
          decide (w.held = [] ∧ (weakStep w (.push (.check 0))).any fun v =>
            v.ring.pusher = .idle)) = some true := by
    decide
  obtain ⟨w, reached, shows⟩ := reaches_showing _ _ ran
  obtain ⟨empty, refused⟩ := of_decide_eq_true shows
  obtain ⟨v, taken, idle⟩ := (Option.any_eq_true _ _).mp refused
  exact ⟨w, v, empty, taken, of_decide_eq_true idle,
    (weak_queue_refines_fifo (by decide) reached (Or.inl (by decide)) taken).1⟩

end CellWeak
