import CellKernel.SpscQueue

/-
Calls made one after another on one queue. The abstract side is the bounded
FIFO; the wrap condition speaks only about how many items were accepted and
how many are held, never about the ring.
-/
namespace CellQueue
open CellFifo CellRing
variable {T : Type} {CAP : Nat}

inductive Call (T : Type) where
  | push (item : T)
  | pop
  deriving DecidableEq, Repr

/-- The calls do on q what they do on the bounded FIFO held, and no accepted
    push writes a slot that still holds an unread item. -/
inductive FifoRun : SpscQueue T CAP → Fifo T CAP → List (Call T) → Prop where
  | done (q : SpscQueue T CAP) (held : Fifo T CAP) : FifoRun q held []
  | pushOk {q r : SpscQueue T CAP} {held next : Fifo T CAP} {item : T} {rest : List (Call T)}
      (accepts : held.push item = some next)
      (unheld : q.buffer[slotIndex CAP q.head]? = some none)
      (ran : q.push item = .ok (.ok (), r))
      (later : FifoRun r next rest) : FifoRun q held (.push item :: rest)
  | pushFull {q : SpscQueue T CAP} {held : Fifo T CAP} {item : T} {rest : List (Call T)}
      (refuses : held.push item = none)
      (ran : q.push item = .ok (.error ⟨⟩, q))
      (later : FifoRun q held rest) : FifoRun q held (.push item :: rest)
  | popSome {q r : SpscQueue T CAP} {held next : Fifo T CAP} {item : T} {rest : List (Call T)}
      (oldest : held.pop = some (item, next))
      (ran : q.pop = .ok (some item, r))
      (later : FifoRun r next rest) : FifoRun q held (.pop :: rest)
  | popNone {q : SpscQueue T CAP} {held : Fifo T CAP} {rest : List (Call T)}
      (nothing : held.pop = none)
      (ran : q.pop = .ok (none, q))
      (later : FifoRun q held rest) : FifoRun q held (.pop :: rest)

/-- first items were popped and count are held. A push that the FIFO accepts
    must not be numbered past a multiple of 2^64 by less than 2^64 mod CAP
    while 2^64 mod CAP or more items are held. -/
def WrapSafe (CAP : Nat) : Nat → Nat → List (Call T) → Prop
  | _, _, [] => True
  | first, count, .push _ :: rest =>
      if count < CAP then ¬ Clashes (2 ^ 64) CAP first count ∧ WrapSafe CAP first (count + 1) rest
      else WrapSafe CAP first count rest
  | first, count, .pop :: rest =>
      if count = 0 then WrapSafe CAP first count rest
      else WrapSafe CAP (first + 1) (count - 1) rest

theorem wrap_safe_of_dvd (divides : CAP ∣ 2 ^ 64) (first count : Nat) (calls : List (Call T)) :
    WrapSafe CAP first count calls := by
  induction calls generalizing first count with
  | nil => trivial
  | cons call rest ih =>
    cases call with
    | push item =>
      simp only [WrapSafe]
      split
      · exact ⟨no_clash_of_dvd divides first count, ih _ _⟩
      · exact ih _ _
    | pop =>
      simp only [WrapSafe]
      split <;> exact ih _ _

theorem wrap_safe_of_few (first count : Nat) (calls : List (Call T))
    (few : first + count + calls.length ≤ 2 ^ 64) : WrapSafe CAP first count calls := by
  induction calls generalizing first count with
  | nil => trivial
  | cons call rest ih =>
    simp only [List.length_cons] at few
    cases call with
    | push item =>
      simp only [WrapSafe]
      split
      · exact ⟨no_clash_below (by omega), ih _ _ (by omega)⟩
      · exact ih _ _ (by omega)
    | pop =>
      simp only [WrapSafe]
      split <;> exact ih _ _ (by omega)

section
variable {q : SpscQueue T CAP} {first : Nat} {held : Fifo T CAP}
  (positive : 0 < CAP) (fits : CAP < 2 ^ 64) (tracks : Tracks q first held.items)

include positive fits tracks

theorem accepted_push_iff (item : T) (rest : List (Call T)) (room : held.items.length < CAP) :
    FifoRun q held (.push item :: rest) ↔ ¬ Clashes (2 ^ 64) CAP first held.items.length ∧
      ∃ r next, held.push item = some next ∧ q.push item = .ok (.ok (), r) ∧
        FifoRun r next rest := by
  have wrote := push_room positive fits tracks item room
  have index : slotIndex CAP q.head = _ := slot_index_eq tracks.head_eq
  constructor
  · intro run
    cases run with
    | pushOk accepts unheld ran later =>
      refine ⟨?_, _, _, accepts, ran, later⟩
      intro clash
      obtain ⟨old, _, occupied⟩ := clash_occupied fits tracks.holds room clash
      rw [index, occupied] at unheld
      simp at unheld
    | pushFull refuses ran later =>
      rw [push_none_iff] at refuses
      omega
  · rintro ⟨clear, r, next, accepts, ran, later⟩
    refine .pushOk accepts ?_ ran later
    rw [index]
    exact holds_next_blank fits tracks.holds room clear

theorem fifo_run_iff (calls : List (Call T)) :
    FifoRun q held calls ↔ WrapSafe CAP first held.items.length calls := by
  induction calls generalizing q first held with
  | nil => exact ⟨fun _ => trivial, fun _ => .done q held⟩
  | cons call rest ih =>
    cases call with
    | push item =>
      simp only [WrapSafe]
      split
      · rename_i room
        rw [accepted_push_iff positive fits tracks item rest room]
        have wrote := push_room positive fits tracks item room
        obtain ⟨next, accepts, shape⟩ := push_succeeds held item room
        have size : next.items.length = held.items.length + 1 := by simp [shape]
        refine and_congr_right fun clear => ?_
        have kept := push_tracks fits tracks item room clear
        rw [← shape] at kept
        rw [← size, ← ih kept]
        constructor
        · rintro ⟨r, other, same, ran, later⟩
          rw [wrote] at ran
          rw [accepts] at same
          simp only [Except.ok.injEq, Prod.mk.injEq, true_and] at ran
          simp only [Option.some.injEq] at same
          subst r; subst other
          exact later
        · intro later
          exact ⟨_, _, accepts, wrote, later⟩
      · rename_i noRoom
        have full : held.items.length = CAP := by have := held.bounded; omega
        rw [← ih tracks]
        constructor
        · intro run
          cases run with
          | pushOk accepts =>
            rw [push_some_iff] at accepts
            omega
          | pushFull _ _ later => exact later
        · intro later
          exact .pushFull ((push_none_iff held item).mpr full)
            (push_full positive fits tracks item full) later
    | pop =>
      simp only [WrapSafe]
      split
      · rename_i none
        have empty : held.items = [] := List.length_eq_zero_iff.mp none
        rw [← ih tracks]
        constructor
        · intro run
          cases run with
          | popSome oldest =>
            rw [pop_some_iff, empty] at oldest
            simp at oldest
          | popNone _ _ later => exact later
        · intro later
          exact .popNone ((pop_none_iff held).mpr empty) (pop_empty positive tracks empty) later
      · rename_i some
        obtain ⟨item, next, oldest, shape⟩ := pop_succeeds held (by
          intro empty
          exact some (by simp [empty]))
        have size : held.items.length - 1 = next.items.length := by simp [shape]
        have read := pop_oldest positive fits tracks shape
        rw [size, ← ih (pop_tracks tracks shape)]
        constructor
        · intro run
          cases run with
          | popSome other ran later =>
            rw [read] at ran
            rw [oldest] at other
            simp only [Except.ok.injEq, Prod.mk.injEq, Option.some.injEq] at ran other
            obtain ⟨rfl, rfl⟩ := ran
            obtain ⟨_, rfl⟩ := other
            exact later
          | popNone nothing =>
            rw [oldest] at nothing
            simp at nothing
        · intro later
          exact .popSome oldest read later

end

/-- Sequential calls on a fresh queue are those of a bounded FIFO exactly when
    they are safe at the wrap of the counters. -/
theorem spsc_fifo_iff_wrap_safe (positive : 0 < CAP) (fits : CAP < 2 ^ 64)
    (calls : List (Call T)) :
    FifoRun (SpscQueue.new : SpscQueue T CAP) Fifo.empty calls ↔ WrapSafe CAP 0 0 calls :=
  fifo_run_iff positive fits tracks_new calls

theorem spsc_fifo_short_run :
    FifoRun (SpscQueue.new : SpscQueue Nat 10) Fifo.empty [.push 7, .pop, .pop] ↔
      WrapSafe 10 0 0 [Call.push 7, .pop, .pop] :=
  spsc_fifo_iff_wrap_safe (by decide) (by decide) _

def alternate (item : T) : Nat → List (Call T)
  | 0 => []
  | n + 1 => .push item :: .pop :: alternate item n

/-- Bring both counters to n with nothing held, then push the batch. -/
def wrapCalls (n : Nat) (item : T) (batch : List T) : List (Call T) :=
  alternate item n ++ batch.map .push

theorem wrap_safe_alternate (positive : 0 < CAP) (item : T) (n first : Nat)
    (rest : List (Call T)) (safe : WrapSafe CAP first 0 (alternate item n ++ rest)) :
    WrapSafe CAP (first + n) 0 rest := by
  induction n generalizing first with
  | zero => exact safe
  | succ n ih =>
    simp only [alternate, List.cons_append, WrapSafe, positive, ↓reduceIte, Nat.zero_add,
      Nat.one_ne_zero, Nat.sub_self] at safe
    rw [show first + (n + 1) = first + 1 + n by omega]
    exact ih _ safe.2

theorem wrap_safe_pushes (batch : List T) (first count : Nat)
    (safe : WrapSafe CAP first count (batch.map Call.push)) {k : Nat} (inside : k < batch.length)
    (room : count + k < CAP) : ¬ Clashes (2 ^ 64) CAP first (count + k) := by
  induction batch generalizing count k with
  | nil => simp at inside
  | cons item batch ih =>
    simp only [List.map_cons, WrapSafe, show count < CAP by omega, ↓reduceIte] at safe
    cases k with
    | zero => exact safe.1
    | succ k =>
      simp only [List.length_cons] at inside
      have later := ih (count + 1) safe.2 (k := k) (by omega) (by omega)
      rwa [show count + 1 + k = count + (k + 1) by omega] at later

/-- For every capacity that does not divide 2^64 the wrap destroys an item: the
    push numbered 2^64 reuses the slot of the item 2^64 mod CAP before it. -/
theorem wrap_destroys (positive : 0 < CAP) (fits : CAP < 2 ^ 64) (uneven : ¬ CAP ∣ 2 ^ 64)
    (item : T) (batch : List T) (enough : 2 ^ 64 % CAP < batch.length) :
    ¬ FifoRun (SpscQueue.new : SpscQueue T CAP) Fifo.empty
      (wrapCalls (2 ^ 64 - 2 ^ 64 % CAP) item batch) := by
  intro run
  have safe := (fifo_run_iff positive fits tracks_new _).mp run
  have rest := wrap_safe_alternate positive item _ _ _ safe
  have short := Nat.mod_lt (2 ^ 64) positive
  have left : 2 ^ 64 % CAP ≠ 0 := fun zero => uneven (Nat.dvd_of_mod_eq_zero zero)
  apply wrap_safe_pushes batch _ _ rest enough (by omega)
  refine ⟨by omega, ?_, by omega⟩
  rw [show 0 + (2 ^ 64 - 2 ^ 64 % CAP) + (0 + 2 ^ 64 % CAP) = 2 ^ 64 by omega, Nat.mod_self]
  omega

theorem ten_slot_queue_breaks_at_wrap :
    ¬ FifoRun (SpscQueue.new : SpscQueue Nat 10) Fifo.empty
      (wrapCalls (2 ^ 64 - 6) 0 [1, 2, 3, 4, 5, 6, 7]) :=
  wrap_destroys (by decide) (by decide) (by decide) 0 _ (by decide)

/-- What one call did with the item it was given or asked for. -/
inductive Event (T : Type) where
  | accepted (item : T)
  | refused (item : T)
  | returned (item : T)
  | nothing
  deriving DecidableEq, Repr

def perform (q : SpscQueue T CAP) : Call T → Except Fault (Event T × SpscQueue T CAP)
  | .push item =>
      match q.push item with
      | .error fault => .error fault
      | .ok (.ok (), r) => .ok (.accepted item, r)
      | .ok (.error _, r) => .ok (.refused item, r)
  | .pop =>
      match q.pop with
      | .error fault => .error fault
      | .ok (some item, r) => .ok (.returned item, r)
      | .ok (none, r) => .ok (.nothing, r)

/-- The events up to the first fault, and the queue when there was none. -/
def play : SpscQueue T CAP → List (Call T) → List (Event T) × Except Fault (SpscQueue T CAP)
  | q, [] => ([], .ok q)
  | q, call :: rest =>
      match perform q call with
      | .error fault => ([], .error fault)
      | .ok (event, r) => (event :: (play r rest).1, (play r rest).2)

def acceptedItems (events : List (Event T)) : List T :=
  events.filterMap fun event => match event with | .accepted item => some item | _ => none

def refusedItems (events : List (Event T)) : List T :=
  events.filterMap fun event => match event with | .refused item => some item | _ => none

def returnedItems (events : List (Event T)) : List T :=
  events.filterMap fun event => match event with | .returned item => some item | _ => none

def passedItems (calls : List (Call T)) : List T :=
  calls.filterMap fun call => match call with | .push item => some item | .pop => none

/-- A push answers for its own item and a pop for none that was passed to it. -/
def Answers : Call T → Event T → Prop
  | .push item, event => event = .accepted item ∨ event = .refused item
  | .pop, event => event = .nothing ∨ ∃ item, event = .returned item

theorem answered_items_perm {calls : List (Call T)} {events : List (Event T)}
    (answers : List.Forall₂ Answers calls events) :
    (passedItems calls).Perm (acceptedItems events ++ refusedItems events) := by
  induction answers with
  | nil => exact .nil
  | @cons call event calls events answer _ ih =>
    cases call with
    | push item =>
      rcases answer with rfl | rfl
      · exact ih.cons item
      · exact (ih.cons item).trans List.perm_middle.symm
    | pop =>
      rcases answer with rfl | ⟨item, rfl⟩ <;> exact ih

section
variable {q : SpscQueue T CAP} {first : Nat} {held : List T}
  (positive : 0 < CAP) (fits : CAP < 2 ^ 64) (tracks : Tracks q first held)

include positive fits tracks

/-- One call in the wrap-safe range: it never faults, and it moves its item
    between the held items and the events. -/
theorem perform_tracks (call : Call T) (clear : ¬ Clashes (2 ^ 64) CAP first held.length) :
    ∃ event r held', perform q call = .ok (event, r) ∧ Answers call event ∧
      Tracks r (first + (returnedItems [event]).length) held' ∧
      held ++ acceptedItems [event] = returnedItems [event] ++ held' := by
  cases call with
  | push item =>
    by_cases room : held.length < CAP
    · refine ⟨.accepted item, _, held ++ [item], ?_, .inl rfl,
        push_tracks fits tracks item room clear, rfl⟩
      rw [perform, push_room positive fits tracks item room]
    · have full : held.length = CAP := by have := tracks.bounded; omega
      refine ⟨.refused item, q, held, ?_, .inr rfl, tracks, ?_⟩
      · rw [perform, push_full positive fits tracks item full]
      · simp [acceptedItems, returnedItems]
  | pop =>
    cases shape : held with
    | nil =>
      subst held
      refine ⟨.nothing, q, [], ?_, .inl rfl, tracks, rfl⟩
      rw [perform, pop_empty positive tracks rfl]
    | cons item rest =>
      refine ⟨.returned item, _, rest, ?_, .inr ⟨item, rfl⟩, pop_tracks tracks shape, ?_⟩
      · rw [perform, pop_oldest positive fits tracks shape]
      · simp [acceptedItems, returnedItems]

theorem play_tracks (calls : List (Call T))
    (range : CAP ∣ 2 ^ 64 ∨
      first + held.length + (acceptedItems (play q calls).1).length < 2 ^ 64) :
    ∃ r held', (play q calls).2 = .ok r ∧ List.Forall₂ Answers calls (play q calls).1 ∧
      Tracks r (first + (returnedItems (play q calls).1).length) held' ∧
      held ++ acceptedItems (play q calls).1 = returnedItems (play q calls).1 ++ held' := by
  induction calls generalizing q first held with
  | nil => exact ⟨q, held, rfl, .nil, tracks, by simp [play, acceptedItems, returnedItems]⟩
  | cons call rest ih =>
    have clear : ¬ Clashes (2 ^ 64) CAP first held.length := by
      rcases range with divides | few
      · exact no_clash_of_dvd divides _ _
      · exact no_clash_below (by omega)
    obtain ⟨event, r, held', ran, answer, kept, moved⟩ :=
      perform_tracks positive fits tracks call clear
    have events : play q (call :: rest) = (event :: (play r rest).1, (play r rest).2) := by
      rw [play, ran]
    have sizes := congrArg List.length moved
    simp only [List.length_append] at sizes
    have splitAccepted : acceptedItems (event :: (play r rest).1) =
        acceptedItems [event] ++ acceptedItems (play r rest).1 :=
      List.filterMap_append (l := [event])
    have splitReturned : returnedItems (event :: (play r rest).1) =
        returnedItems [event] ++ returnedItems (play r rest).1 :=
      List.filterMap_append (l := [event])
    rw [events] at range ⊢
    simp only [splitAccepted, splitReturned, List.length_append] at range ⊢
    obtain ⟨last, left, ended, answers, lastTracks, total⟩ :=
      ih kept (range.imp_right fun few => by omega)
    refine ⟨last, left, ended, .cons answer answers, ?_, ?_⟩
    · rwa [← Nat.add_assoc]
    · rw [← List.append_assoc, moved, List.append_assoc, total, List.append_assoc]

end

/-- Every item passed to push leaves the queue exactly once: refused on the
    spot, popped, or dropped with the queue after all popped ones. -/
theorem spsc_items_conserved (positive : 0 < CAP) (fits : CAP < 2 ^ 64) (calls : List (Call T))
    (range : CAP ∣ 2 ^ 64 ∨ (acceptedItems
      (play (SpscQueue.new : SpscQueue T CAP) calls).1).length < 2 ^ 64) :
    let events := (play (SpscQueue.new : SpscQueue T CAP) calls).1
    ∃ r dropped, (play (SpscQueue.new : SpscQueue T CAP) calls).2 = .ok r ∧
      r.drop = .ok dropped ∧
      dropped.length = (acceptedItems events).length - (returnedItems events).length ∧
      List.Forall₂ Answers calls events ∧
      acceptedItems events = returnedItems events ++ dropped ∧
      (passedItems calls).Perm (returnedItems events ++ dropped ++ refusedItems events) := by
  intro events
  obtain ⟨r, held, ended, answers, tracks, moved⟩ :=
    play_tracks positive fits tracks_new calls (by simpa using range)
  simp only [List.nil_append] at moved
  have total : acceptedItems events = returnedItems events ++ held := moved
  refine ⟨r, held, ended, drop_held positive fits tracks, ?_, answers, total, ?_⟩
  · rw [total, List.length_append, Nat.add_sub_cancel_left]
  · rw [← total]
    exact answered_items_perm answers

theorem spsc_items_conserved_two_slots :
    let events := (play (SpscQueue.new : SpscQueue Nat 2) [.push 1, .push 2, .push 3, .pop]).1
    ∃ r dropped, (play (SpscQueue.new : SpscQueue Nat 2)
        [.push 1, .push 2, .push 3, .pop]).2 = .ok r ∧
      r.drop = .ok dropped ∧
      dropped.length = (acceptedItems events).length - (returnedItems events).length ∧
      List.Forall₂ Answers [Call.push 1, .push 2, .push 3, .pop] events ∧
      acceptedItems events = returnedItems events ++ dropped ∧
      (passedItems [Call.push 1, .push 2, .push 3, .pop]).Perm
        (returnedItems events ++ dropped ++ refusedItems events) :=
  spsc_items_conserved (by decide) (by decide) _ (.inl (by decide))

end CellQueue
