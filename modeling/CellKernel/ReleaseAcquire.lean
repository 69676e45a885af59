import Mathlib.Data.List.Basic
import Mathlib.Logic.Function.Basic
import Mathlib.Order.BoundedOrder.Lattice
import Mathlib.Order.MinMax

/-
Memory that threads share through release and acquire atomics. A location keeps
every message stored to it, each at a time of its own: a store takes a free time
later than what its thread knows of the location, and a load returns any message
not earlier than that. A message of a release store carries the view of its
thread, and an acquire load adds it to the reader's view. Accesses to cells are
not atomic: two of them, one a write, race unless a view orders them.
-/
namespace ReleaseAcquire
variable {Thread Loc Cell Value : Type}

/-- seen is the latest known time of each location, clock the number of cell
    accesses of each thread that are known to be over. -/
structure View (Thread Loc : Type) where
  seen : Loc → Nat
  clock : Thread → Nat

instance : SemilatticeSup (View Thread Loc) where
  le v w := (∀ l, v.seen l ≤ w.seen l) ∧ ∀ i, v.clock i ≤ w.clock i
  le_refl v := ⟨fun _ => Nat.le_refl _, fun _ => Nat.le_refl _⟩
  le_trans _ _ _ first second :=
    ⟨fun l => (first.1 l).trans (second.1 l), fun i => (first.2 i).trans (second.2 i)⟩
  le_antisymm v w upto back := by
    cases v
    cases w
    congr
    · funext l
      exact Nat.le_antisymm (upto.1 l) (back.1 l)
    · funext i
      exact Nat.le_antisymm (upto.2 i) (back.2 i)
  sup v w := ⟨fun l => max (v.seen l) (w.seen l), fun i => max (v.clock i) (w.clock i)⟩
  le_sup_left _ _ := ⟨fun _ => Nat.le_max_left _ _, fun _ => Nat.le_max_left _ _⟩
  le_sup_right _ _ := ⟨fun _ => Nat.le_max_right _ _, fun _ => Nat.le_max_right _ _⟩
  sup_le _ _ _ first second :=
    ⟨fun l => Nat.max_le.mpr ⟨first.1 l, second.1 l⟩,
      fun i => Nat.max_le.mpr ⟨first.2 i, second.2 i⟩⟩

instance : OrderBot (View Thread Loc) where
  bot := ⟨fun _ => 0, fun _ => 0⟩
  bot_le _ := ⟨fun _ => Nat.zero_le _, fun _ => Nat.zero_le _⟩

@[simp] theorem bot_seen (l : Loc) : (⊥ : View Thread Loc).seen l = 0 := rfl

@[simp] theorem sup_seen (v w : View Thread Loc) (l : Loc) :
    (v ⊔ w).seen l = max (v.seen l) (w.seen l) := rfl

structure Message (Thread Loc Value : Type) where
  value : Value
  view : View Thread Loc

/-- The epoch of an access is its number among those of its thread. -/
structure Access (Thread : Type) where
  thread : Thread
  epoch : Nat
  writes : Bool

structure Memory (Thread Loc Cell Value : Type) where
  views : Thread → View Thread Loc
  messages : Loc → Nat → Option (Message Thread Loc Value)
  accesses : Cell → List (Access Thread)

inductive LoadOrder where
  | relaxed
  | acquire

inductive StoreOrder where
  | relaxed
  | release

def LoadOrder.gain : LoadOrder → View Thread Loc → View Thread Loc
  | .relaxed, _ => ⊥
  | .acquire, view => view

def Memory.start (initial : Loc → Value) : Memory Thread Loc Cell Value where
  views _ := ⊥
  messages l time := if time = 0 then some ⟨initial l, ⊥⟩ else none
  accesses _ := []

section
variable [DecidableEq Thread] [DecidableEq Loc]

def View.see (v : View Thread Loc) (l : Loc) (time : Nat) : View Thread Loc :=
  { v with seen := Function.update v.seen l (max (v.seen l) time) }

def View.tick (v : View Thread Loc) (i : Thread) : View Thread Loc :=
  { v with clock := Function.update v.clock i (v.clock i + 1) }

def StoreOrder.carry (order : StoreOrder) (l : Loc) (time : Nat) (view : View Thread Loc) :
    View Thread Loc :=
  match order with
  | .relaxed => View.see ⊥ l time
  | .release => view

variable (m : Memory Thread Loc Cell Value) (i : Thread) (l : Loc) (time : Nat)

def Memory.learn (view : View Thread Loc) : Memory Thread Loc Cell Value :=
  { m with views := Function.update m.views i view }

def Memory.put (message : Message Thread Loc Value) : Memory Thread Loc Cell Value :=
  { m with
    messages := Function.update m.messages l
      (Function.update (m.messages l) time (some message)) }

def Memory.load (order : LoadOrder) : Option (Value × Memory Thread Loc Cell Value) :=
  if (m.views i).seen l ≤ time then
    (m.messages l time).map fun message =>
      (message.value, m.learn i ((m.views i).see l time ⊔ order.gain message.view))
  else none

def Memory.store (order : StoreOrder) (value : Value) : Option (Memory Thread Loc Cell Value) :=
  if (m.views i).seen l < time ∧ (m.messages l time).isNone then
    let view := (m.views i).see l time
    some ((m.put l time ⟨value, order.carry l time view⟩).learn i view)
  else none

/-- A read-modify-write: its message takes the time right after the one it
    read, and keeps that one's view. -/
def Memory.exchange (load : LoadOrder) (store : StoreOrder) (change : Value → Value) :
    Option (Value × Memory Thread Loc Cell Value) :=
  if (m.views i).seen l ≤ time ∧ (m.messages l (time + 1)).isNone then
    (m.messages l time).map fun message =>
      let view := (m.views i).see l (time + 1) ⊔ load.gain message.view
      (message.value, (m.put l (time + 1)
        ⟨change message.value, store.carry l (time + 1) view ⊔ message.view⟩).learn i view)
  else none

def Memory.access [DecidableEq Cell] (c : Cell) (writes : Bool) : Memory Thread Loc Cell Value :=
  { m.learn i ((m.views i).tick i) with
    accesses := Function.update m.accesses c
      (⟨i, (m.views i).clock i + 1, writes⟩ :: m.accesses c) }

/-- An access of thread i to the cell would not be ordered after one of the
    conflicting accesses already made. -/
def Memory.Races (c : Cell) (writes : Bool) : Prop :=
  ∃ a ∈ m.accesses c, (a.writes || writes) ∧ (m.views i).clock a.thread < a.epoch

instance (writes : Bool) (c : Cell) : Decidable (m.Races i c writes) :=
  inferInstanceAs (Decidable (∃ a ∈ _, _))

def Memory.HasView (view : View Thread Loc) : Prop :=
  (∃ j, m.views j = view) ∨ ∃ l time message, m.messages l time = some message ∧
    message.view = view

end

section
variable {m m' : Memory Thread Loc Cell Value} {i j : Thread} {l k : Loc} {time : Nat}
  {value : Value} {view : View Thread Loc}

section
variable [DecidableEq Loc]

theorem le_see (view : View Thread Loc) (l : Loc) (time : Nat) : view ≤ view.see l time := by
  constructor
  · intro k
    by_cases same : k = l
    · subst k
      simp [View.see]
    · simp [View.see, same]
  · intro i
    exact Nat.le_refl _

@[simp] theorem see_self : (view.see l time).seen l = max (view.seen l) time := by
  simp [View.see]

theorem see_other (other : k ≠ l) : (view.see l time).seen k = view.seen k := by
  simp [View.see, other]

theorem put_messages (message : Message Thread Loc Value) (k : Loc) (t : Nat) :
    (m.put l time message).messages k t =
      if k = l ∧ t = time then some message else m.messages k t := by
  by_cases place : k = l
  · subst k
    by_cases moment : t = time
    · subst t
      simp [Memory.put]
    · simp [Memory.put, moment]
  · simp [Memory.put, place]

theorem has_view_put {message : Message Thread Loc Value} {v : View Thread Loc}
    (has : (m.put l time message).HasView v) : v = message.view ∨ m.HasView v := by
  rcases has with thread | ⟨k, t, found, here, same⟩
  · exact Or.inr (Or.inl thread)
  · rw [put_messages] at here
    split at here
    · cases here
      exact Or.inl same.symm
    · exact Or.inr (Or.inr ⟨k, t, found, here, same⟩)

end

section
variable [DecidableEq Thread]

theorem le_tick (view : View Thread Loc) (i : Thread) : view ≤ view.tick i := by
  constructor
  · intro l
    exact Nat.le_refl _
  · intro j
    by_cases same : j = i
    · subst j
      simp [View.tick]
    · simp [View.tick, same]

@[simp] theorem learn_self : (m.learn i view).views i = view := by
  simp [Memory.learn]

theorem learn_other (other : j ≠ i) : (m.learn i view).views j = m.views j := by
  simp [Memory.learn, other]

theorem learn_grows (grows : m.views i ≤ view) (j : Thread) :
    m.views j ≤ (m.learn i view).views j := by
  by_cases same : j = i
  · subst j
    rw [learn_self]
    exact grows
  · rw [learn_other same]

theorem has_view_learn {v : View Thread Loc} (has : (m.learn i view).HasView v) :
    v = view ∨ m.HasView v := by
  rcases has with ⟨j, same⟩ | message
  · by_cases self : j = i
    · subst j
      rw [learn_self] at same
      exact Or.inl same.symm
    · rw [learn_other self] at same
      exact Or.inr (Or.inl ⟨j, same⟩)
  · exact Or.inr (Or.inr message)

end

variable [DecidableEq Thread] [DecidableEq Loc]

theorem load_cases {order : LoadOrder} (ran : m.load i l time order = some (value, m')) :
    ∃ message, (m.views i).seen l ≤ time ∧ m.messages l time = some message ∧
      value = message.value ∧
      m' = m.learn i ((m.views i).see l time ⊔ order.gain message.view) := by
  unfold Memory.load at ran
  split at ran
  · rename_i late
    obtain ⟨message, found, same⟩ := Option.map_eq_some_iff.mp ran
    cases same
    exact ⟨message, late, found, rfl, rfl⟩
  · cases ran

theorem store_cases {order : StoreOrder} (ran : m.store i l time order value = some m') :
    (m.views i).seen l < time ∧ m.messages l time = none ∧
      m' = (m.put l time ⟨value, order.carry l time ((m.views i).see l time)⟩).learn i
        ((m.views i).see l time) := by
  unfold Memory.store at ran
  split at ran
  · rename_i free
    cases ran
    exact ⟨free.1, Option.isNone_iff_eq_none.mp free.2, rfl⟩
  · cases ran

theorem exchange_cases {load : LoadOrder} {store : StoreOrder} {change : Value → Value}
    (ran : m.exchange i l time load store change = some (value, m')) :
    ∃ message, (m.views i).seen l ≤ time ∧ m.messages l time = some message ∧
      m.messages l (time + 1) = none ∧ value = message.value ∧
      m' = (m.put l (time + 1) ⟨change message.value,
        store.carry l (time + 1) ((m.views i).see l (time + 1) ⊔ load.gain message.view) ⊔
          message.view⟩).learn i
          ((m.views i).see l (time + 1) ⊔ load.gain message.view) := by
  unfold Memory.exchange at ran
  split at ran
  · rename_i free
    obtain ⟨message, found, same⟩ := Option.map_eq_some_iff.mp ran
    cases same
    exact ⟨message, free.1, found, Option.isNone_iff_eq_none.mp free.2, rfl, rfl⟩
  · cases ran

end

/-- The view knows what is known of the messages of l that it has seen, and has
    seen none later than upto. -/
def Sound (log : List (Nat × Message Thread Loc Value)) (l : Loc) (upto : Nat)
    (view : View Thread Loc) : Prop :=
  view.seen l ≤ upto ∧ ∀ e ∈ log, e.1 ≤ view.seen l → e.2.view ≤ view

/-- Only one thread stores to the location, with release stores, and the others
    load it with acquire. log is its messages in order. -/
structure Published (m : Memory Thread Loc Cell Value) (l : Loc) (writer : Thread)
    (log : List (Nat × Message Thread Loc Value)) : Prop where
  first : ∃ value rest, log = (0, ⟨value, ⊥⟩) :: rest
  there : ∀ time message, m.messages l time = some message ↔ (time, message) ∈ log
  increasing : log.Pairwise fun a b => a.1 < b.1
  self : ∀ e ∈ log, e.1 ≤ e.2.view.seen l
  written : ∃ e ∈ log, (m.views writer).seen l ≤ e.1
  sound : ∀ view, m.HasView view → Sound log l ((m.views writer).seen l) view

def Observed (m : Memory Thread Loc Cell Value) (i : Thread) (l : Loc)
    (log : List (Nat × Message Thread Loc Value)) (n : Nat) : Prop :=
  ∃ e, log[n]? = some e ∧ e.1 ≤ (m.views i).seen l

section
variable {m m' : Memory Thread Loc Cell Value} {i writer : Thread} {l k : Loc} {time : Nat}
  {value : Value} {view other : View Thread Loc}
  {log : List (Nat × Message Thread Loc Value)} {upto : Nat}

theorem sound_later {later : Nat} (sound : Sound log l upto view) (up : upto ≤ later) :
    Sound log l later view :=
  ⟨sound.1.trans up, sound.2⟩

theorem sound_sup (one : Sound log l upto view) (two : Sound log l upto other) :
    Sound log l upto (view ⊔ other) := by
  constructor
  · exact Nat.max_le.mpr ⟨one.1, two.1⟩
  · intro e member known
    rcases le_max_iff.mp known with left | right
    · exact (one.2 e member left).trans le_sup_left
    · exact (two.2 e member right).trans le_sup_right

theorem sound_bot (pub : Published m l writer log) (upto : Nat) : Sound log l upto ⊥ := by
  constructor
  · exact Nat.zero_le _
  · intro e member early
    obtain ⟨value, rest, shape⟩ := pub.first
    have increasing := pub.increasing
    rw [shape] at member increasing
    rcases List.mem_cons.mp member with same | later
    · rw [same]
    · have positive := (List.pairwise_cons.mp increasing).1 e later
      rw [bot_seen] at early
      omega

theorem published_start (initial : Loc → Value) (l : Loc) (writer : Thread) :
    Published (Memory.start initial : Memory Thread Loc Cell Value) l writer
      [(0, ⟨initial l, ⊥⟩)] := by
  have views : ∀ view, (Memory.start initial : Memory Thread Loc Cell Value).HasView view →
      view = ⊥ := by
    rintro view (⟨j, same⟩ | ⟨k, t, message, here, same⟩)
    · exact same.symm
    · simp only [Memory.start] at here
      split at here
      · cases here
        exact same.symm
      · cases here
  constructor
  · exact ⟨initial l, [], rfl⟩
  · intro time message
    simp only [Memory.start, List.mem_singleton, Prod.mk.injEq]
    split
    · rename_i zero
      simp [zero, eq_comm]
    · rename_i later
      simp [later]
  · exact List.pairwise_singleton ..
  · intro e member
    rw [List.mem_singleton.mp member]
    exact Nat.zero_le _
  · exact ⟨_, List.mem_singleton_self _, Nat.le_refl _⟩
  · intro view has
    rw [views view has]
    constructor
    · exact Nat.zero_le _
    · intro e member _
      rw [List.mem_singleton.mp member]

theorem writer_knows (pub : Published m l writer log) {e : Nat × Message Thread Loc Value}
    (member : e ∈ log) : e.1 ≤ (m.views writer).seen l := by
  have has : m.HasView e.2.view :=
    Or.inr ⟨l, e.1, e.2, (pub.there e.1 e.2).mpr member, rfl⟩
  exact (pub.self e member).trans (pub.sound _ has).1

theorem sound_thread (pub : Published m l writer log) (i : Thread) :
    Sound log l ((m.views writer).seen l) (m.views i) :=
  pub.sound _ (Or.inl ⟨i, rfl⟩)

theorem sound_gain (pub : Published m l writer log) {message : Message Thread Loc Value}
    (found : m.messages k time = some message) (order : LoadOrder) :
    Sound log l ((m.views writer).seen l) (order.gain message.view) := by
  cases order with
  | relaxed => exact sound_bot pub _
  | acquire => exact pub.sound _ (Or.inr ⟨k, time, message, found, rfl⟩)

theorem observed_grows {n : Nat} (observed : Observed m i l log n)
    (grows : m.views i ≤ m'.views i) : Observed m' i l log n := by
  obtain ⟨e, there, known⟩ := observed
  exact ⟨e, there, known.trans (grows.1 l)⟩

theorem observed_append {n : Nat} (observed : Observed m i l log n)
    (more : List (Nat × Message Thread Loc Value)) : Observed m i l (log ++ more) n := by
  obtain ⟨e, there, known⟩ := observed
  have inside := (List.getElem?_eq_some_iff.mp there).1
  exact ⟨e, by rw [List.getElem?_append_left inside]; exact there, known⟩

/-- A thread that knows of a message knows what its writer knew. -/
theorem observed_view {n : Nat} (pub : Published m l writer log) (observed : Observed m i l log n)
    {e : Nat × Message Thread Loc Value} (there : log[n]? = some e) : e.2.view ≤ m.views i := by
  obtain ⟨e', there', known⟩ := observed
  rw [there] at there'
  cases there'
  exact (sound_thread pub i).2 e (List.mem_of_getElem? there) known

theorem writer_observes {n : Nat} (pub : Published m l writer log) (inside : n < log.length) :
    Observed m writer l log n :=
  ⟨log[n], List.getElem?_eq_getElem inside, writer_knows pub (List.getElem_mem inside)⟩

theorem start_observed (pub : Published m l writer log) (i : Thread) : Observed m i l log 0 := by
  obtain ⟨value, rest, shape⟩ := pub.first
  exact ⟨_, by rw [shape]; rfl, Nat.zero_le _⟩

section
variable [DecidableEq Loc]

theorem sound_see_other (sound : Sound log l upto view) (apart : l ≠ k) :
    Sound log l upto (view.see k time) := by
  unfold Sound
  rw [see_other apart]
  exact ⟨sound.1, fun e member known => (sound.2 e member known).trans (le_see ..)⟩

theorem published_put_other (pub : Published m l writer log) (apart : l ≠ k)
    {message : Message Thread Loc Value}
    (sound : Sound log l ((m.views writer).seen l) message.view) :
    Published (m.put k time message) l writer log := by
  refine ⟨pub.first, ?_, pub.increasing, pub.self, pub.written, ?_⟩
  · intro t found
    rw [put_messages, if_neg (fun here => apart here.1)]
    exact pub.there t found
  · intro v has
    rcases has_view_put has with same | old
    · rw [same]
      exact sound
    · exact pub.sound v old

end

section
variable [DecidableEq Thread]

theorem sound_tick (sound : Sound log l upto view) : Sound log l upto (view.tick i) :=
  ⟨sound.1, fun e member known => (sound.2 e member known).trans (le_tick ..)⟩

theorem published_learn (pub : Published m l writer log) (grows : m.views i ≤ view)
    (closed : ∀ e ∈ log, e.1 ≤ view.seen l → e.2.view ≤ view)
    (upto : view.seen l ≤ (m.views writer).seen l) :
    Published (m.learn i view) l writer log := by
  have further := learn_grows grows writer
  refine ⟨pub.first, pub.there, pub.increasing, pub.self, ?_, ?_⟩
  · obtain ⟨e, member, last⟩ := pub.written
    refine ⟨e, member, ?_⟩
    by_cases own : writer = i
    · rw [own, learn_self]
      exact upto.trans last
    · rw [learn_other own]
      exact last
  · intro v has
    rcases has_view_learn has with same | old
    · rw [same]
      exact ⟨upto.trans (further.1 l), closed⟩
    · exact sound_later (pub.sound v old) (further.1 l)

theorem published_access [DecidableEq Cell] (pub : Published m l writer log) (i : Thread) (c : Cell)
    (writes : Bool) : Published (m.access i c writes) l writer log := by
  have sound := sound_tick (i := i) (sound_thread pub i)
  have learned := published_learn pub (le_tick (m.views i) i) sound.2 sound.1
  exact ⟨learned.first, learned.there, learned.increasing, learned.self, learned.written,
    learned.sound⟩

end

variable [DecidableEq Thread] [DecidableEq Loc]

/-- A release store of the writer comes after all messages. -/
theorem published_append (pub : Published m l writer log)
    (late : (m.views writer).seen l < time) (here : view.seen l = time)
    (closed : ∀ e ∈ log, e.2.view ≤ view) :
    Published ((m.put l time ⟨value, view⟩).learn writer view) l writer
      (log ++ [(time, ⟨value, view⟩)]) := by
  have earlier : ∀ e ∈ log, e.1 < time := fun e member => by
    have known := writer_knows pub member
    omega
  constructor
  · obtain ⟨start, rest, shape⟩ := pub.first
    exact ⟨start, rest ++ [(time, ⟨value, view⟩)], by rw [shape]; rfl⟩
  · intro t found
    change (m.put l time ⟨value, view⟩).messages l t = some found ↔ _
    rw [put_messages, List.mem_append, List.mem_singleton, Prod.mk.injEq, ← pub.there]
    by_cases same : t = time
    · subst t
      have fresh : m.messages l time ≠ some found := by
        intro old
        have before := earlier _ ((pub.there time found).mp old)
        simp only at before
        omega
      rw [if_pos ⟨rfl, rfl⟩, Option.some.injEq, eq_comm]
      simp only [true_and, iff_or_self]
      exact fun old => absurd old fresh
    · simp [same]
  · rw [List.pairwise_append]
    refine ⟨pub.increasing, List.pairwise_singleton .., ?_⟩
    intro e member new last
    rw [List.mem_singleton.mp last]
    exact earlier e member
  · intro e member
    rcases List.mem_append.mp member with old | new
    · exact pub.self e old
    · rw [List.mem_singleton.mp new]
      exact here.ge
  · refine ⟨(time, ⟨value, view⟩), by simp, ?_⟩
    rw [learn_self, here]
  · intro v has
    have own : Sound (log ++ [(time, ⟨value, view⟩)]) l time view := by
      refine ⟨here.le, ?_⟩
      intro e member _
      rcases List.mem_append.mp member with old | new
      · exact closed e old
      · rw [List.mem_singleton.mp new]
    rw [learn_self, here]
    rcases has_view_learn has with same | put
    · rw [same]
      exact own
    · rcases has_view_put put with same | old
      · rw [same]
        exact own
      · obtain ⟨bound, known⟩ := pub.sound v old
        refine ⟨by omega, ?_⟩
        intro e member upto
        rcases List.mem_append.mp member with before | new
        · exact known e before upto
        · rw [List.mem_singleton.mp new] at upto
          simp only at upto
          omega

/-- A load keeps the location published, unless another thread loads the
    location itself with a relaxed load. -/
theorem published_load {order : LoadOrder} (pub : Published m l writer log)
    (ran : m.load i k time order = some (value, m'))
    (allowed : l = k → order = .acquire ∨ i = writer) : Published m' l writer log := by
  obtain ⟨message, late, found, _, rfl⟩ := load_cases ran
  have grows : m.views i ≤ (m.views i).see k time ⊔ order.gain message.view :=
    (le_see ..).trans le_sup_left
  by_cases same : l = k
  · subst k
    have member := (pub.there time message).mp found
    have own := sound_thread pub i
    have gained := sound_gain pub found order
    have known := writer_knows pub member
    have self := pub.self _ member
    simp only at known self
    refine published_learn pub grows ?_ ?_
    · intro e inLog upto
      rw [sup_seen, see_self, le_max_iff, le_max_iff] at upto
      rcases upto with (before | before) | before
      · exact (own.2 e inLog before).trans grows
      · rcases allowed rfl with rfl | rfl
        · exact (gained.2 e inLog (before.trans self)).trans le_sup_right
        · exact (own.2 e inLog (before.trans known)).trans grows
      · exact (gained.2 e inLog before).trans le_sup_right
    · rw [sup_seen, see_self]
      exact Nat.max_le.mpr ⟨Nat.max_le.mpr ⟨own.1, known⟩, gained.1⟩
  · have seen : Sound log l ((m.views writer).seen l) ((m.views i).see k time) :=
      sound_see_other (sound_thread pub i) same
    have sound := sound_sup seen (sound_gain pub found order)
    exact published_learn pub grows sound.2 sound.1

theorem published_store_other {order : StoreOrder} (pub : Published m l writer log)
    (ran : m.store i k time order value = some m') (apart : l ≠ k) :
    Published m' l writer log := by
  obtain ⟨_, _, rfl⟩ := store_cases ran
  have sound : Sound log l ((m.views writer).seen l) ((m.views i).see k time) :=
    sound_see_other (sound_thread pub i) apart
  have carried : Sound log l ((m.views writer).seen l)
      (order.carry k time ((m.views i).see k time)) := by
    cases order with
    | relaxed => exact sound_see_other (sound_bot pub _) apart
    | release => exact sound
  exact published_learn (published_put_other pub apart carried) (le_see ..) sound.2
    sound.1

theorem published_store (pub : Published m l writer log)
    (ran : m.store writer l time .release value = some m') :
    Published m' l writer (log ++ [(time, ⟨value, m'.views writer⟩)]) := by
  obtain ⟨late, _, rfl⟩ := store_cases ran
  rw [learn_self]
  simp only [StoreOrder.carry]
  apply published_append pub late
  · rw [see_self]
    omega
  · intro e member
    exact ((sound_thread pub writer).2 e member (writer_knows pub member)).trans (le_see ..)

theorem published_exchange_other {load : LoadOrder} {store : StoreOrder}
    {change : Value → Value} (pub : Published m l writer log)
    (ran : m.exchange i k time load store change = some (value, m')) (apart : l ≠ k) :
    Published m' l writer log := by
  obtain ⟨message, _, found, _, _, rfl⟩ := exchange_cases ran
  have seen : Sound log l ((m.views writer).seen l) ((m.views i).see k (time + 1)) :=
    sound_see_other (sound_thread pub i) apart
  have sound := sound_sup seen (sound_gain pub found load)
  have carried : Sound log l ((m.views writer).seen l)
      (store.carry k (time + 1) ((m.views i).see k (time + 1) ⊔ load.gain message.view)) := by
    cases store with
    | relaxed => exact sound_see_other (sound_bot pub _) apart
    | release => exact sound
  have kept := sound_sup carried (sound_gain pub found .acquire)
  exact published_learn (published_put_other pub apart kept)
    ((le_see ..).trans le_sup_left) sound.2 sound.1

/-- A release read-modify-write of the writer changes the last message. -/
theorem published_exchange {load : LoadOrder} {change : Value → Value}
    (pub : Published m l writer log)
    (ran : m.exchange writer l time load .release change = some (value, m')) :
    Published m' l writer (log ++ [(time + 1, ⟨change value, m'.views writer⟩)]) := by
  obtain ⟨message, late, found, _, rfl, rfl⟩ := exchange_cases ran
  have own := sound_thread pub writer
  have member := (pub.there time message).mp found
  have known : message.view ≤ m.views writer := own.2 _ member (writer_knows pub member)
  have gained : load.gain message.view ≤ m.views writer := by
    cases load with
    | relaxed => exact bot_le
    | acquire => exact known
  have grows := le_see (m.views writer) l (time + 1)
  rw [learn_self]
  simp only [StoreOrder.carry]
  rw [sup_eq_left.mpr (gained.trans grows), sup_eq_left.mpr (known.trans grows)]
  apply published_append pub (by omega)
  · rw [see_self]
    omega
  · intro e inLog
    exact (own.2 e inLog (writer_knows pub inLog)).trans grows

/-- A load returns a message not older than any the thread knows of. -/
theorem load_observes {order : LoadOrder} (pub : Published m l writer log)
    (ran : m.load i l time order = some (value, m')) :
    ∃ n message, log[n]? = some (time, message) ∧ value = message.value ∧
      Observed m' i l log n ∧ ∀ k, Observed m i l log k → k ≤ n := by
  obtain ⟨message, late, found, same, rfl⟩ := load_cases ran
  obtain ⟨n, inside, there⟩ := List.mem_iff_getElem.mp ((pub.there time message).mp found)
  have at_n : log[n]? = some (time, message) := by
    rw [List.getElem?_eq_getElem inside, there]
  refine ⟨n, message, at_n, same, ⟨_, at_n, ?_⟩, ?_⟩
  · rw [learn_self, sup_seen, see_self]
    omega
  · rintro k ⟨e, at_k, known⟩
    by_contra later
    obtain ⟨insideK, thereK⟩ := List.getElem?_eq_some_iff.mp at_k
    have before := List.pairwise_iff_getElem.mp pub.increasing n k inside insideK (by omega)
    rw [there, thereK] at before
    simp only at before
    omega

end

/-- What a step leaves alone that stores to one location at most and accesses
    one cell at most. -/
structure Frame (m m' : Memory Thread Loc Cell Value) (stored : Option Loc)
    (accessed : Option Cell) : Prop where
  grows : ∀ i, m.views i ≤ m'.views i
  published : ∀ l writer log, stored ≠ some l → Published m l writer log →
    Published m' l writer log
  accesses : ∀ c, accessed ≠ some c → m'.accesses c = m.accesses c

section
variable {m m' : Memory Thread Loc Cell Value} {i : Thread} {l : Loc} {time : Nat}
  {value : Value}

theorem newest_message {writer : Thread} {log : List (Nat × Message Thread Loc Value)}
    (pub : Published m l writer log) {e : Nat × Message Thread Loc Value}
    (last : log[log.length - 1]? = some e) :
    m.messages l e.1 = some e.2 ∧ ∀ later, e.1 < later → m.messages l later = none := by
  refine ⟨(pub.there e.1 e.2).mpr (List.mem_of_getElem? last), ?_⟩
  intro later after
  cases found : m.messages l later with
  | none => rfl
  | some message =>
    obtain ⟨n, inside, there⟩ := List.mem_iff_getElem.mp ((pub.there later message).mp found)
    obtain ⟨upto, at_last⟩ := List.getElem?_eq_some_iff.mp last
    have before : n < log.length - 1 := by
      by_contra past
      have same : n = log.length - 1 := by omega
      subst same
      rw [there] at at_last
      rw [← at_last] at after
      exact absurd after (Nat.lt_irrefl _)
    have increasing := List.pairwise_iff_getElem.mp pub.increasing n _ inside upto before
    rw [there, at_last] at increasing
    exact absurd increasing (Nat.not_lt_of_gt after)

theorem published_last {writer : Thread} {log : List (Nat × Message Thread Loc Value)}
    (pub : Published m l writer log) : ∃ e, log[log.length - 1]? = some e := by
  obtain ⟨start, rest, shape⟩ := pub.first
  have inside : log.length - 1 < log.length := by
    rw [shape, List.length_cons]
    omega
  exact ⟨_, List.getElem?_eq_getElem inside⟩

theorem last_known {writer : Thread} {log : List (Nat × Message Thread Loc Value)}
    (pub : Published m l writer log) {e : Nat × Message Thread Loc Value}
    (last : log[log.length - 1]? = some e) (j : Thread) : (m.views j).seen l ≤ e.1 := by
  obtain ⟨upper, member, written⟩ := pub.written
  have seen := (sound_thread pub j).1
  have none := (newest_message pub last).2 upper.1
  have there := (pub.there upper.1 upper.2).mpr member
  have upto : upper.1 ≤ e.1 := by
    by_contra after
    rw [none (by omega)] at there
    cases there
  omega

section
variable [DecidableEq Loc]

theorem see_known {view : View Thread Loc} (known : time ≤ view.seen l) :
    view.see l time = view := by
  rw [View.see, Nat.max_eq_left known, Function.update_eq_self]

end

section
variable [DecidableEq Thread]

theorem access_frame [DecidableEq Cell] (m : Memory Thread Loc Cell Value) (i : Thread) (c : Cell)
    (writes : Bool) : Frame m (m.access i c writes) none (some c) := by
  constructor
  · exact learn_grows (le_tick ..)
  · intro l writer log _ pub
    exact published_access pub i c writes
  · intro k apart
    have other : k ≠ c := fun same => apart (by rw [same])
    simp [Memory.access, Memory.learn, other]

theorem access_own [DecidableEq Cell] (m : Memory Thread Loc Cell Value) (i : Thread) (c : Cell)
    (writes : Bool) : (m.access i c writes).accesses c =
      ⟨i, (m.views i).clock i + 1, writes⟩ :: m.accesses c := by
  simp [Memory.access]

theorem access_clock [DecidableEq Cell] (m : Memory Thread Loc Cell Value) (i : Thread) (c : Cell)
    (writes : Bool) : ((m.access i c writes).views i).clock i = (m.views i).clock i + 1 := by
  simp [Memory.access, Memory.learn, View.tick]

end

variable [DecidableEq Thread] [DecidableEq Loc]

theorem load_frame (ran : m.load i l time .acquire = some (value, m')) :
    Frame m m' none none := by
  constructor
  · obtain ⟨message, _, _, _, rfl⟩ := load_cases ran
    exact learn_grows ((le_see ..).trans le_sup_left)
  · intro k writer log _ pub
    exact published_load pub ran fun _ => Or.inl rfl
  · intro c _
    obtain ⟨message, _, _, _, rfl⟩ := load_cases ran
    rfl

theorem store_frame {order : StoreOrder} (ran : m.store i l time order value = some m') :
    Frame m m' (some l) none := by
  constructor
  · obtain ⟨_, _, rfl⟩ := store_cases ran
    exact learn_grows (le_see ..)
  · intro k writer log apart pub
    exact published_store_other pub ran fun same => apart (by rw [same])
  · intro c _
    obtain ⟨_, _, rfl⟩ := store_cases ran
    rfl

theorem exchange_frame {load : LoadOrder} {store : StoreOrder} {change : Value → Value}
    (ran : m.exchange i l time load store change = some (value, m')) :
    Frame m m' (some l) none := by
  constructor
  · obtain ⟨_, _, _, _, _, rfl⟩ := exchange_cases ran
    exact learn_grows ((le_see ..).trans le_sup_left)
  · intro k writer log apart pub
    exact published_exchange_other pub ran fun same => apart (by rw [same])
  · intro c _
    obtain ⟨_, _, _, _, _, rfl⟩ := exchange_cases ran
    rfl

/-- A relaxed load of a location that only its own thread stores to returns the
    last message and teaches the thread nothing. -/
theorem own_load {log : List (Nat × Message Thread Loc Value)} (pub : Published m l i log)
    (ran : m.load i l time .relaxed = some (value, m')) :
    m' = m ∧ ∃ message, log[log.length - 1]? = some (time, message) ∧ value = message.value := by
  constructor
  · obtain ⟨message, _, found, _, rfl⟩ := load_cases ran
    have known := writer_knows pub ((pub.there time message).mp found)
    rw [see_known known, LoadOrder.gain, sup_bot_eq, Memory.learn, Function.update_eq_self]
  · obtain ⟨n, message, there, same, _, newest⟩ := load_observes pub ran
    have inside := (List.getElem?_eq_some_iff.mp there).1
    have last := newest (log.length - 1) (writer_observes pub (by omega))
    rw [show log.length - 1 = n by omega]
    exact ⟨message, there, same⟩

theorem exchange_newest {log : List (Nat × Message Thread Loc Value)} {load : LoadOrder}
    {store : StoreOrder} {change : Value → Value} (pub : Published m l i log)
    (ran : m.exchange i l time load store change = some (value, m')) :
    ∃ message, log[log.length - 1]? = some (time, message) ∧ value = message.value := by
  obtain ⟨message, late, found, _, rfl, _⟩ := exchange_cases ran
  have loaded : m.load i l time .relaxed =
      some (message.value, m.learn i ((m.views i).see l time ⊔ ⊥)) := by
    unfold Memory.load
    rw [if_pos late, found]
    rfl
  exact (own_load pub loaded).2

theorem load_last {writer : Thread} {log : List (Nat × Message Thread Loc Value)}
    (pub : Published m l writer log) {e : Nat × Message Thread Loc Value}
    (last : log[log.length - 1]? = some e) (j : Thread) (order : LoadOrder) :
    ∃ m', m.load j l e.1 order = some (e.2.value, m') := by
  unfold Memory.load
  rw [if_pos (last_known pub last j), (newest_message pub last).1]
  exact ⟨_, rfl⟩

theorem exchange_last {writer : Thread} {log : List (Nat × Message Thread Loc Value)}
    (pub : Published m l writer log) {e : Nat × Message Thread Loc Value}
    (last : log[log.length - 1]? = some e) (j : Thread) (load : LoadOrder) (store : StoreOrder)
    (change : Value → Value) :
    ∃ m', m.exchange j l e.1 load store change = some (e.2.value, m') := by
  obtain ⟨there, none⟩ := newest_message pub last
  unfold Memory.exchange
  rw [none _ (Nat.lt_succ_self _), if_pos ⟨last_known pub last j, rfl⟩, there]
  exact ⟨_, rfl⟩

theorem store_next {writer : Thread} {log : List (Nat × Message Thread Loc Value)}
    (pub : Published m l writer log) {e : Nat × Message Thread Loc Value}
    (last : log[log.length - 1]? = some e) (j : Thread) (order : StoreOrder) (value : Value) :
    ∃ m', m.store j l (e.1 + 1) order value = some m' := by
  have known := last_known pub last j
  unfold Memory.store
  rw [(newest_message pub last).2 _ (Nat.lt_succ_self _), if_pos ⟨by omega, rfl⟩]
  exact ⟨_, rfl⟩

/-- Right after another thread's store, a thread can still load the message
    from before it. -/
theorem load_old {writer : Thread} {log : List (Nat × Message Thread Loc Value)}
    {order : StoreOrder} (pub : Published m l writer log) {e : Nat × Message Thread Loc Value}
    (last : log[log.length - 1]? = some e) {j : Thread} (apart : j ≠ i)
    (put : m.store i l (e.1 + 1) order value = some m') (load : LoadOrder) :
    m'.messages l (e.1 + 1) ≠ none ∧ ∃ m'', m'.load j l e.1 load = some (e.2.value, m'') := by
  obtain ⟨_, _, rfl⟩ := store_cases put
  have before : e.1 ≠ e.1 + 1 := Nat.ne_of_lt (Nat.lt_succ_self _)
  refine ⟨by simp [Memory.learn, Memory.put], ?_⟩
  unfold Memory.load
  simp only [Memory.learn, Memory.put, Function.update_self, Function.update_of_ne apart,
    Function.update_of_ne before, if_pos (last_known pub last j), (newest_message pub last).1]
  exact ⟨_, rfl⟩

theorem load_newest {writer : Thread} {log : List (Nat × Message Thread Loc Value)}
    {order : LoadOrder} (pub : Published m l writer log)
    (ran : m.load j l time order = some (value, m'))
    (newest : ∀ later, time < later → m.messages l later = none) :
    ∃ message, log[log.length - 1]? = some (time, message) ∧ value = message.value := by
  obtain ⟨message, _, found, rfl, _⟩ := load_cases ran
  obtain ⟨⟨at_last, latest⟩, last⟩ := published_last pub
  obtain ⟨there, none⟩ := newest_message pub last
  rcases Nat.lt_trichotomy at_last time with before | rfl | after
  · rw [none time before] at found
    cases found
  · rw [found] at there
    cases there
    exact ⟨_, last, rfl⟩
  · rw [newest at_last after] at there
    cases there

theorem load_messages {order : LoadOrder} (ran : m.load i l time order = some (value, m')) :
    m'.messages = m.messages := by
  obtain ⟨_, _, _, _, rfl⟩ := load_cases ran
  rfl

theorem store_messages {order : StoreOrder} (ran : m.store i l time order value = some m')
    (other : k ≠ l) : m'.messages k = m.messages k := by
  obtain ⟨_, _, rfl⟩ := store_cases ran
  exact Function.update_of_ne other ..

end

end ReleaseAcquire
