import CellKernel.ReleaseAcquire

/-
A lock that is a boolean in memory with release and acquire atomics: it is taken
by exchanging false for true and left by storing false. Whatever the orders of
these accesses, at most one thread has it, for an exchange takes the time right
after the message it reads. Taken with acquire and left with release, it also
orders all accesses to the cell that its holders share.
-/
namespace ReleaseAcquire
variable {Thread Loc Cell : Type}

/-- The newest message of the lock has the given time and says whether there is
    a holder, who knows of it. Every older false has been exchanged for true. -/
structure Locked (m : Memory Thread Loc Cell Bool) (l : Loc) (time : Nat)
    (holder : Option Thread) : Prop where
  newest : ∃ message, m.messages l time = some message ∧ message.value = holder.isSome
  last : ∀ t, time < t → m.messages l t = none
  used : ∀ t message, m.messages l t = some message → t < time → message.value = false →
    m.messages l (t + 1) ≠ none
  known : ∀ i, holder = some i → time ≤ (m.views i).seen l

/-- All accesses to the cell are known to the holder, or carried by the message
    that the next holder will read. -/
structure Guards (m : Memory Thread Loc Cell Bool) (l : Loc) (c : Cell) (time : Nat)
    (holder : Option Thread) : Prop where
  free : holder = none → ∀ message, m.messages l time = some message →
    ∀ a ∈ m.accesses c, a.epoch ≤ message.view.clock a.thread
  held : ∀ i, holder = some i → ∀ a ∈ m.accesses c, a.epoch ≤ (m.views i).clock a.thread

section
variable {m m' : Memory Thread Loc Cell Bool} {l : Loc} {c : Cell} {i : Thread} {t time : Nat}
  {holder : Option Thread} {value : Bool}

theorem locked_start (initial : Loc → Bool) (open_at : initial l = false) :
    Locked (Memory.start initial : Memory Thread Loc Cell Bool) l 0 none := by
  constructor
  · exact ⟨⟨initial l, ⊥⟩, rfl, open_at⟩
  · intro t later
    exact if_neg (by omega)
  · intro t message _ before
    omega
  · intro i holds
    cases holds

theorem guards_start (initial : Loc → Bool) (time : Nat) (holder : Option Thread) :
    Guards (Memory.start initial : Memory Thread Loc Cell Bool) l c time holder := by
  constructor
  · intro _ message _ a member
    cases member
  · intro i _ a member
    cases member

theorem locked_same (locked : Locked m l time holder)
    (messages : ∀ t, m'.messages l t = m.messages l t)
    (grows : ∀ i, m.views i ≤ m'.views i) : Locked m' l time holder := by
  obtain ⟨newest, last, used, known⟩ := locked
  constructor
  · rw [messages]
    exact newest
  · intro t later
    rw [messages]
    exact last t later
  · intro t message there before open_at
    rw [messages] at there
    rw [messages]
    exact used t message there before open_at
  · intro i holds
    exact (known i holds).trans ((grows i).1 l)

theorem guards_same (guards : Guards m l c time holder)
    (messages : ∀ t, m'.messages l t = m.messages l t) (accesses : m'.accesses c = m.accesses c)
    (grows : ∀ i, m.views i ≤ m'.views i) : Guards m' l c time holder := by
  obtain ⟨free, held⟩ := guards
  constructor
  · intro none message there
    rw [messages] at there
    rw [accesses]
    exact free none message there
  · intro i holds a member
    rw [accesses] at member
    exact (held i holds a member).trans ((grows i).2 _)

section
variable [DecidableEq Thread]

theorem access_locked [DecidableEq Cell] (locked : Locked m l time holder) (writes : Bool) :
    Locked (m.access i c writes) l time holder :=
  locked_same locked (fun _ => rfl) (learn_grows (le_tick ..))

theorem access_guards [DecidableEq Cell] (guards : Guards m l c time (some i)) (writes : Bool) :
    Guards (m.access i c writes) l c time (some i) := by
  constructor
  · intro none
    cases none
  · intro j holds a member
    cases holds
    rw [access_own] at member
    rcases List.mem_cons.mp member with rfl | before
    · rw [access_clock]
    · exact (guards.held i rfl a before).trans ((learn_grows (le_tick ..) i).2 a.thread)

end

variable [DecidableEq Thread] [DecidableEq Loc]

theorem load_same {order : LoadOrder} (ran : m.load i l t order = some (value, m')) :
    (∀ k time, m'.messages k time = m.messages k time) ∧ (∀ c, m'.accesses c = m.accesses c) ∧
      ∀ j, m.views j ≤ m'.views j := by
  obtain ⟨message, _, _, _, rfl⟩ := load_cases ran
  exact ⟨fun _ _ => rfl, fun _ => rfl, learn_grows ((le_see ..).trans le_sup_left)⟩

/-- The exchange reads the newest message, so there was no holder. -/
theorem take_newest {load : LoadOrder} {store : StoreOrder} {change : Bool → Bool}
    (locked : Locked m l time holder)
    (ran : m.exchange i l t load store change = some (false, m')) :
    holder = none ∧ t = time := by
  obtain ⟨message, _, found, free, open_at, _⟩ := exchange_cases ran
  have upto : t ≤ time := by
    by_contra past
    rw [locked.last t (by omega)] at found
    cases found
  rcases Nat.lt_or_eq_of_le upto with before | rfl
  · exact absurd free (locked.used t message found before open_at.symm)
  · obtain ⟨newest, there, valued⟩ := locked.newest
    rw [found] at there
    cases there
    rw [← open_at] at valued
    cases holder with
    | none => exact ⟨rfl, rfl⟩
    | some j => cases valued

theorem take_locked {load : LoadOrder} {store : StoreOrder} (locked : Locked m l time holder)
    (ran : m.exchange i l t load store (fun _ => true) = some (false, m')) :
    Locked m' l (t + 1) (some i) := by
  obtain ⟨_, rfl⟩ := take_newest locked ran
  obtain ⟨message, _, found, free, _, rfl⟩ := exchange_cases ran
  constructor
  · refine ⟨_, (put_messages _ _ _).trans (if_pos ⟨rfl, rfl⟩), rfl⟩
  · intro later past
    change (Memory.put _ _ _ _).messages l later = none
    rw [put_messages, if_neg (by omega)]
    exact locked.last later (by omega)
  · intro old found' there before open_at
    change (Memory.put _ _ _ _).messages l old = _ at there
    change (Memory.put _ _ _ _).messages l (old + 1) ≠ none
    rw [put_messages, if_neg (by omega)] at there
    rw [put_messages]
    split
    · exact Option.some_ne_none _
    · rename_i other
      have apart : old ≠ t := fun same => other ⟨rfl, by rw [same]⟩
      exact locked.used old found' there (by omega) open_at
  · intro j holds
    cases holds
    rw [learn_self, sup_seen, see_self]
    omega

/-- Taking the lock with acquire makes all accesses known to the new holder. -/
theorem take_guards {store : StoreOrder} (locked : Locked m l time holder)
    (guards : Guards m l c time holder)
    (ran : m.exchange i l t .acquire store (fun _ => true) = some (false, m')) :
    Guards m' l c (t + 1) (some i) := by
  obtain ⟨none, rfl⟩ := take_newest locked ran
  obtain ⟨message, _, found, _, _, rfl⟩ := exchange_cases ran
  constructor
  · intro free
    cases free
  · intro j holds a member
    cases holds
    rw [learn_self]
    have carried : a.epoch ≤ message.view.clock a.thread := guards.free none message found a member
    exact carried.trans ((le_sup_right : message.view ≤ _).2 a.thread)

theorem leave_locked {order : StoreOrder} (locked : Locked m l time (some i))
    (ran : m.store i l t order false = some m') : Locked m' l t none := by
  obtain ⟨late, _, rfl⟩ := store_cases ran
  have known := locked.known i rfl
  constructor
  · refine ⟨_, (put_messages _ _ _).trans (if_pos ⟨rfl, rfl⟩), rfl⟩
  · intro later past
    change (Memory.put _ _ _ _).messages l later = none
    rw [put_messages, if_neg (by omega)]
    exact locked.last later (by omega)
  · intro old message there before open_at
    change (Memory.put _ _ _ _).messages l old = _ at there
    change (Memory.put _ _ _ _).messages l (old + 1) ≠ none
    rw [put_messages, if_neg (by omega)] at there
    rw [put_messages]
    split
    · exact Option.some_ne_none _
    · have upto : old ≤ time := by
        by_contra past
        rw [locked.last old (by omega)] at there
        cases there
      -- the message of the holder itself is true
      rcases Nat.lt_or_eq_of_le upto with earlier | rfl
      · exact locked.used old message there earlier open_at
      · obtain ⟨newest, found, valued⟩ := locked.newest
        rw [there] at found
        cases found
        rw [open_at] at valued
        cases valued
  · intro j holds
    cases holds

/-- Leaving the lock with release hands them to the next one. -/
theorem leave_guards (guards : Guards m l c time (some i))
    (ran : m.store i l t .release false = some m') : Guards m' l c t none := by
  obtain ⟨_, _, rfl⟩ := store_cases ran
  constructor
  · intro _ message there a member
    change (Memory.put _ _ _ _).messages l t = _ at there
    rw [put_messages, if_pos ⟨rfl, rfl⟩] at there
    cases there
    exact (guards.held i rfl a member).trans ((le_see ..).2 a.thread)
  · intro j holds
    cases holds

end

end ReleaseAcquire
