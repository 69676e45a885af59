import CellKernel.SerialOrder
import Mathlib.Algebra.BigOperators.Group.Finset.Piecewise
import Mathlib.Algebra.Order.BigOperators.Group.Finset

/-
Cores that call serial_write while they run. New calls keep the order of the
messages, each step that does not wait lowers the work that is left, and only
cores whose calls have returned can all be waiting.
-/
namespace CellSerial
open CellRuns InsertedMark

variable {Core : Type} [DecidableEq Core]

theorem taken_cons_own (core : Core) (message : Message) (acquired : List (Core × Message)) :
    takenBy core ((core, message) :: acquired) = message :: takenBy core acquired := by
  rw [takenBy, List.filter_cons_of_pos (by simp)]
  rfl

theorem taken_cons_other {core other : Core} (apart : other ≠ core) (message : Message)
    (acquired : List (Core × Message)) :
    takenBy other ((core, message) :: acquired) = takenBy other acquired := by
  rw [takenBy, List.filter_cons_of_neg (by simpa using apart.symm)]
  rfl

theorem taken_of_own (core : Core) (messages : List Message) :
    takenBy core (messages.map (Prod.mk core)) = messages := by
  induction messages with
  | nil => rfl
  | cons message messages ih => rw [List.map_cons, taken_cons_own, ih]

theorem taken_of_other {core other : Core} (apart : other ≠ core) (messages : List Message) :
    takenBy other (messages.map (Prod.mk core)) = [] := by
  induction messages with
  | nil => rfl
  | cons message messages ih => rw [List.map_cons, taken_cons_other apart, ih]

def SerialWorld.issue (w : SerialWorld Core) (core : Core) (messages : List Message) :
    SerialWorld Core :=
  { w with pending := Function.update w.pending core (w.pending core ++ messages) }

section
variable (w : SerialWorld Core) (core : Core) (messages : List Message)

@[simp] theorem issue_pc : (w.issue core messages).pc = w.pc := rfl
@[simp] theorem issue_pending : (w.issue core messages).pending =
    Function.update w.pending core (w.pending core ++ messages) := rfl
@[simp] theorem issue_acquired : (w.issue core messages).acquired = w.acquired := rfl

end

theorem ordered_issue {messages : Core → List Message} {w : SerialWorld Core}
    (ordered : Ordered messages w) (core : Core) (new : List Message) :
    Ordered (Function.update messages core (messages core ++ new)) (w.issue core new) := by
  constructor
  · exact ordered.exclusive
  · exact ordered.locked
  · exact ordered.finished
  · exact ordered.current
  · intro c
    rw [issue_acquired, issue_pc, issue_pending]
    by_cases same : c = core
    · subst c
      rw [Function.update_self, Function.update_self, ordered.accounted core]
      simp only [List.append_assoc]
    · rw [Function.update_of_ne same, Function.update_of_ne same]
      exact ordered.accounted c

/-- What COM1 has received, in the middle of a message or not. -/
theorem sent_begins {messages : Core → List Message} {w : SerialWorld Core}
    (ordered : Ordered messages w) : w.sent <+: encodeAll w.acquired := by
  by_cases held : ∃ core, (w.pc core).holding = true
  · obtain ⟨core, held⟩ := held
    obtain ⟨finished, message, done, acquired, sent, encoded⟩ := ordered.current core held
    refine ⟨(w.pc core).toSend, ?_⟩
    rw [sent, acquired, encode_all_append, encode_all_single, encoded, List.append_assoc]
  · have free : ∀ core, (w.pc core).holding = false := by
      intro core
      rw [← Bool.not_eq_true]
      exact fun holding => held ⟨core, holding⟩
    rw [ordered.finished free]

def weight : Message → Nat
  | [] => 0
  | piece :: pieces => 3 * piece.length + 2 + weight pieces

def weights : List Message → Nat
  | [] => 0
  | message :: rest => weight message + 4 + weights rest

theorem weights_append (first second : List Message) :
    weights (first ++ second) = weights first + weights second := by
  induction first with
  | nil => exact (Nat.zero_add _).symm
  | cons message first ih =>
    rw [List.cons_append, weights, weights, ih]
    omega

def SerialPc.work : SerialPc → Nat
  | .returned => 0
  | .acquiring message => weight message + 3
  | .formatting pieces => weight pieces + 2
  | .sending piece pieces => 3 * piece.length + weight pieces + 3
  | .writingReturn _ piece pieces => 3 * piece.length + weight pieces + 5
  | .writing _ piece pieces => 3 * piece.length + weight pieces + 4
  | .releasing => 1

def SerialWorld.share (w : SerialWorld Core) (core : Core) : Nat :=
  (w.pc core).work + weights (w.pending core)

def SerialWorld.work [Fintype Core] (w : SerialWorld Core) : Nat :=
  ∑ core, w.share core

section
variable [Fintype Core] {w t : SerialWorld Core} {core : Core}

theorem share_lowers (core : Core) {next : SerialPc} (rest : List Message)
    (pc : t.pc = Function.update w.pc core next)
    (pending : t.pending = Function.update w.pending core rest)
    (lower : next.work + weights rest < w.share core) :
    t.work < w.work := by
  have moved : t.share core = next.work + weights rest := by
    rw [SerialWorld.share, pc, pending, Function.update_self, Function.update_self]
  have others : ∀ c, c ≠ core → t.share c = w.share c := by
    intro c other
    rw [SerialWorld.share, pc, pending, Function.update_of_ne other, Function.update_of_ne other]
    rfl
  apply Finset.sum_lt_sum
  · intro c _
    by_cases same : c = core
    · subst c
      rw [moved]
      exact lower.le
    · exact (others c same).le
  · exact ⟨core, Finset.mem_univ core, by rw [moved]; exact lower⟩

theorem move_lowers {next : SerialPc} (pc : t.pc = Function.update w.pc core next)
    (pending : t.pending = w.pending) (lower : next.work < (w.pc core).work) :
    t.work < w.work := by
  apply share_lowers core (w.pending core) pc
  · rw [pending, Function.update_eq_self]
  · exact Nat.add_lt_add_right lower _

/-- A step waits for the UART, waits for the lock, or lowers the work. -/
theorem step_lowers {ready : Bool} (taken : step w ⟨core, ready⟩ = some t) :
    (t = w ∧ (ready = false ∨ ((w.pc core).holding = false ∧ w.serialLock = true))) ∨
      t.work < w.work := by
  cases here : w.pc core with
  | returned =>
    cases left : w.pending core with
    | nil => simp [step, here, left] at taken
    | cons message rest =>
      simp only [step, here, left, Option.some.injEq] at taken
      subst t
      right
      apply share_lowers core rest rfl rfl
      rw [SerialWorld.share, here, left]
      simp only [SerialPc.work, weights]
      omega
  | acquiring message =>
    simp only [step, here] at taken
    split at taken
    · rename_i locked
      cases taken
      exact Or.inl ⟨rfl, Or.inr ⟨rfl, locked⟩⟩
    · cases taken
      exact Or.inr (move_lowers rfl rfl (by rw [here]; simp [SerialPc.work]))
  | formatting pieces =>
    cases pieces with
    | nil =>
      simp only [step, here, Option.some.injEq] at taken
      subst t
      exact Or.inr (move_lowers rfl rfl (by rw [here]; simp [SerialPc.work]))
    | cons piece pieces =>
      simp only [step, here, Option.some.injEq] at taken
      subst t
      exact Or.inr (move_lowers rfl rfl (by rw [here]; simp [SerialPc.work, weight]; omega))
  | sending piece pieces =>
    cases piece with
    | nil =>
      simp only [step, here, Option.some.injEq] at taken
      subst t
      exact Or.inr (move_lowers rfl rfl (by rw [here]; simp [SerialPc.work]))
    | cons byte piece =>
      simp only [step, here] at taken
      split at taken
      · cases taken
        exact Or.inr (move_lowers rfl rfl (by rw [here]; simp [SerialPc.work]; omega))
      · cases taken
        exact Or.inr (move_lowers rfl rfl (by rw [here]; simp [SerialPc.work]; omega))
  | writingReturn byte piece pieces =>
    simp only [step, here] at taken
    split at taken
    · cases taken
      exact Or.inr (move_lowers rfl rfl (by rw [here]; simp [SerialPc.work]))
    · rename_i unready
      cases taken
      exact Or.inl ⟨rfl, Or.inl (Bool.not_eq_true _ ▸ unready)⟩
  | writing byte piece pieces =>
    simp only [step, here] at taken
    split at taken
    · cases taken
      exact Or.inr (move_lowers rfl rfl (by rw [here]; simp [SerialPc.work]))
    · rename_i unready
      cases taken
      exact Or.inl ⟨rfl, Or.inl (Bool.not_eq_true _ ▸ unready)⟩
  | releasing =>
    simp only [step, here, Option.some.injEq] at taken
    subst t
    exact Or.inr (move_lowers rfl rfl (by rw [here]; simp [SerialPc.work]))

omit [Fintype Core] in
theorem step_exists (busy : ¬ (w.pc core = .returned ∧ w.pending core = [])) :
    step w ⟨core, true⟩ ≠ none := by
  cases here : w.pc core with
  | returned =>
    cases left : w.pending core with
    | nil => exact absurd ⟨here, left⟩ busy
    | cons message rest => simp [step, here, left]
  | acquiring message =>
    simp only [step, here]
    split <;> exact Option.some_ne_none _
  | formatting pieces => cases pieces <;> simp [step, here]
  | sending piece pieces =>
    cases piece with
    | nil => simp [step, here]
    | cons byte piece =>
      simp only [step, here]
      split <;> exact Option.some_ne_none _
  | writingReturn byte piece pieces => simp [step, here]
  | writing byte piece pieces => simp [step, here]
  | releasing => simp [step, here]

theorem work_issue (new : List Message) : (w.issue core new).work = w.work + weights new := by
  have share : ∀ c, (w.issue core new).share c =
      w.share c + if c = core then weights new else 0 := by
    intro c
    rw [SerialWorld.share, SerialWorld.share, issue_pc, issue_pending]
    by_cases same : c = core
    · subst c
      rw [Function.update_self, if_pos rfl, weights_append, Nat.add_assoc]
    · rw [Function.update_of_ne same, if_neg same, Nat.add_zero]
  rw [SerialWorld.work, Finset.sum_congr rfl fun c _ => share c, Finset.sum_add_distrib,
    Finset.sum_ite_eq' Finset.univ core, if_pos (Finset.mem_univ core)]
  rfl

theorem calls_returned {messages : Core → List Message} (ordered : Ordered messages w)
    (still : ∀ core t, step w ⟨core, true⟩ = some t → t = w) (core : Core) :
    w.pc core = .returned ∧ w.pending core = [] := by
  have waits : ∀ core, ¬ (w.pc core = .returned ∧ w.pending core = []) →
      (w.pc core).holding = false ∧ w.serialLock = true := by
    intro core busy
    obtain ⟨t, taken⟩ := Option.ne_none_iff_exists'.mp (step_exists busy)
    rcases step_lowers taken with ⟨_, unready | waiting⟩ | lower
    · cases unready
    · exact waiting
    · rw [still core t taken] at lower
      exact absurd lower (Nat.lt_irrefl _)
  by_contra busy
  -- The core waits for the lock, and its holder waits for nothing.
  obtain ⟨holder, held⟩ := ordered.locked.mp (waits core busy).2
  have free := (waits holder (by
    rintro ⟨returned, _⟩
    rw [returned] at held
    cases held)).1
  rw [held] at free
  cases free

end

theorem holder_goes_on {w : SerialWorld Core} {core : Core}
    (held : (w.pc core).holding = true) :
    ∃ t next, step w ⟨core, true⟩ = some t ∧ t.pc = Function.update w.pc core next ∧
      t.pending = w.pending ∧ t.acquired = w.acquired ∧ next.work < (w.pc core).work ∧
        (next.holding = true ∨ next = .returned) := by
  cases here : w.pc core with
  | returned =>
    rw [here] at held
    cases held
  | acquiring message =>
    rw [here] at held
    cases held
  | formatting pieces =>
    cases pieces with
    | nil =>
      refine ⟨w.move core .releasing, .releasing, ?_, rfl, rfl, rfl, ?_, Or.inl rfl⟩
      · simp [step, here]
      · simp [SerialPc.work]
    | cons piece pieces =>
      refine ⟨w.move core (.sending piece pieces), _, ?_, rfl, rfl, rfl, ?_, Or.inl rfl⟩
      · simp [step, here]
      · simp [SerialPc.work, weight]
        omega
  | sending piece pieces =>
    cases piece with
    | nil =>
      refine ⟨w.move core (.formatting pieces), _, ?_, rfl, rfl, rfl, ?_, Or.inl rfl⟩
      · simp [step, here]
      · simp [SerialPc.work]
    | cons byte piece =>
      by_cases feed : byte = lineFeed
      · refine ⟨w.move core (.writingReturn byte piece pieces), _, ?_, rfl, rfl, rfl, ?_,
          Or.inl rfl⟩
        · simp [step, here, feed]
        · simp [SerialPc.work]
          omega
      · refine ⟨w.move core (.writing byte piece pieces), _, ?_, rfl, rfl, rfl, ?_, Or.inl rfl⟩
        · simp [step, here, feed]
        · simp [SerialPc.work]
          omega
  | writingReturn byte piece pieces =>
    refine ⟨w.outb core carriageReturn (.writing byte piece pieces), _, ?_, rfl, rfl, rfl, ?_,
      Or.inl rfl⟩
    · simp [step, here]
    · simp [SerialPc.work]
  | writing byte piece pieces =>
    refine ⟨w.outb core byte (.sending piece pieces), _, ?_, rfl, rfl, rfl, ?_, Or.inl rfl⟩
    · simp [step, here]
    · simp [SerialPc.work]
  | releasing =>
    refine ⟨w.release core, .returned, ?_, rfl, rfl, rfl, ?_, Or.inr rfl⟩
    · simp [step, here]
    · simp [SerialPc.work]

theorem message_written {w : SerialWorld Core} {core : Core}
    (held : (w.pc core).holding = true) :
    ∃ t, Reachable step w t ∧ t.pc = Function.update w.pc core .returned ∧
      t.pending = w.pending ∧ t.acquired = w.acquired := by
  induction left : (w.pc core).work using Nat.strongRecOn generalizing w with
  | ind n ih =>
    obtain ⟨t, next, taken, pc, pending, acquired, lower, goes⟩ := holder_goes_on held
    have ran : Reachable step w t := .next _ .start trivial taken
    have there : t.pc core = next := by rw [pc, Function.update_self]
    rcases goes with holding | returned
    · obtain ⟨u, reached, last, samePending, sameAcquired⟩ :=
        ih next.work (left ▸ lower) (there ▸ holding) (by rw [there])
      refine ⟨u, reaches_trans ran reached, ?_, samePending.trans pending,
        sameAcquired.trans acquired⟩
      rw [last, pc, Function.update_idem]
    · exact ⟨t, ran, returned ▸ pc, pending, acquired⟩

theorem line_written {w : SerialWorld Core} {core : Core} {message : Message}
    {rest : List Message} (unlocked : w.serialLock = false) (here : w.pc core = .returned)
    (left : w.pending core = message :: rest) :
    ∃ t, Reachable step w t ∧ t.pc = w.pc ∧ t.pending = Function.update w.pending core rest ∧
      t.acquired = w.acquired ++ [(core, message)] := by
  let called := w.call core (.acquiring message) rest
  have calls : step w ⟨core, true⟩ = some called := by simp [step, here, left, called]
  have acquires : step called ⟨core, true⟩ = some (called.acquire core message) := by
    simp [step, called, unlocked]
  have held : ((called.acquire core message).pc core).holding = true := by
    rw [acquire_pc, Function.update_self]
    rfl
  obtain ⟨t, reached, pc, pending, acquired⟩ := message_written held
  refine ⟨t, reaches_trans (.next _ (.next _ .start trivial calls) trivial acquires) reached,
    ?_, pending, acquired⟩
  rw [pc, acquire_pc, call_pc, Function.update_idem, Function.update_idem, ← here,
    Function.update_eq_self]

/-- With no call under way the cores can write their next messages in any order
    that keeps the order of each core. -/
theorem lines_written {messages : Core → List Message} {w : SerialWorld Core}
    (ordered : Ordered messages w) (returned : ∀ core, w.pc core = .returned)
    (lines : List (Core × Message)) (rest : Core → List Message)
    (pending : ∀ core, w.pending core = takenBy core lines ++ rest core) :
    ∃ t, Reachable step w t ∧ Ordered messages t ∧ t.pc = w.pc ∧ t.pending = rest ∧
      t.acquired = w.acquired ++ lines := by
  induction lines generalizing w with
  | nil => exact ⟨w, .start, ordered, rfl, funext pending, (List.append_nil _).symm⟩
  | cons entry lines ih =>
    obtain ⟨core, message⟩ := entry
    have unlocked : w.serialLock = false := by
      rw [← Bool.not_eq_true, ordered.locked]
      rintro ⟨holder, held⟩
      rw [returned holder] at held
      cases held
    have next : w.pending core = message :: (takenBy core lines ++ rest core) := by
      rw [pending core, taken_cons_own]
      rfl
    obtain ⟨t, reached, pc, left, acquired⟩ := line_written unlocked (returned core) next
    have kept : Ordered messages t :=
      holds_throughout ordered (fun _ _ _ _ ordered _ taken => ordered_step ordered taken) reached
    have later : ∀ c, t.pending c = takenBy c lines ++ rest c := by
      intro c
      rw [left]
      by_cases same : c = core
      · subst c
        rw [Function.update_self]
      · rw [Function.update_of_ne same, pending c, taken_cons_other same]
    obtain ⟨last, ends, ordered', pc', pending', acquired'⟩ :=
      ih kept (fun c => by rw [pc, returned c]) later
    refine ⟨last, reaches_trans reached ends, ordered', pc'.trans pc, pending', ?_⟩
    rw [acquired', acquired, List.append_assoc]
    rfl

end CellSerial
