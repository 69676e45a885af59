import Mathlib.Logic.Function.Basic
import CellKernel.InsertedMark
import CellKernel.Runs

/-
serial_write of crates/cell-baremetal/src/main.rs on any number of cores. A
message is the texts that its formatting passes to write_str, in order. Each
step is one access to SERIAL_LOCK, one byte to COM1, or one turn of a loop; the
status of the UART at a step is part of the action, so that a core may wait for
it at any byte.
-/
namespace CellSerial
open CellRuns InsertedMark

def lineFeed : UInt8 := 10
def carriageReturn : UInt8 := 13

/-- The pieces that write_fmt hands to write_str. -/
abbrev Message := List (List UInt8)

/-- What a core has yet to do in its call of serial_write. -/
inductive SerialPc where
  | returned
  | acquiring (message : Message)
  | formatting (pieces : Message)
  | sending (text : List UInt8) (pieces : Message)
  | writingReturn (byte : UInt8) (text : List UInt8) (pieces : Message)
  | writing (byte : UInt8) (text : List UInt8) (pieces : Message)
  | releasing
  deriving DecidableEq

/-- Between its compare_exchange and its store. -/
def SerialPc.holding : SerialPc → Bool
  | .returned => false
  | .acquiring _ => false
  | .formatting _ => true
  | .sending _ _ => true
  | .writingReturn _ _ _ => true
  | .writing _ _ _ => true
  | .releasing => true

/-- sent is what COM1 received. acquired records, in the order in which the
    lock was taken, the core and its message; it is not part of the program. -/
structure SerialWorld (Core : Type) where
  serialLock : Bool
  pc : Core → SerialPc
  pending : Core → List Message
  sent : List UInt8
  acquired : List (Core × Message)

structure Action (Core : Type) where
  core : Core
  ready : Bool

variable {Core : Type} [DecidableEq Core]

def SerialWorld.start (messages : Core → List Message) : SerialWorld Core :=
  ⟨false, fun _ => .returned, messages, [], []⟩

def SerialWorld.move (w : SerialWorld Core) (core : Core) (next : SerialPc) : SerialWorld Core :=
  { w with pc := Function.update w.pc core next }

def SerialWorld.call (w : SerialWorld Core) (core : Core) (next : SerialPc)
    (rest : List Message) : SerialWorld Core :=
  { w with
    pc := Function.update w.pc core next
    pending := Function.update w.pending core rest }

def SerialWorld.acquire (w : SerialWorld Core) (core : Core) (message : Message) :
    SerialWorld Core :=
  { w with
    serialLock := true
    pc := Function.update w.pc core (.formatting message)
    acquired := w.acquired ++ [(core, message)] }

def SerialWorld.outb (w : SerialWorld Core) (core : Core) (byte : UInt8) (next : SerialPc) :
    SerialWorld Core :=
  { w with
    pc := Function.update w.pc core next
    sent := w.sent ++ [byte] }

def SerialWorld.release (w : SerialWorld Core) (core : Core) : SerialWorld Core :=
  { w with
    serialLock := false
    pc := Function.update w.pc core .returned }

def step (w : SerialWorld Core) (action : Action Core) : Option (SerialWorld Core) :=
  let core := action.core
  match w.pc core with
  | .returned =>
      match w.pending core with
      | [] => none
      | message :: rest => some (w.call core (.acquiring message) rest)
  | .acquiring message =>
      -- compare_exchange(false, true), again after a failure
      if w.serialLock then some w else some (w.acquire core message)
  | .formatting [] => some (w.move core .releasing)
  | .formatting (text :: pieces) => some (w.move core (.sending text pieces))
  | .sending [] pieces => some (w.move core (.formatting pieces))
  | .sending (byte :: text) pieces =>
      if byte = lineFeed then some (w.move core (.writingReturn byte text pieces))
      else some (w.move core (.writing byte text pieces))
  | .writingReturn byte text pieces =>
      if action.ready then some (w.outb core carriageReturn (.writing byte text pieces))
      else some w
  | .writing byte text pieces =>
      if action.ready then some (w.outb core byte (.sending text pieces)) else some w
  | .releasing => some (w.release core)

section
variable (w : SerialWorld Core) (core : Core) (next : SerialPc) (rest : List Message)
  (message : Message) (byte : UInt8)

@[simp] theorem call_lock : (w.call core next rest).serialLock = w.serialLock := rfl
@[simp] theorem call_pc : (w.call core next rest).pc = Function.update w.pc core next := rfl
@[simp] theorem call_pending : (w.call core next rest).pending =
    Function.update w.pending core rest := rfl
@[simp] theorem call_sent : (w.call core next rest).sent = w.sent := rfl
@[simp] theorem call_acquired : (w.call core next rest).acquired = w.acquired := rfl

@[simp] theorem acquire_lock : (w.acquire core message).serialLock = true := rfl
@[simp] theorem acquire_pc : (w.acquire core message).pc =
    Function.update w.pc core (.formatting message) := rfl
@[simp] theorem acquire_pending : (w.acquire core message).pending = w.pending := rfl
@[simp] theorem acquire_sent : (w.acquire core message).sent = w.sent := rfl
@[simp] theorem acquire_acquired : (w.acquire core message).acquired =
    w.acquired ++ [(core, message)] := rfl

@[simp] theorem outb_lock : (w.outb core byte next).serialLock = w.serialLock := rfl
@[simp] theorem outb_pc : (w.outb core byte next).pc = Function.update w.pc core next := rfl
@[simp] theorem outb_pending : (w.outb core byte next).pending = w.pending := rfl
@[simp] theorem outb_sent : (w.outb core byte next).sent = w.sent ++ [byte] := rfl
@[simp] theorem outb_acquired : (w.outb core byte next).acquired = w.acquired := rfl

@[simp] theorem release_lock : (w.release core).serialLock = false := rfl
@[simp] theorem release_pc : (w.release core).pc = Function.update w.pc core .returned := rfl
@[simp] theorem release_pending : (w.release core).pending = w.pending := rfl
@[simp] theorem release_sent : (w.release core).sent = w.sent := rfl
@[simp] theorem release_acquired : (w.release core).acquired = w.acquired := rfl

end

def encode (text : List UInt8) : List UInt8 := insertMarks carriageReturn lineFeed text

def decode (bytes : List UInt8) : List UInt8 := removeMarks carriageReturn lineFeed bytes

def encodeAll (messages : List (Core × Message)) : List UInt8 :=
  messages.flatMap fun entry => encode entry.2.flatten

def textOf (messages : List (Core × Message)) : List UInt8 :=
  messages.flatMap fun entry => entry.2.flatten

def SerialPc.toSend : SerialPc → List UInt8
  | .returned => []
  | .acquiring _ => []
  | .formatting pieces => encode pieces.flatten
  | .sending text pieces => encode (text ++ pieces.flatten)
  | .writingReturn byte text pieces =>
      carriageReturn :: byte :: encode (text ++ pieces.flatten)
  | .writing byte text pieces => byte :: encode (text ++ pieces.flatten)
  | .releasing => []

def SerialPc.waiting : SerialPc → List Message
  | .acquiring message => [message]
  | _ => []

/-- What a step does to the lock, the output and the records, apart from the
    program point it moves. -/
inductive Effect (w : SerialWorld Core) (core : Core) : SerialWorld Core → Prop where
  | quiet (next : SerialPc) (rest : List Message)
      (holds : next.holding = (w.pc core).holding) (sends : next.toSend = (w.pc core).toSend)
      (waits : next.waiting ++ rest = (w.pc core).waiting ++ w.pending core) :
      Effect w core (w.call core next rest)
  | acquire (message : Message) (here : w.pc core = .acquiring message)
      (unlocked : w.serialLock = false) : Effect w core (w.acquire core message)
  | send (byte : UInt8) (next : SerialPc) (held : (w.pc core).holding = true)
      (holds : next.holding = true) (sends : (w.pc core).toSend = byte :: next.toSend)
      (waits : next.waiting = (w.pc core).waiting) : Effect w core (w.outb core byte next)
  | release (here : w.pc core = .releasing) : Effect w core (w.release core)

theorem encode_line_feed (text : List UInt8) :
    encode (lineFeed :: text) = carriageReturn :: lineFeed :: encode text :=
  insert_target carriageReturn lineFeed text

theorem encode_other {byte : UInt8} (other : byte ≠ lineFeed) (text : List UInt8) :
    encode (byte :: text) = byte :: encode text := insert_other carriageReturn lineFeed other text

section
variable {w : SerialWorld Core} {core : Core} {pc : SerialPc} (here : w.pc core = pc)
include here

theorem quiet_move (next : SerialPc) (holds : next.holding = pc.holding)
    (sends : next.toSend = pc.toSend) (waits : next.waiting = pc.waiting) :
    Effect w core (w.move core next) := by
  subst pc
  have effect := Effect.quiet next (w.pending core) holds sends (by rw [waits])
  unfold SerialWorld.call at effect
  rw [Function.update_eq_self] at effect
  exact effect

theorem quiet_stay : Effect w core w := by
  have effect := quiet_move here pc rfl rfl rfl
  unfold SerialWorld.move at effect
  rw [← here, Function.update_eq_self] at effect
  exact effect

theorem outb_effect (byte : UInt8) (next : SerialPc) (held : pc.holding = true)
    (holds : next.holding = true) (sends : pc.toSend = byte :: next.toSend)
    (waits : next.waiting = pc.waiting) : Effect w core (w.outb core byte next) := by
  subst pc
  exact Effect.send byte next held holds sends waits

end

theorem step_effect {w t : SerialWorld Core} {action : Action Core}
    (taken : step w action = some t) : Effect w action.core t := by
  obtain ⟨core, ready⟩ := action
  cases here : w.pc core with
  | returned =>
    cases left : w.pending core with
    | nil => simp [step, here, left] at taken
    | cons message rest =>
      simp only [step, here, left, Option.some.injEq] at taken
      subst t
      apply Effect.quiet <;> rw [here]
      · rfl
      · rfl
      · rw [left]
        rfl
  | acquiring message =>
    simp only [step, here] at taken
    split at taken
    · cases taken
      exact quiet_stay here
    · rename_i unlocked
      cases taken
      have free : w.serialLock = false := by simpa using unlocked
      exact Effect.acquire message here free
  | formatting pieces =>
    cases pieces with
    | nil =>
      simp only [step, here, Option.some.injEq] at taken
      subst t
      exact quiet_move here .releasing rfl rfl rfl
    | cons text pieces =>
      simp only [step, here, Option.some.injEq] at taken
      subst t
      exact quiet_move here (.sending text pieces) rfl rfl rfl
  | sending text pieces =>
    cases text with
    | nil =>
      simp only [step, here, Option.some.injEq] at taken
      subst t
      exact quiet_move here (.formatting pieces) rfl rfl rfl
    | cons byte text =>
      simp only [step, here] at taken
      split at taken
      · rename_i newline
        cases taken
        have marked : (SerialPc.writingReturn byte text pieces).toSend =
            (SerialPc.sending (byte :: text) pieces).toSend := by
          rw [newline]
          exact (encode_line_feed (text ++ pieces.flatten)).symm
        exact quiet_move here (.writingReturn byte text pieces) rfl marked rfl
      · rename_i other
        cases taken
        have plain : (SerialPc.writing byte text pieces).toSend =
            (SerialPc.sending (byte :: text) pieces).toSend :=
          (encode_other other (text ++ pieces.flatten)).symm
        exact quiet_move here (.writing byte text pieces) rfl plain rfl
  | writingReturn byte text pieces =>
    simp only [step, here] at taken
    split at taken
    · cases taken
      exact outb_effect here carriageReturn (.writing byte text pieces) rfl rfl rfl rfl
    · cases taken
      exact quiet_stay here
  | writing byte text pieces =>
    simp only [step, here] at taken
    split at taken
    · cases taken
      exact outb_effect here byte (.sending text pieces) rfl rfl rfl rfl
    · cases taken
      exact quiet_stay here
  | releasing =>
    simp only [step, here, Option.some.injEq] at taken
    subst t
    exact Effect.release here

end CellSerial
