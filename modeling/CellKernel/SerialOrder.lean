import CellKernel.Serial

/-
The lock orders the messages on COM1: what was sent is the encodings of the
messages in the order in which the lock was taken, the last one perhaps in part.
-/
namespace CellSerial
open CellRuns InsertedMark

variable {Core : Type} [DecidableEq Core]

def takenBy (core : Core) (acquired : List (Core × Message)) : List Message :=
  (acquired.filter fun entry => entry.1 = core).map Prod.snd

structure Ordered (messages : Core → List Message) (w : SerialWorld Core) : Prop where
  exclusive : ∀ a b, (w.pc a).holding = true → (w.pc b).holding = true → a = b
  locked : w.serialLock = true ↔ ∃ core, (w.pc core).holding = true
  finished : (∀ core, (w.pc core).holding = false) → w.sent = encodeAll w.acquired
  current : ∀ core, (w.pc core).holding = true → ∃ finished message done,
    w.acquired = finished ++ [(core, message)] ∧ w.sent = encodeAll finished ++ done ∧
      encode message.flatten = done ++ (w.pc core).toSend
  accounted : ∀ core,
    messages core = takenBy core w.acquired ++ ((w.pc core).waiting ++ w.pending core)

omit [DecidableEq Core] in
theorem encode_all_append (first second : List (Core × Message)) :
    encodeAll (first ++ second) = encodeAll first ++ encodeAll second := List.flatMap_append

omit [DecidableEq Core] in
theorem encode_all_single (core : Core) (message : Message) :
    encodeAll [(core, message)] = encode message.flatten := List.flatMap_singleton _ _

theorem taken_by_append (core : Core) (first second : List (Core × Message)) :
    takenBy core (first ++ second) = takenBy core first ++ takenBy core second := by
  rw [takenBy, List.filter_append, List.map_append]
  rfl

theorem taken_by_self (core : Core) (message : Message) :
    takenBy core [(core, message)] = [message] := by
  simp [takenBy]

theorem taken_by_other {core other : Core} (apart : other ≠ core) (message : Message) :
    takenBy other [(core, message)] = [] := by
  simp [takenBy, Ne.symm apart]

/-- A move that keeps a property of the program point keeps it for every core. -/
theorem moved_same {Value : Type} (part : SerialPc → Value) (w : SerialWorld Core) {core : Core}
    {next : SerialPc} (same : part next = part (w.pc core)) (c : Core) :
    part (Function.update w.pc core next c) = part (w.pc c) := by
  by_cases here : c = core
  · subst c
    rw [Function.update_self, same]
  · rw [Function.update_of_ne here]

theorem ordered_start (messages : Core → List Message) :
    Ordered messages (SerialWorld.start messages) := by
  constructor
  · intro a b held _
    cases held
  · constructor
    · intro held
      cases held
    · rintro ⟨core, held⟩
      cases held
  · intro _
    rfl
  · intro core held
    cases held
  · intro core
    rfl

section
variable {messages : Core → List Message} {w : SerialWorld Core} (ordered : Ordered messages w)
include ordered

theorem none_holding (unlocked : w.serialLock = false) (core : Core) :
    (w.pc core).holding = false := by
  rw [← Bool.not_eq_true]
  intro held
  rw [ordered.locked.mpr ⟨core, held⟩] at unlocked
  cases unlocked

theorem others_free {core other : Core} (held : (w.pc core).holding = true)
    (apart : other ≠ core) : (w.pc other).holding = false := by
  rw [← Bool.not_eq_true]
  intro heldOther
  exact apart (ordered.exclusive other core heldOther held)

omit ordered in
/-- When no other core holds the lock, only the moved one can after the move. -/
theorem moved_holder {core c : Core} {next : SerialPc}
    (free : ∀ other, other ≠ core → (w.pc other).holding = false)
    (held : (Function.update w.pc core next c).holding = true) : c = core := by
  by_contra apart
  rw [Function.update_of_ne apart, free c apart] at held
  cases held

theorem ordered_quiet {core : Core} {next : SerialPc} {rest : List Message}
    (holds : next.holding = (w.pc core).holding) (sends : next.toSend = (w.pc core).toSend)
    (waits : next.waiting ++ rest = (w.pc core).waiting ++ w.pending core) :
    Ordered messages (w.call core next rest) := by
  have sameHolding := moved_same SerialPc.holding w holds
  have sameSends := moved_same SerialPc.toSend w sends
  constructor
  · intro a b heldA heldB
    rw [call_pc, sameHolding] at heldA heldB
    exact ordered.exclusive a b heldA heldB
  · simp only [call_lock, call_pc, sameHolding]
    exact ordered.locked
  · simp only [call_pc, sameHolding, call_sent, call_acquired]
    exact ordered.finished
  · intro c held
    rw [call_pc, sameHolding] at held
    rw [call_acquired, call_sent, call_pc, sameSends]
    exact ordered.current c held
  · intro c
    rw [call_acquired, call_pc, call_pending, ordered.accounted c]
    by_cases here : c = core
    · subst c
      rw [Function.update_self, Function.update_self, waits]
    · rw [Function.update_of_ne here, Function.update_of_ne here]

theorem ordered_acquire {core : Core} {message : Message}
    (here : w.pc core = .acquiring message) (unlocked : w.serialLock = false) :
    Ordered messages (w.acquire core message) := by
  have free := none_holding ordered unlocked
  have moved : (Function.update w.pc core (.formatting message) core).holding = true := by
    rw [Function.update_self]
    rfl
  have holder : ∀ c, (Function.update w.pc core (.formatting message) c).holding = true →
      c = core := fun c held => moved_holder (fun other _ => free other) held
  constructor
  · intro a b heldA heldB
    rw [holder a heldA, holder b heldB]
  · constructor
    · intro _
      exact ⟨core, moved⟩
    · intro _
      exact acquire_lock w core message
  · intro none
    have held := none core
    rw [acquire_pc, moved] at held
    cases held
  · intro c held
    obtain rfl := holder c held
    refine ⟨w.acquired, message, [], acquire_acquired w c message, ?_, ?_⟩
    · rw [acquire_sent, List.append_nil]
      exact ordered.finished free
    · rw [acquire_pc, Function.update_self, List.nil_append]
      rfl
  · intro c
    rw [acquire_acquired, acquire_pc, acquire_pending, taken_by_append, ordered.accounted c]
    by_cases same : c = core
    · -- The message moves from the call that waits to the record of the lock.
      subst c
      rw [here, Function.update_self, taken_by_self, List.append_assoc]
      rfl
    · rw [Function.update_of_ne same, taken_by_other same, List.append_nil]

theorem ordered_send {core : Core} {byte : UInt8} {next : SerialPc}
    (held : (w.pc core).holding = true) (holds : next.holding = true)
    (sends : (w.pc core).toSend = byte :: next.toSend)
    (waits : next.waiting = (w.pc core).waiting) :
    Ordered messages (w.outb core byte next) := by
  have sameHolding := moved_same SerialPc.holding w (holds.trans held.symm)
  have sameWaiting := moved_same SerialPc.waiting w waits
  constructor
  · intro a b heldA heldB
    rw [outb_pc, sameHolding] at heldA heldB
    exact ordered.exclusive a b heldA heldB
  · simp only [outb_lock, outb_pc, sameHolding]
    exact ordered.locked
  · intro free
    have stillHeld := free core
    rw [outb_pc, sameHolding, held] at stillHeld
    cases stillHeld
  · intro c heldAfter
    obtain rfl := moved_holder (fun other => others_free ordered held) heldAfter
    obtain ⟨finished, message, done, acquired, sent, encoded⟩ := ordered.current c held
    refine ⟨finished, message, done ++ [byte], acquired, ?_, ?_⟩
    · rw [outb_sent, sent, List.append_assoc]
    · rw [encoded, sends, outb_pc, Function.update_self, List.append_assoc]
      rfl
  · intro c
    rw [outb_acquired, outb_pc, sameWaiting, outb_pending]
    exact ordered.accounted c

theorem ordered_release {core : Core} (here : w.pc core = .releasing) :
    Ordered messages (w.release core) := by
  have held : (w.pc core).holding = true := by
    rw [here]
    rfl
  have waits : SerialPc.returned.waiting = (w.pc core).waiting := by
    rw [here]
    rfl
  have sameWaiting := moved_same SerialPc.waiting w waits
  have free : ∀ c, ¬ (Function.update w.pc core .returned c).holding = true := by
    intro c stillHeld
    obtain rfl := moved_holder (fun other => others_free ordered held) stillHeld
    rw [Function.update_self] at stillHeld
    cases stillHeld
  constructor
  · intro a b heldA _
    exact absurd heldA (free a)
  · constructor
    · intro locked
      rw [release_lock] at locked
      cases locked
    · rintro ⟨c, stillHeld⟩
      exact absurd stillHeld (free c)
  · intro _
    obtain ⟨finished, message, done, acquired, sent, encoded⟩ := ordered.current core held
    rw [here, SerialPc.toSend, List.append_nil] at encoded
    rw [release_sent, release_acquired, acquired, encode_all_append, encode_all_single, sent,
      encoded]
  · intro c stillHeld
    exact absurd stillHeld (free c)
  · intro c
    rw [release_acquired, release_pc, sameWaiting, release_pending]
    exact ordered.accounted c

theorem ordered_step {t : SerialWorld Core} {action : Action Core}
    (taken : step w action = some t) : Ordered messages t := by
  cases step_effect taken with
  | quiet next rest holds sends waits => exact ordered_quiet ordered holds sends waits
  | acquire message here unlocked => exact ordered_acquire ordered here unlocked
  | send byte next held holds sends waits =>
    exact ordered_send ordered held holds sends waits
  | release here => exact ordered_release ordered here

end

theorem ordered_reachable {messages : Core → List Message} {w : SerialWorld Core}
    (reached : Reachable step (.start messages) w) : Ordered messages w := by
  apply holds_throughout (ordered_start messages) _ reached
  intro s action t _ ordered _ taken
  exact ordered_step ordered taken

theorem return_not_feed : carriageReturn ≠ lineFeed := by decide

omit [DecidableEq Core] in
theorem encode_all_text (messages : List (Core × Message)) :
    encodeAll messages = encode (textOf messages) := by
  induction messages with
  | nil => rfl
  | cons entry messages ih =>
    calc encodeAll (entry :: messages)
      _ = encode entry.2.flatten ++ encodeAll messages := List.flatMap_cons
      _ = encode entry.2.flatten ++ encode (textOf messages) := by rw [ih]
      _ = encode (entry.2.flatten ++ textOf messages) := (insert_append _ _ _ _).symm
      _ = encode (textOf (entry :: messages)) := by rw [textOf, textOf, List.flatMap_cons]

omit [DecidableEq Core] in
theorem decode_all (messages : List (Core × Message)) :
    decode (encodeAll messages) = textOf messages := by
  rw [encode_all_text]
  exact remove_insert return_not_feed _

omit [DecidableEq Core] in
theorem decode_partial (messages : List (Core × Message)) {text done : List UInt8}
    (part : done <+: encode text) :
    decode (encodeAll messages ++ done) = textOf messages ++ decode done := by
  rw [encode_all_text]
  exact remove_insert_append return_not_feed _ (prefix_head return_not_feed part)

/-- In every reachable state, for any cores and messages. The carriage return at
    the very end of the output may still wait for its line feed. -/
theorem serial_messages_never_mix {messages : Core → List Message} {w : SerialWorld Core}
    (reached : Reachable step (.start messages) w) :
    (∀ a b, (w.pc a).holding = true → (w.pc b).holding = true → a = b) ∧
      ((∀ core, (w.pc core).holding = false) →
        w.sent = encodeAll w.acquired ∧ decode w.sent = textOf w.acquired) ∧
      (∀ core, (w.pc core).holding = true → ∃ finished message done,
        w.acquired = finished ++ [(core, message)] ∧
          done <+: encode message.flatten ∧
          w.sent = encodeAll finished ++ done ∧
          decode w.sent = textOf finished ++ decode done ∧
          ∃ kept, kept <+: message.flatten ∧
            (decode done = kept ∨ decode done = kept ++ [carriageReturn])) ∧
      ∀ core,
        messages core = takenBy core w.acquired ++ ((w.pc core).waiting ++ w.pending core) := by
  have ordered := ordered_reachable reached
  refine ⟨ordered.exclusive, ?_, ?_, ordered.accounted⟩
  · intro free
    have sent := ordered.finished free
    refine ⟨sent, ?_⟩
    rw [sent, decode_all]
  · intro core held
    obtain ⟨finished, message, done, acquired, sent, encoded⟩ := ordered.current core held
    have part : done <+: encode message.flatten := ⟨_, encoded.symm⟩
    refine ⟨finished, message, done, acquired, part, sent, ?_, ?_⟩
    · rw [sent]
      exact decode_partial finished part
    · exact remove_prefix return_not_feed part

/-- Two cores: the second spins until the first has sent its line. -/
theorem serial_messages_never_mix_two_cores :
    ∃ w : SerialWorld Bool,
      Reachable step (.start fun core => if core then [[[33]]] else [[[72], [10]]]) w ∧
        w.sent = [72, 13, 10, 33] ∧ decode w.sent = textOf w.acquired := by
  have ran : (run step (fun _ _ => True)
      (.start fun core : Bool => if core then [[[33]]] else [[[72], [10]]])
      ([false, true, false, true, false, false, false, false, false, true, false, false, false,
        false, false, false, true, true, true, true, true, true, true].map
          fun core => ⟨core, true⟩)).map (fun w =>
        w.sent == [72, 13, 10, 33] && !(w.pc false).holding && !(w.pc true).holding) =
          some true := by decide
  obtain ⟨w, reached, shows⟩ := reaches_showing _ _ ran
  simp only [Bool.and_eq_true, beq_iff_eq, Bool.not_eq_true'] at shows
  have free : ∀ core, (w.pc core).holding = false := by
    intro core
    cases core with
    | false => exact shows.1.2
    | true => exact shows.2
  exact ⟨w, reached, shows.1.1, ((serial_messages_never_mix reached).2.1 free).2⟩

end CellSerial
