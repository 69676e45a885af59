import CellKernel.ConsoleRuns
import CellKernel.Executions

/-
Runs of the two cores with their output come to an end if each core has its turn
again and again and the UART is ready then: neither the lock of the UART nor the
lines that wait for it add a deadlock to the kernel.
-/
namespace CellKernel
open CellCore CellFifo CellPmm CellRuns CellSerial CellTensor Filter Lines

variable {m : Machine} {b : Boot m} {fmt : Formats} {bytes : Bytes} {c t : ConsoleWorld m}

instance : Fintype Core where
  elems := {.bsp, .ap}
  complete := by
    intro core
    cases core <;> decide

abbrev ConsoleExecution (m : Machine) (fmt : Formats) (bytes : Bytes) :=
  Execution (consoleStep fmt) (ConsoleWorld.start m bytes)

/-- The work of the lines that a core is still going to issue. -/
def Boot.unissued (b : Boot m) (fmt : Formats) (w : World m) (core : Core) : Nat :=
  weights ((b.transcript fmt core).drop (b.issued fmt w core).length)

/-- Every step that does not wait lowers this number. -/
def ConsoleWorld.work (b : Boot m) (fmt : Formats) (c : ConsoleWorld m) : Nat :=
  c.cores.world.rank + c.serial.work + b.unissued fmt c.cores.world .bsp +
    b.unissued fmt c.cores.world .ap

theorem unissued_rest {w : World m} {core : Core}
    (part : b.issued fmt w core <+: b.transcript fmt core) :
    weights (b.issued fmt w core) + b.unissued fmt w core =
      weights (b.transcript fmt core) := by
  obtain ⟨rest, whole⟩ := part
  rw [Boot.unissued, ← whole, List.drop_left, weights_append]

theorem unissued_falls {w next : World m} {core : Core} {lines : List Message}
    (before : ∀ c, b.issued fmt w c <+: b.transcript fmt c)
    (after : ∀ c, b.issued fmt next c <+: b.transcript fmt c)
    (issued : b.issued fmt next =
      Function.update (b.issued fmt w) core (b.issued fmt w core ++ lines)) :
    b.unissued fmt next .bsp + b.unissued fmt next .ap + weights lines =
      b.unissued fmt w .bsp + b.unissued fmt w .ap := by
  have own : b.unissued fmt next core + weights lines = b.unissued fmt w core := by
    have rest := unissued_rest (before core)
    have later := unissued_rest (after core)
    rw [issued, Function.update_self, weights_append] at later
    omega
  have others : ∀ c, c ≠ core → b.unissued fmt next c = b.unissued fmt w c := by
    intro c other
    rw [Boot.unissued, Boot.unissued, issued, Function.update_of_ne other]
  cases core with
  | bsp =>
    have ap := others .ap (by simp)
    omega
  | ap =>
    have bsp := others .bsp (by simp)
    omega

theorem console_work_lowers (room : 0 < m.tensorCap) (small : m.batch.length < 2 ^ 31)
    (inv : ConsoleInv b fmt bytes c) {a : ConsoleAction} (taken : consoleStep fmt c a = some t) :
    t = c ∨ t.work b fmt < c.work b fmt := by
  have projected := data_run_projects inv.reached
  rcases console_step_cases taken with ⟨core, next, _, idle, moves, rfl⟩ | ⟨_, _, rfl⟩ |
    ⟨action, serial, _, stepped, rfl⟩
  · right
    have later : Reachable step (World.start m) next :=
      .next core projected trivial (step_of_moves moves)
    have lines := unissued_falls (issued_begins projected) (issued_begins later)
      (move_issues inv room small moves)
    have lower := rank_lowered projected moves
    simp only [ConsoleWorld.work, after_world, work_issue]
    omega
  · exact Or.inl rfl
  · rcases step_lowers stepped with ⟨rfl, _⟩ | lower
    · exact Or.inl rfl
    · right
      simp only [ConsoleWorld.work]
      omega

theorem idle_has_no_call {core : Core} (idle : c.idle core = true) (ready : Bool) :
    CellSerial.step c.serial ⟨core, ready⟩ = none := by
  obtain ⟨returned, none⟩ := idle_calls.mp idle
  simp only [CellSerial.step, returned, none]

theorem waiting_is_end (inter : 0 < m.interCap) (room : 0 < m.tensorCap)
    (fits : m.batch.length ≤ m.completionCap) (small : m.batch.length < 2 ^ 31)
    (inv : ConsoleInv b fmt bytes c)
    (waits : ∀ core, (∃ a, ConsoleAction.turn core a ∧ consoleStep fmt c a = some c) ∨
      ∀ a, ConsoleAction.turn core a → consoleStep fmt c a = none) : c.Ended := by
  have projected := data_run_projects inv.reached
  have still : ∀ core serial, CellSerial.step c.serial ⟨core, true⟩ = some serial →
      serial = c.serial := by
    intro core serial stepped
    rcases waits core with ⟨a, turn, taken⟩ | none
    · cases a with
      | run other =>
        cases turn
        simp only [consoleStep] at taken
        split at taken
        · rename_i idle
          rw [idle_has_no_call idle] at stepped
          cases stepped
        · cases taken
      | serial action =>
        cases turn
        rw [consoleStep, stepped, Option.map_some, Option.some.injEq] at taken
        exact congrArg ConsoleWorld.serial taken
    · have blocked := none (.serial ⟨core, true⟩) rfl
      rw [consoleStep, stepped] at blocked
      cases blocked
  have idle : ∀ core, c.idle core = true :=
    fun core => idle_calls.mpr (calls_returned inv.ordered still core)
  have settled : ∀ core next, coreStep c.cores.world core ≠ .moves next := by
    intro core next moves
    have lower := rank_lowered projected moves
    rcases waits core with ⟨a, turn, taken⟩ | none
    · cases a with
      | run other =>
        cases turn
        simp only [consoleStep, idle, if_true, moves, Option.some.injEq] at taken
        have same := congrArg (fun c => c.cores.world) taken
        simp only [after_world] at same
        rw [same] at lower
        omega
      | serial action =>
        cases turn
        rw [consoleStep, idle_has_no_call (idle core)] at taken
        cases taken
    · have blocked := none (.run core) rfl
      simp [consoleStep, idle, moves] at blocked
  obtain ⟨bsp, ap⟩ := settled_is_end b inter room fits small projected settled
  exact ⟨bsp, ap, idle⟩

theorem console_end_reachable (b : Boot m) (inter : 0 < m.interCap) (room : 0 < m.tensorCap)
    (fits : m.batch.length ≤ m.completionCap) (small : m.batch.length < 2 ^ 31)
    (reached : Reachable (consoleStep fmt) (ConsoleWorld.start m bytes) c) :
    ∃ last, Reachable (consoleStep fmt) c last ∧ last.Ended := by
  obtain ⟨last, later, still⟩ := settles
    (Reachable (consoleStep fmt) (ConsoleWorld.start m bytes)) (ConsoleWorld.work b fmt)
    (fun _ a _ before taken => .next a before trivial taken)
    (fun _ _ _ before taken moved =>
      (console_work_lowers room small (reachable_console_inv room small before)
        taken).resolve_left moved) c reached
  refine ⟨last, later, waiting_is_end inter room fits small
    (reachable_console_inv (b := b) room small (reaches_trans reached later)) ?_⟩
  intro core
  by_cases blocked : ∀ a, ConsoleAction.turn core a → consoleStep fmt last a = none
  · exact Or.inr blocked
  · push Not at blocked
    obtain ⟨a, turn, enabled⟩ := blocked
    obtain ⟨t, taken⟩ := Option.ne_none_iff_exists'.mp enabled
    exact Or.inl ⟨a, turn, still a t taken ▸ taken⟩

/-- In every reachable state COM1 has received the beginning of one of three
    outputs, and at the end the whole of it. -/
theorem console_output (b : Boot m) (room : 0 < m.tensorCap) (small : m.batch.length < 2 ^ 31)
    (reached : Reachable (consoleStep fmt) (ConsoleWorld.start m bytes) c) :
    ∃ late, late ≤ 2 ∧ c.serial.sent <+: encodeAll (b.console fmt late) ∧
      (c.Ended → c.serial.sent = encodeAll (b.console fmt late)) :=
  console_sent (reachable_console_inv room small reached)

def twoPacketFormats : Formats := ⟨fun _ => text "1024", []⟩

theorem two_packet_console_end : ∃ c : ConsoleWorld (twoPacketMachine 2),
    Reachable (consoleStep twoPacketFormats) (ConsoleWorld.start _ fun _ => 0) c ∧ c.Ended := by
  obtain ⟨b⟩ := two_packet_boot 2
  exact console_end_reachable b (by decide) (by decide) (by decide) (by decide) .start

theorem console_output_two_packets :
    ∃ (b : Boot (twoPacketMachine 2)) (c : ConsoleWorld (twoPacketMachine 2)) (late : Nat),
      late ≤ 2 ∧ c.Ended ∧ c.serial.sent = encodeAll (b.console twoPacketFormats late) := by
  obtain ⟨b⟩ := two_packet_boot 2
  obtain ⟨c, reached, ended⟩ := two_packet_console_end
  obtain ⟨late, few, _, whole⟩ := console_output b (by decide) (by decide) reached
  exact ⟨b, c, late, few, ended, whole ended⟩

theorem ended_has_no_step (ended : c.Ended) (a : ConsoleAction) : consoleStep fmt c a = none := by
  obtain ⟨⟨report, bsp⟩, ap, idle⟩ := ended
  cases a with
  | run core => cases core <;> simp [consoleStep, coreStep, bspStep, apStep, bsp, ap]
  | serial action =>
    obtain ⟨core, ready⟩ := action
    rw [consoleStep, idle_has_no_call (idle core)]
    rfl

/-- If each core again and again takes a step for which the UART is ready, or
    has none to take, both come to their end, and COM1 has received one of three
    outputs. -/
theorem fair_console_ends (b : Boot m) (inter : 0 < m.interCap) (room : 0 < m.tensorCap)
    (fits : m.batch.length ≤ m.completionCap) (small : m.batch.length < 2 ^ 31)
    (e : ConsoleExecution m fmt bytes)
    (fair : ∀ core, e.FairTo (ConsoleAction.turn core)) :
    ∃ n late, late ≤ 2 ∧ ∀ k, n ≤ k → (e.states k).Ended ∧
      (e.states k).serial.sent = encodeAll (b.console fmt late) := by
  obtain ⟨n, rests⟩ := e.rests (ConsoleWorld.work b fmt)
    fun _ _ _ before taken => console_work_lowers room small
      (reachable_console_inv room small before) taken
  have inv : ConsoleInv b fmt bytes (e.states n) :=
    reachable_console_inv room small (e.reachable n)
  have ended := waiting_is_end inter room fits small inv fun core => (fair core).at_rest rests
  obtain ⟨late, few, _, whole⟩ := console_sent inv
  refine ⟨n, late, few, ?_⟩
  intro k later
  rw [rests k later]
  exact ⟨ended, whole ended⟩

theorem fair_console_ends_two_packets : ∃ (b : Boot (twoPacketMachine 2))
    (e : ConsoleExecution (twoPacketMachine 2) twoPacketFormats fun _ => 0),
      (∀ core, e.FairTo (ConsoleAction.turn core)) ∧ ∃ n late, ∀ k, n ≤ k →
        (e.states k).serial.sent = encodeAll (b.console twoPacketFormats late) := by
  obtain ⟨b⟩ := two_packet_boot 2
  obtain ⟨c, reached, ended⟩ := two_packet_console_end
  obtain ⟨e, n, rests⟩ := execution_of_reachable reached
  have fair : ∀ core, e.FairTo (ConsoleAction.turn core) := fun core =>
    Execution.fair_to_of_rest (fun k later => (rests k later).1) (ended_has_no_step ended)
  obtain ⟨last, late, _, ends⟩ := fair_console_ends b (by decide) (by decide) (by decide)
    (by decide) e fair
  exact ⟨b, e, fair, last, late, fun k later => (ends k later).2⟩

end CellKernel
