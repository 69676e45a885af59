import CellKernel.ConsoleOrder

/-
Runs of the two cores with their output. What COM1 has received is, up to the
byte, the beginning of one of three outputs.
-/
namespace CellKernel
open CellCore CellFifo CellPmm CellRuns CellSerial CellTensor Lines

variable {m : Machine} {b : Boot m} {fmt : Formats} {bytes : Bytes} {c t : ConsoleWorld m}

theorem console_step_cases {a : ConsoleAction} (taken : consoleStep fmt c a = some t) :
    (∃ core next, a = .run core ∧ c.idle core = true ∧ coreStep c.cores.world core = .moves next ∧
      t = ⟨c.cores.after next core, contextAfter c core,
        c.serial.issue core (linesOf fmt c core)⟩) ∨
    (∃ core, a = .run core ∧ t = c) ∨
    ∃ action serial, a = .serial action ∧ CellSerial.step c.serial action = some serial ∧
      t = { c with serial := serial } := by
  cases a with
  | run core =>
    simp only [consoleStep] at taken
    split at taken
    · rename_i idle
      split at taken
      · rename_i next moves
        cases taken
        exact Or.inl ⟨core, next, rfl, idle, moves, rfl⟩
      · cases taken
        exact Or.inr (Or.inl ⟨core, rfl, rfl⟩)
      · cases taken
    · cases taken
  | serial action =>
    obtain ⟨serial, stepped, rfl⟩ := Option.map_eq_some_iff.mp taken
    exact Or.inr (Or.inr ⟨action, serial, rfl, stepped, rfl⟩)

/-- A step of serial_write records at most one line, that of a core that waited
    for the lock. -/
theorem serial_acquires {w s : SerialWorld Core} {action : CellSerial.Action Core}
    (stepped : CellSerial.step w action = some s) : s.acquired = w.acquired ∨
      ∃ message, w.pc action.core = .acquiring message ∧
        s.acquired = w.acquired ++ [(action.core, message)] := by
  cases step_effect stepped with
  | acquire message here unlocked => exact Or.inr ⟨message, here, rfl⟩
  | _ => exact Or.inl rfl

/-- The lines that the BSP has issued before it starts the AP, and before it
    waits for the tensor. -/
theorem bsp_issued_before {w next : World m} (move : BspMove w next) :
    (1 ≤ next.bsp.phase → 5 ≤ (b.issued fmt w .bsp).length) ∧
      (3 ≤ next.bsp.phase → 7 ≤ (b.issued fmt w .bsp).length) := by
  rw [Boot.issued]
  have opening : b.opening.length = 5 := rfl
  have joined : b.joined.length = 7 := rfl
  cases move with
  | booted pc later next here same ap there =>
    rw [there]
    simp [BspPc.phase]
  | bootFailed pc why held next here same ap there during =>
    rw [there, boot_failure_phase during]
    simp
  | _ =>
    simp [*, BspPc.phase, Boot.bspIssued, Boot.reporting, BootPc.issued, World.halt] <;> omega

theorem bsp_issued_phase {w : World m} (many : 8 ≤ (b.issued fmt w .bsp).length) :
    4 ≤ w.bsp.phase := by
  rw [Boot.issued] at many
  have opening : b.opening.length = 5 := rfl
  have joined : b.joined.length = 7 := rfl
  cases here : w.bsp with
  | reporting r => exact le_refl 4
  | finished r => exact Nat.le_succ 4
  | booting pc =>
    rw [here, Boot.bspIssued, List.length_take] at many
    omega
  | _ =>
    simp only [here, Boot.bspIssued, List.length_nil] at many
    omega

theorem ap_issued_phase (pc : ApPc) : (1 ≤ (b.apIssued pc).length → 2 ≤ pc.phase) ∧
    (2 ≤ (b.apIssued pc).length → 6 ≤ pc.phase) ∧ (b.apIssued pc).length ≤ 2 := by
  cases pc <;> simp [Boot.apIssued, ApPc.phase]

theorem ap_issued_before {w next : World m} (move : ApMove w next) (ended : next.ap.phase = 7) :
    (b.apIssued w.ap).length = 2 := by
  cases move with
  | completed returned here =>
    rw [here]
    rfl
  | _ => simp [ApPc.phase] at ended

theorem bsp_move_ap {w next : World m} (move : BspMove w next) :
    next.ap = w.ap ∨ next.ap = .starting := by
  cases move with
  | booted pc later next here same ap => exact Or.inl ap
  | bootFailed pc why held next here same ap => exact Or.inl ap
  | apStarted => exact Or.inr rfl
  | _ => exact Or.inl rfl

theorem ap_move_bsp {w next : World m} (move : ApMove w next) : next.bsp = w.bsp := by
  cases move <;> rfl

theorem context_of_tensor {next : World m} (course : OnCourse b c.cores.world)
    (move : ApMove c.cores.world next) {physAddr : UInt64} (here : next.ap = .freeing physAddr) :
    contextAfter c .ap = ⟨100, 100, 0⟩ := by
  have place := course.ap
  cases move with
  | reduced tensor count reducing read =>
    rw [reducing] at place
    have same : tensor = b.tensor := place
    simp only [contextAfter, reducing, same]
    rfl
  | _ => cases here

/-- How many lines of each core are out when the other may write its next. -/
structure ConsoleInv (b : Boot m) (fmt : Formats) (bytes : Bytes) (c : ConsoleWorld m) :
    Prop where
  reached : Reachable dataStep (DataWorld.start m bytes) c.cores
  ordered : Ordered (b.issued fmt c.cores.world) c.serial
  context : ∀ physAddr, c.cores.world.ap = .freeing physAddr → c.context = ⟨100, 100, 0⟩
  started : 1 ≤ c.cores.world.bsp.phase → 5 ≤ (takenBy .bsp c.serial.acquired).length
  sent : 3 ≤ c.cores.world.bsp.phase → 7 ≤ (takenBy .bsp c.serial.acquired).length
  complete : c.cores.world.ap.phase = 7 → 2 ≤ (takenBy .ap c.serial.acquired).length
  arranged : Arranged c.serial.acquired

theorem console_inv_start : ConsoleInv b fmt bytes (ConsoleWorld.start m bytes) := by
  constructor
  · exact .start
  · have issued : b.issued fmt (World.start m) =
        (ConsoleWorld.start m bytes).serial.pending := by
      funext core
      cases core <;> rfl
    change Ordered (b.issued fmt (World.start m)) _
    rw [issued]
    exact ordered_start _
  · intro physAddr here
    cases here
  · intro later
    cases later
  · intro later
    cases later
  · intro ended
    cases ended
  · exact .opening [] (Nat.zero_le 7)

theorem idle_calls {core : Core} : c.idle core = true ↔
    c.serial.pc core = .returned ∧ c.serial.pending core = [] := by
  simp [ConsoleWorld.idle]

section
variable (inv : ConsoleInv b fmt bytes c)
include inv

theorem idle_taken {core : Core} (idle : c.idle core = true) :
    takenBy core c.serial.acquired = b.issued fmt c.cores.world core := by
  obtain ⟨returned, none⟩ := idle_calls.mp idle
  rw [inv.ordered.accounted core, returned, none]
  simp [SerialPc.waiting]

theorem acquiring_issued {core : Core} {message : Message}
    (here : c.serial.pc core = .acquiring message) :
    (takenBy core c.serial.acquired).length + 1 ≤ (b.issued fmt c.cores.world core).length := by
  rw [inv.ordered.accounted core, here]
  simp [SerialPc.waiting]

/-- Whichever core takes the lock, its line stands at its place. -/
theorem arranged_acquire {core : Core} {message : Message}
    (here : c.serial.pc core = .acquiring message) :
    Arranged (c.serial.acquired ++ [(core, message)]) := by
  have paced := reachable_paced (data_run_projects inv.reached)
  cases core with
  | bsp =>
    apply arranged_bsp inv.arranged
    by_cases early : (takenBy .bsp c.serial.acquired).length < 7
    · exact Or.inl early
    · -- The eighth line comes after TENSOR_COMPLETE, which the AP sets at its end.
      have late : 4 ≤ c.cores.world.bsp.phase :=
        bsp_issued_phase ((Nat.succ_le_succ (Nat.le_of_not_lt early)).trans
          (acquiring_issued inv here))
      exact Or.inr (inv.complete (paced.complete.mp (paced.waited late)))
  | ap =>
    obtain ⟨one, two, most⟩ := ap_issued_phase (b := b) c.cores.world.ap
    have more : (takenBy .ap c.serial.acquired).length + 1 ≤
        (b.apIssued c.cores.world.ap).length := acquiring_issued inv here
    apply arranged_ap inv.arranged
    · omega
    · apply inv.started
      have parked := paced.parked
      have launched := one (by omega)
      omega
    · intro written
      apply inv.sent
      have tensor := paced.tensor
      have late := two (by omega)
      by_contra early
      rw [if_pos (by omega), if_neg early] at tensor
      omega

theorem console_inv_serial {action : CellSerial.Action Core} {serial : SerialWorld Core}
    (stepped : CellSerial.step c.serial action = some serial) :
    ConsoleInv b fmt bytes { c with serial := serial } := by
  have ordered := ordered_step inv.ordered stepped
  rcases serial_acquires stepped with same | ⟨message, here, acquired⟩
  · constructor
    all_goals simp only [same]
    · exact inv.reached
    · exact ordered
    · exact inv.context
    · exact inv.started
    · exact inv.sent
    · exact inv.complete
    · exact inv.arranged
  · have grows : ∀ core, (takenBy core c.serial.acquired).length ≤
        (takenBy core serial.acquired).length := by
      intro core
      rw [acquired, taken_by_append, List.length_append]
      exact Nat.le_add_right _ _
    constructor
    · exact inv.reached
    · exact ordered
    · exact inv.context
    · exact fun later => (inv.started later).trans (grows .bsp)
    · exact fun later => (inv.sent later).trans (grows .bsp)
    · exact fun ended => (inv.complete ended).trans (grows .ap)
    · change Arranged serial.acquired
      rw [acquired]
      exact arranged_acquire inv here

theorem move_issues (room : 0 < m.tensorCap) (small : m.batch.length < 2 ^ 31) {core : Core}
    {next : World m} (moves : coreStep c.cores.world core = .moves next) :
    b.issued fmt next = Function.update (b.issued fmt c.cores.world) core
      (b.issued fmt c.cores.world core ++ linesOf fmt c core) := by
  funext other
  cases core with
  | bsp =>
    cases other with
    | bsp =>
      rw [Function.update_self]
      exact bsp_issues room small inv.reached moves
    | ap => exact bsp_keeps_ap_issued (data_run_projects inv.reached) moves
  | ap =>
    cases other with
    | bsp => exact (ap_issues room inv.reached inv.context moves).2
    | ap =>
      rw [Function.update_self]
      exact (ap_issues room inv.reached inv.context moves).1

theorem console_inv_run (room : 0 < m.tensorCap) (small : m.batch.length < 2 ^ 31) {core : Core}
    (idle : c.idle core = true) {next : World m}
    (moves : coreStep c.cores.world core = .moves next) :
    ConsoleInv b fmt bytes ⟨c.cores.after next core, contextAfter c core,
      c.serial.issue core (linesOf fmt c core)⟩ := by
  have taken := idle_taken inv idle
  have projected := data_run_projects inv.reached
  have reached : Reachable dataStep (DataWorld.start m bytes) (c.cores.after next core) :=
    .next core inv.reached trivial (data_step_moves moves)
  have ordered : Ordered (b.issued fmt next) (c.serial.issue core (linesOf fmt c core)) :=
    move_issues inv room small moves ▸ ordered_issue inv.ordered core _
  cases core with
  | bsp =>
    have move := bsp_move_cases moves
    obtain ⟨started, sent⟩ := bsp_issued_before move
    rw [← taken] at started sent
    constructor
    all_goals simp only [after_world]
    · exact reached
    · exact ordered
    · intro physAddr here
      rcases bsp_move_ap move with same | starting
      · exact inv.context physAddr (same ▸ here)
      · rw [starting] at here
        cases here
    · exact started
    · exact sent
    · intro ended
      rcases bsp_move_ap move with same | starting
      · exact inv.complete (same ▸ ended)
      · rw [starting] at ended
        cases ended
    · exact inv.arranged
  | ap =>
    have move := ap_move_cases moves
    have bsp := ap_move_bsp move
    constructor
    all_goals simp only [after_world]
    · exact reached
    · exact ordered
    · intro physAddr here
      exact context_of_tensor (reachable_on_course b room projected) move here
    · rw [bsp]
      exact inv.started
    · rw [bsp]
      exact inv.sent
    · intro ended
      change 2 ≤ (takenBy .ap c.serial.acquired).length
      rw [taken]
      exact (ap_issued_before move ended).ge
    · exact inv.arranged

end

theorem reachable_console_inv (room : 0 < m.tensorCap) (small : m.batch.length < 2 ^ 31)
    (reached : Reachable (consoleStep fmt) (ConsoleWorld.start m bytes) c) :
    ConsoleInv b fmt bytes c := by
  apply holds_throughout console_inv_start _ reached
  intro c a t _ inv _ taken
  rcases console_step_cases taken with ⟨core, next, _, idle, moves, rfl⟩ | ⟨_, _, rfl⟩ |
    ⟨action, serial, _, stepped, rfl⟩
  · exact console_inv_run inv room small idle moves
  · exact inv
  · exact console_inv_serial inv stepped

structure ConsoleWorld.Ended (c : ConsoleWorld m) : Prop where
  bsp : ∃ report, c.cores.world.bsp = .finished report
  ap : c.cores.world.ap = .finished
  idle : ∀ core, c.idle core = true

/-- What has been written is the beginning of one of three outputs, and at the
    end the whole of it. -/
theorem console_acquired (inv : ConsoleInv b fmt bytes c) :
    ∃ late, late ≤ 2 ∧ c.serial.acquired <+: b.console fmt late ∧
      (c.Ended → c.serial.acquired = b.console fmt late) := by
  have projected := data_run_projects inv.reached
  have part : ∀ core, takenBy core c.serial.acquired <+: b.transcript fmt core := by
    intro core
    have issued : b.issued fmt c.cores.world core <+: b.transcript fmt core :=
      issued_begins projected core
    rw [inv.ordered.accounted core] at issued
    exact (List.prefix_append _ _).trans issued
  obtain ⟨late, few, beginning⟩ := arranged_begins inv.arranged (part .bsp) (part .ap)
  refine ⟨late, few, beginning, ?_⟩
  intro ended
  obtain ⟨report, bsp⟩ := ended.bsp
  apply console_whole beginning
  intro core
  rw [idle_taken inv (ended.idle core)]
  cases core with
  | bsp => exact bsp_issued_at_end projected bsp
  | ap =>
    rw [Boot.issued, ended.ap]
    rfl

theorem ended_sent (inv : ConsoleInv b fmt bytes c) (ended : c.Ended) :
    c.serial.sent = encodeAll c.serial.acquired := by
  apply inv.ordered.finished
  intro core
  rw [(idle_calls.mp (ended.idle core)).1]
  rfl

theorem console_sent (inv : ConsoleInv b fmt bytes c) :
    ∃ late, late ≤ 2 ∧ c.serial.sent <+: encodeAll (b.console fmt late) ∧
      (c.Ended → c.serial.sent = encodeAll (b.console fmt late)) := by
  obtain ⟨late, few, ⟨rest, whole⟩, all⟩ := console_acquired inv
  refine ⟨late, few, ?_, fun ended => by rw [ended_sent inv ended, all ended]⟩
  apply (sent_begins inv.ordered).trans
  rw [← whole, encode_all_append]
  exact List.prefix_append _ _

end CellKernel
