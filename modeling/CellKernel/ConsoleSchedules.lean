import CellKernel.ConsoleFairness

/-
Each of the three outputs of the kernel is that of some schedule, and they are
different.
-/
namespace CellKernel
open CellCore CellFifo CellPmm CellRuns CellSerial CellTensor Lines

variable {m : Machine} {b : Boot m} {fmt : Formats} {bytes : Bytes} {c t : ConsoleWorld m}

theorem serial_run_lifts {serial : SerialWorld Core}
    (reached : Reachable CellSerial.step c.serial serial) :
    Reachable (consoleStep fmt) c { c with serial := serial } := by
  induction reached with
  | start => exact .start
  | next action before _ taken ih =>
    apply Reaches.next (.serial action) ih trivial
    rw [consoleStep, taken]
    rfl

theorem acquired_grows (reached : Reachable (consoleStep fmt) c t) :
    c.serial.acquired <+: t.serial.acquired := by
  induction reached with
  | start => exact List.prefix_refl _
  | next a before _ taken ih =>
    refine ih.trans ?_
    rcases console_step_cases taken with ⟨core, next, _, _, _, rfl⟩ | ⟨_, _, rfl⟩ |
      ⟨action, serial, _, stepped, rfl⟩
    · exact List.prefix_refl _
    · exact List.prefix_refl _
    · rcases serial_acquires stepped with same | ⟨message, _, acquired⟩
      · exact same ▸ List.prefix_refl _
      · exact acquired ▸ List.prefix_append _ _

/-- With no call under way the lines that the cores have issued can be written in
    any order that keeps the order of each core. -/
theorem lines_out (inv : ConsoleInv b fmt bytes c)
    (returned : ∀ core, c.serial.pc core = .returned) (lines : List (Core × Message))
    (pending : ∀ core, c.serial.pending core = takenBy core lines) :
    ∃ t, Reachable (consoleStep fmt) c t ∧ t.cores = c.cores ∧ (∀ core, t.idle core = true) ∧
      t.serial.acquired = c.serial.acquired ++ lines := by
  obtain ⟨serial, reached, _, pc, none, acquired⟩ :=
    lines_written inv.ordered returned lines (fun _ => []) fun core => by
      rw [pending, List.append_nil]
  refine ⟨_, serial_run_lifts reached, rfl, ?_, acquired⟩
  intro core
  apply idle_calls.mpr
  exact ⟨by rw [pc, returned], by rw [none]⟩

theorem run_step {core : Core} {next : World m} (idle : c.idle core = true)
    (moves : coreStep c.cores.world core = .moves next) :
    consoleStep fmt c (.run core) = some ⟨c.cores.after next core, contextAfter c core,
      c.serial.issue core (linesOf fmt c core)⟩ := by
  simp only [consoleStep, idle, if_true, moves]

theorem console_run_lifts (b : Boot m) (fmt : Formats) (room : 0 < m.tensorCap)
    (small : m.batch.length < 2 ^ 31) {d : DataWorld m}
    (reached : Reachable dataStep (DataWorld.start m bytes) d) :
    ∃ c, Reachable (consoleStep fmt) (ConsoleWorld.start m bytes) c ∧ c.cores = d ∧
      ∀ core, c.idle core = true := by
  induction reached with
  | start =>
    have inv : ConsoleInv b fmt bytes (ConsoleWorld.start m bytes) := console_inv_start
    obtain ⟨t, reached, same, idle, _⟩ := lines_out inv (fun _ => rfl) (byBsp [active]) (by
      intro core
      cases core <;> rfl)
    exact ⟨t, reached, same, idle⟩
  | @next d e core before _ taken ih =>
    obtain ⟨c, reached, rfl, idle⟩ := ih
    rcases data_step_cases taken with ⟨next, moves, rfl⟩ | rfl
    · have ran : Reachable (consoleStep fmt) (ConsoleWorld.start m bytes) _ :=
        .next (.run core) reached trivial (run_step (idle core) moves)
      have inv : ConsoleInv b fmt bytes _ := reachable_console_inv room small ran
      obtain ⟨t, later, same, rests, _⟩ := lines_out inv
        (fun other => (idle_calls.mp (idle other)).1) ((linesOf fmt c core).map (Prod.mk core)) (by
          intro other
          have none := (idle_calls.mp (idle other)).2
          rw [issue_pending]
          by_cases own : other = core
          · subst other
            rw [Function.update_self, none, taken_of_own, List.nil_append]
          · rw [Function.update_of_ne own, none, taken_of_other own])
      exact ⟨t, reaches_trans ran later, same, rests⟩
    · exact ⟨c, reached, rfl, idle⟩

theorem run_issues (fmt : Formats) {core : Core} {next : World m} {lines : List Message}
    (idle : c.idle core = true) (moves : coreStep c.cores.world core = .moves next)
    (adds : linesOf fmt c core = lines) :
    ∃ t, consoleStep fmt c (.run core) = some t ∧ t.cores.world = next ∧
      t.serial = c.serial.issue core lines := by
  refine ⟨_, run_step idle moves, after_world c.cores next core, ?_⟩
  rw [adds]

theorem both_issue (b : Boot m) (fmt : Formats) (bytes : Bytes) (room : 0 < m.tensorCap)
    (small : m.batch.length < 2 ^ 31) :
    ∃ c, Reachable (consoleStep fmt) (ConsoleWorld.start m bytes) c ∧
      (∀ core, c.serial.pc core = .returned) ∧ c.serial.acquired = byBsp b.opening ∧
      c.serial.pending .bsp = [pipelineOnline, feedbackActive] ∧
      c.serial.pending .ap = [apOnline] := by
  have lift : ∀ w, Reachable step (World.start m) w →
      ∃ d, Reachable dataStep (DataWorld.start m bytes) d ∧ d.world = w :=
    fun _ reached => data_run_lifts reached
  obtain ⟨d, data, launched⟩ := lift _ b.launched_reachable
  obtain ⟨c, reached, rfl, idle⟩ := console_run_lifts b fmt room small data
  have inv : ConsoleInv b fmt bytes c := reachable_console_inv room small reached
  have calls := fun core => idle_calls.mp (idle core)
  have bsp : c.cores.world.bsp = .awaitingAp b.tensor := by
    rw [launched]
    rfl
  have ap : c.cores.world.ap = .starting := by
    rw [launched]
    rfl
  have opened : c.serial.acquired = byBsp b.opening := by
    have none := idle_taken inv (idle .ap)
    have opening := idle_taken inv (idle .bsp)
    rw [Boot.issued, ap] at none
    rw [Boot.issued, bsp] at opening
    rw [by_bsp_of_none inv.arranged none, opening]
    rfl
  obtain ⟨c₁, announces, world₁, serial₁⟩ := run_issues fmt (idle .ap)
    (show coreStep c.cores.world .ap =
        .moves { c.cores.world with apReady := true, ap := .working } by
      simp only [coreStep, apStep, ap])
    (show linesOf fmt c .ap = [apOnline] by simp only [linesOf, apLines, ap])
  have idle₁ : c₁.idle .bsp = true := by
    apply idle_calls.mpr
    rw [serial₁, issue_pc, issue_pending, Function.update_of_ne (by simp)]
    exact calls .bsp
  obtain ⟨c₂, sees, _, serial₂⟩ := run_issues fmt idle₁
    (show coreStep c₁.cores.world .bsp =
        .moves { c₁.cores.world with bsp := .sending b.tensor } by
      simp only [coreStep, bspStep, world₁, bsp, if_true])
    (show linesOf fmt c₁ .bsp = [pipelineOnline, feedbackActive] by
      simp only [linesOf, bspLines, world₁, bsp])
  refine ⟨c₂, .next _ (.next _ reached trivial announces) trivial sees, ?_, ?_, ?_, ?_⟩
  · intro core
    rw [serial₂, serial₁]
    exact (calls core).1
  · rw [serial₂, serial₁]
    exact opened
  · rw [serial₂, issue_pending, Function.update_self, serial₁, issue_pending,
      Function.update_of_ne (by simp), (calls .bsp).2]
    rfl
  · rw [serial₂, issue_pending, Function.update_of_ne (by simp), serial₁, issue_pending,
      Function.update_self, (calls .ap).2]
    rfl

theorem first_of_ap {before later : List Message} {first other : Message}
    {rest more : List (Core × Message)}
    (same : byBsp before ++ (.ap, first) :: rest = byBsp later ++ (.ap, other) :: more) :
    before = later := by
  induction before generalizing later with
  | nil =>
    cases later with
    | nil => rfl
    | cons message later => simp [byBsp] at same
  | cons message before ih =>
    cases later with
    | nil => simp [byBsp] at same
    | cons message' later =>
      simp only [byBsp, List.map_cons, List.cons_append, List.cons.injEq, Prod.mk.injEq] at same
      rw [same.1.2, ih same.2]

theorem output_occurs (b : Boot m) (inter : 0 < m.interCap) (room : 0 < m.tensorCap)
    (fits : m.batch.length ≤ m.completionCap) (small : m.batch.length < 2 ^ 31) {late : Nat}
    (few : late ≤ 2) : ∃ c, Reachable (consoleStep fmt) (ConsoleWorld.start m bytes) c ∧
      c.Ended ∧ c.serial.sent = encodeAll (b.console fmt late) := by
  obtain ⟨c, reached, returned, opened, bsp, ap⟩ := both_issue b fmt bytes room small
  have pending : ∀ core, c.serial.pending core =
      takenBy core (byBsp ([pipelineOnline, feedbackActive].take late) ++
        (.ap, apOnline) :: byBsp ([pipelineOnline, feedbackActive].drop late)) := by
    intro core
    rw [taken_by_append, taken_by_cons]
    cases core with
    | bsp =>
      rw [bsp, taken_by_bsp, taken_by_bsp, taken_by_other (by simp), List.nil_append,
        List.take_append_drop]
    | ap =>
      rw [ap, taken_by_ap, taken_by_ap, taken_by_self]
      rfl
  obtain ⟨t, out, _, _, acquired⟩ :=
    lines_out (reachable_console_inv (b := b) room small reached) returned _ pending
  obtain ⟨last, ends, ended⟩ :=
    console_end_reachable b inter room fits small (reaches_trans reached out)
  have whole := reaches_trans (reaches_trans reached out) ends
  have inv : ConsoleInv b fmt bytes last := reachable_console_inv room small whole
  obtain ⟨place, upto, _, all⟩ := console_acquired inv
  obtain ⟨rest, more⟩ := acquired_grows ends
  rw [acquired, opened, all ended, Boot.console, ← List.append_assoc, ← by_bsp_append,
    List.append_assoc, List.append_assoc, List.cons_append, List.cons_append] at more
  have lengths := congrArg List.length (first_of_ap more)
  have opening : b.opening.length = 5 := rfl
  have joined : b.joined.length = 7 := rfl
  simp only [List.length_append, List.length_take, List.length_cons, List.length_nil, opening,
    joined] at lengths
  have same : place = late := by omega
  refine ⟨last, whole, ended, ?_⟩
  rw [ended_sent inv ended, all ended, same]

theorem texts_go_on {shared rest more : List (Core × Message)} {core other : Core}
    {first second : Message} {n : Nat}
    (same : textOf (shared ++ (core, first) :: rest) = textOf (shared ++ (other, second) :: more))
    (long : n ≤ first.flatten.length) (long' : n ≤ second.flatten.length) :
    first.flatten.take n = second.flatten.take n := by
  simp only [textOf, List.flatMap_append, List.flatMap_cons, List.append_cancel_left_eq] at same
  have taken := congrArg (List.take n) same
  rwa [List.take_append_of_le_length long, List.take_append_of_le_length long'] at taken

theorem outputs_differ {early late : Nat} (before : early < late) (few : late ≤ 2) :
    encodeAll (b.console fmt early) ≠ encodeAll (b.console fmt late) := by
  intro same
  have texts := congrArg decode same
  rw [decode_all, decode_all] at texts
  have other : ∃ line rest, 12 ≤ (line : Message).flatten.length ∧
      line.flatten.take 12 ≠ apOnline.flatten.take 12 ∧
      b.console fmt late = byBsp (b.joined.take (5 + early)) ++ (.bsp, line) :: rest := by
    have cases : (early = 0 ∧ late = 1) ∨ (early = 0 ∧ late = 2) ∨ (early = 1 ∧ late = 2) := by
      omega
    rcases cases with ⟨rfl, rfl⟩ | ⟨rfl, rfl⟩ | ⟨rfl, rfl⟩
    · exact ⟨pipelineOnline, _, by decide, by decide, rfl⟩
    · exact ⟨pipelineOnline, _, by decide, by decide, rfl⟩
    · exact ⟨feedbackActive, _, by decide, by decide, rfl⟩
  obtain ⟨line, rest, long, differs, starts⟩ := other
  rw [starts, Boot.console, List.append_assoc, List.cons_append] at texts
  exact differs (texts_go_on texts (by decide) long).symm

/-- A run to the end puts out one of three byte streams, each of them occurs, and
    they are different. -/
theorem console_outputs (b : Boot m) (fmt : Formats) (bytes : Bytes) (inter : 0 < m.interCap)
    (room : 0 < m.tensorCap) (fits : m.batch.length ≤ m.completionCap)
    (small : m.batch.length < 2 ^ 31) :
    (∀ output, (∃ c, Reachable (consoleStep fmt) (ConsoleWorld.start m bytes) c ∧ c.Ended ∧
      c.serial.sent = output) ↔ ∃ late, late ≤ 2 ∧ output = encodeAll (b.console fmt late)) ∧
    ∀ early late, early < late → late ≤ 2 →
      encodeAll (b.console fmt early) ≠ encodeAll (b.console fmt late) := by
  constructor
  · intro output
    constructor
    · rintro ⟨c, reached, ended, rfl⟩
      have inv : ConsoleInv b fmt bytes c := reachable_console_inv room small reached
      obtain ⟨late, few, _, whole⟩ := console_sent inv
      exact ⟨late, few, whole ended⟩
    · rintro ⟨late, few, rfl⟩
      exact output_occurs b inter room fits small few
  · intro early late before few
    exact outputs_differ before few

theorem console_outputs_two_packets : ∃ b : Boot (twoPacketMachine 2), ∀ late, late ≤ 2 →
    ∃ c : ConsoleWorld (twoPacketMachine 2),
      Reachable (consoleStep twoPacketFormats) (ConsoleWorld.start _ fun _ => 0) c ∧
        c.Ended ∧ c.serial.sent = encodeAll (b.console twoPacketFormats late) := by
  obtain ⟨b⟩ := two_packet_boot 2
  have outputs := console_outputs b twoPacketFormats (fun _ => 0) (by decide) (by decide)
    (by decide) (by decide)
  exact ⟨b, fun late few => (outputs.1 _).mpr ⟨late, few, rfl⟩⟩

end CellKernel
