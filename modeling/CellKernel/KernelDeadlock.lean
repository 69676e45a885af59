import CellKernel.KernelCourse
import CellKernel.KernelRank

/-
Where the two cores wait for each other. A core that does not move waits for
something that only the other one can do; with room for every result in the
completion queue both never wait at once, and without it they always end so.
-/
namespace CellKernel
open CellCore CellFifo CellRuns CellTensor

variable {m : Machine}

inductive BspRest (w : World m) : Prop where
  | awaitingAp (tensor : TensorChunk .ready) (here : w.bsp = .awaitingAp tensor)
      (unready : ¬ w.apReady = true)
  | queueFull (tensor : TensorChunk .ready) (raw : RawPayload) (rest : List RawPayload)
      (here : w.bsp = .sending tensor) (unsent : w.unsent = raw :: rest)
      (full : w.interCore.items.length = m.interCap)
  | awaitingTensor (here : w.bsp = .awaitingTensor) (incomplete : ¬ w.tensorComplete = true)
  | noResult (report : Report m.batch.length) (here : w.bsp = .reporting report)
      (more : report.reports < m.batch.length) (empty : w.completion.items = [])
  | finished (report : Report m.batch.length) (here : w.bsp = .finished report)
  | halted (why : Failure) (held : Option UInt64) (here : w.bsp = .halted why held)

inductive ApRest (w : World m) : Prop where
  | parked (here : w.ap = .parked)
  | noPayload (here : w.ap = .working) (more : w.apProcessed < m.batch.length)
      (empty : w.interCore.items = [])
  | queueFull (raw : RawPayload) (result : WorkResult) (here : w.ap = .returning raw result)
      (full : w.completion.items.length = m.completionCap)
  | noTensor (here : w.ap = .pollingTensor) (empty : w.tensors.items = [])
  | finished (here : w.ap = .finished)
  | panicked (held : UInt64) (here : w.ap = .panicked held)

theorem bsp_moves_or_rests (w : World m) : (∃ next, bspStep w = .moves next) ∨ BspRest w := by
  unfold bspStep
  split
  · exact Or.inl ⟨_, rfl⟩
  · rename_i tensor here
    split
    · exact Or.inl ⟨_, rfl⟩
    · rename_i unready
      exact Or.inr (.awaitingAp tensor here unready)
  · rename_i tensor here
    split
    · rename_i raw rest unsent
      split
      · rename_i full
        rw [push_none_iff] at full
        exact Or.inr (.queueFull tensor raw rest here unsent full)
      · exact Or.inl ⟨_, rfl⟩
    · split
      · exact Or.inl ⟨_, rfl⟩
      · exact Or.inl ⟨_, rfl⟩
  · rename_i here
    split
    · exact Or.inl ⟨_, rfl⟩
    · rename_i incomplete
      exact Or.inr (.awaitingTensor here incomplete)
  · rename_i report here
    split
    · rename_i more
      split
      · rename_i empty
        rw [pop_none_iff] at empty
        exact Or.inr (.noResult report here more empty)
      · split
        · exact Or.inl ⟨_, rfl⟩
        · exact Or.inl ⟨_, rfl⟩
    · exact Or.inl ⟨_, rfl⟩
  · rename_i report here
    exact Or.inr (.finished report here)
  · rename_i why held here
    exact Or.inr (.halted why held here)

theorem ap_moves_or_rests (w : World m) : (∃ next, apStep w = .moves next) ∨ ApRest w := by
  unfold apStep
  split
  · rename_i here
    exact Or.inr (.parked here)
  · exact Or.inl ⟨_, rfl⟩
  · rename_i here
    split
    · rename_i more
      split
      · rename_i empty
        rw [pop_none_iff] at empty
        exact Or.inr (.noPayload here more empty)
      · exact Or.inl ⟨_, rfl⟩
    · exact Or.inl ⟨_, rfl⟩
  · rename_i raw result here
    split
    · rename_i full
      rw [push_none_iff] at full
      exact Or.inr (.queueFull raw result here full)
    · exact Or.inl ⟨_, rfl⟩
  · exact Or.inl ⟨_, rfl⟩
  · rename_i here
    split
    · rename_i empty
      rw [pop_none_iff] at empty
      exact Or.inr (.noTensor here empty)
    · exact Or.inl ⟨_, rfl⟩
  · split
    · exact Or.inl ⟨_, rfl⟩
    · exact Or.inl ⟨_, rfl⟩
  · split
    · exact Or.inl ⟨_, rfl⟩
    · exact Or.inl ⟨_, rfl⟩
  · exact Or.inl ⟨_, rfl⟩
  · rename_i here
    exact Or.inr (.finished here)
  · rename_i held here
    exact Or.inr (.panicked held here)

def BspPc.ended {count : Nat} : BspPc count → Bool
  | .finished _ => true
  | .halted _ _ => true
  | _ => false

def ApPc.ended : ApPc → Bool
  | .finished => true
  | .panicked _ => true
  | _ => false

section
variable {b : Boot m} {w : World m} (course : OnCourse b w) (paced : Paced w)
include course paced

theorem ap_launched_at_rest (rest : BspRest w) : w.ap.phase ≠ 0 := by
  rw [ne_eq, paced.parked]
  cases rest with
  | awaitingAp tensor here unready => simp [here, BspPc.phase]
  | queueFull tensor raw rest here unsent full => simp [here, BspPc.phase]
  | awaitingTensor here incomplete => simp [here, BspPc.phase]
  | noResult report here more empty => simp [here, BspPc.phase]
  | finished report here => simp [here, BspPc.phase]
  | halted why held here =>
    have place := course.bsp
    rw [here] at place
    have overflow : why = .countOverflow := place
    simp [here, overflow, BspPc.phase]

omit course in
theorem ap_finished_of_reporting (late : 4 ≤ w.bsp.phase) : w.ap.phase = 7 :=
  paced.complete.mp (paced.waited late)

/-- While the AP is at work the BSP can wait for two things only. -/
theorem bsp_rest_while_ap_works (works : 2 ≤ w.ap.phase ∧ w.ap.phase ≤ 6) (rest : BspRest w) :
    (w.unsent ≠ [] ∧ w.interCore.items.length = m.interCap) ∨ w.bsp.phase = 3 := by
  have early : ¬ 4 ≤ w.bsp.phase := by
    intro late
    have finished := ap_finished_of_reporting paced late
    omega
  cases rest with
  | awaitingAp tensor here unready => exact absurd (paced.ready.mpr works.1) unready
  | queueFull tensor raw rest here unsent full =>
    left
    exact ⟨by simp [unsent], full⟩
  | awaitingTensor here incomplete =>
    right
    rw [here]
    rfl
  | noResult report here more empty => exact absurd (by simp [here, BspPc.phase]) early
  | finished report here => exact absurd (by simp [here, BspPc.phase]) early
  | halted why held here =>
    have place := course.bsp
    rw [here] at place
    have overflow : why = .countOverflow := place
    exact absurd (by simp [here, overflow, BspPc.phase]) early

omit course in
/-- Once the AP has finished, every result is on its way to the BSP. -/
theorem bsp_rest_after_ap {reported waiting : List RawPayload}
    (conserved : Conserved w reported waiting) (reporting : Reporting w)
    (finished : w.ap.phase = 7) (rest : BspRest w) : w.bsp.ended = true := by
  have lengths := conserved_lengths conserved
  have counted := paced.counted
  have delivered := paced.delivered (by omega)
  rw [uncounted_late (by omega)] at counted
  cases rest with
  | awaitingAp tensor here unready => exact absurd (paced.ready.mpr (by omega)) unready
  | queueFull tensor raw rest here unsent full =>
    rw [unsent, List.length_cons] at lengths
    omega
  | awaitingTensor here incomplete => exact absurd (paced.complete.mpr finished) incomplete
  | noResult report here more empty =>
    rw [Reporting, here] at reporting
    have accounted : Accounted report w.reported := reporting
    have reports := accounted.reports
    rw [empty, List.length_nil] at counted
    omega
  | finished report here =>
    rw [here]
    rfl
  | halted why held here =>
    rw [here]
    rfl

/-- No deadlock while the completion queue can hold the whole batch. -/
theorem rest_is_end (inter : 0 < m.interCap) (fits : m.batch.length ≤ m.completionCap)
    {reported waiting : List RawPayload} (conserved : Conserved w reported waiting)
    (reporting : Reporting w) (bspRest : BspRest w) (apRest : ApRest w) :
    w.bsp.ended = true ∧ w.ap.ended = true := by
  have lengths := conserved_lengths conserved
  have counted := paced.counted
  cases apRest with
  | parked here =>
    exact absurd (by rw [here]; rfl) (ap_launched_at_rest course paced bspRest)
  | noPayload here more empty =>
    have phase : w.ap.phase = 2 := by rw [here]; rfl
    have none : w.ap.held = [] ∧ w.ap.uncounted = 0 := by rw [here]; exact ⟨rfl, rfl⟩
    rw [none.1, empty] at lengths
    rw [none.2] at counted
    simp only [List.length_nil] at lengths
    cases bsp_rest_while_ap_works course paced (by omega) bspRest with
    | inl full =>
      rw [empty, List.length_nil] at full
      omega
    | inr waits =>
      have unsent := paced.unsent (by omega)
      rw [unsent, List.length_nil] at lengths
      omega
  | queueFull raw result here full =>
    have one : w.ap.held = [raw] := by rw [here]; rfl
    rw [one, List.length_singleton] at lengths
    omega
  | noTensor here empty =>
    have phase : w.ap.phase = 3 := by rw [here]; rfl
    have delivered := paced.delivered (by omega)
    rw [uncounted_late (by omega)] at counted
    cases bsp_rest_while_ap_works course paced (by omega) bspRest with
    | inl full =>
      have some := List.length_pos_iff.mpr full.1
      omega
    | inr waits =>
      have tensor := paced.tensor
      rw [phase, waits, empty] at tensor
      simp at tensor
  | finished here =>
    have phase : w.ap.phase = 7 := by rw [here]; rfl
    refine ⟨bsp_rest_after_ap paced conserved reporting phase bspRest, ?_⟩
    rw [here]
    rfl
  | panicked held here =>
    have place := course.ap
    rw [here] at place
    exact absurd place id

end

theorem some_core_moves (b : Boot m) (inter : 0 < m.interCap) (room : 0 < m.tensorCap)
    (fits : m.batch.length ≤ m.completionCap) {w : World m}
    (reached : Reachable step (World.start m) w) :
    (w.bsp.ended = true ∧ w.ap.ended = true) ∨ ∃ core next, coreStep w core = .moves next := by
  cases bsp_moves_or_rests w with
  | inl moves =>
    obtain ⟨next, moves⟩ := moves
    exact Or.inr ⟨.bsp, next, moves⟩
  | inr bspRest =>
    cases ap_moves_or_rests w with
    | inl moves =>
      obtain ⟨next, moves⟩ := moves
      exact Or.inr ⟨.ap, next, moves⟩
    | inr apRest =>
      obtain ⟨reported, waiting, conserved⟩ := reachable_conserved reached
      exact Or.inl (rest_is_end (reachable_on_course b room reached) (reachable_paced reached)
        inter fits conserved (reachable_reporting reached) bspRest apRest)

/-- With more payloads than places in the completion queue the AP never leaves
    the batch loop. -/
theorem batch_loop_not_left (short : m.completionCap < m.batch.length) {w : World m}
    (reached : Reachable step (World.start m) w) : w.ap.phase ≤ 2 := by
  apply kept_by_moves _ _ reached
  · simp [World.start, ApPc.phase]
  · intro s core t before inside moves
    have paced := reachable_paced before
    cases core_move_cases moves with
    | inl move =>
      cases move with
      | booted pc later next here same ap there nearer =>
        rw [ap]
        exact inside
      | bootFailed pc why held next here same ap there during =>
        rw [ap]
        exact inside
      | apStarted tensor here => simp [ApPc.phase]
      | _ => exact inside
    | inr move =>
      cases move with
      | batchDone here all =>
        -- nothing has been reported, so the queue holds every result
        have early : s.bsp.phase ≤ 3 := by
          by_contra late
          have finished := ap_finished_of_reporting paced (by omega)
          omega
        have counted := paced.counted
        have fits := s.completion.bounded
        rw [paced.unreported early, here] at counted
        simp only [ApPc.uncounted, List.length_nil] at counted
        omega
      | started here => simp [ApPc.phase]
      | taken raw interCore here more popped => simp [ApPc.phase]
      | returned raw result completion here pushed => simp [ApPc.phase]
      | counted here => simp [ApPc.phase]
      | tensorTaken tensor tensors here popped => simp [here, ApPc.phase] at inside
      | reductionPanicked tensor panic here refused => simp [here, ApPc.phase] at inside
      | reduced tensor count here read => simp [here, ApPc.phase] at inside
      | freePanicked physAddr fault here refused => simp [here, ApPc.phase] at inside
      | freed physAddr returned pmm here ran => simp [here, ApPc.phase] at inside
      | completed returned here => simp [here, ApPc.phase] at inside


theorem record_overflows {count : Nat} {r : Report count} {results : List WorkResult}
    {result : WorkResult} (accounted : Accounted r results) (overflow : r.record result = none) :
    2 ^ 31 ≤ r.reports + 1 := by
  have reports := accounted.reports
  cases result with
  | Completed context =>
    have succeeded := accounted.succeeded
    have bound := List.countP_le_length (p := fun result => !isFailure result) (l := results)
    simp only [Report.record] at overflow
    split at overflow
    · cases overflow
    · omega
  | Failed context nodeId reason =>
    have failed := accounted.failed
    have bound := List.countP_le_length (p := isFailure) (l := results)
    simp only [Report.record] at overflow
    split at overflow
    · cases overflow
    · omega

theorem halted_by_count (b : Boot m) (room : 0 < m.tensorCap) {w : World m}
    (reached : Reachable step (World.start m) w) :
    ∀ why held, w.bsp = .halted why held → why = .countOverflow ∧ 2 ^ 31 ≤ m.batch.length := by
  suffices large : ∀ held, w.bsp = .halted .countOverflow held → 2 ^ 31 ≤ m.batch.length by
    intro why held here
    have place := (reachable_on_course b room reached).bsp
    rw [here] at place
    have overflow : why = .countOverflow := place
    rw [overflow] at here
    exact ⟨overflow, large held here⟩
  apply kept_by_moves _ _ reached
  · intro held here
    cases here
  · intro s core t before large moves
    cases core_move_cases moves with
    | inl move =>
      cases move with
      | booted pc later next here same ap there nearer =>
        intro held halted
        rw [there] at halted
        cases halted
      | bootFailed pc why held next here same ap there during =>
        intro other halted
        rw [there] at halted
        cases halted
        cases during
      | countOverflowed report result completion here more popped overflow =>
        intro held halted
        have reporting := reachable_reporting before
        rw [Reporting, here] at reporting
        have counted := record_overflows reporting overflow
        omega
      | sent tensor raw rest interCore here unsent pushed => exact large
      | _ => intro held halted; cases halted
    | inr move => cases move <;> exact large

theorem bsp_ended_of_stops {w : World m} (stops : bspStep w = .stops) : w.bsp.ended = true := by
  unfold bspStep at stops
  split at stops
  · cases stops
  · split at stops <;> cases stops
  · split at stops
    · split at stops <;> cases stops
    · split at stops <;> cases stops
  · split at stops <;> cases stops
  · split at stops
    · split at stops
      · cases stops
      · split at stops <;> cases stops
    · cases stops
  · rename_i report here
    rw [here]
    rfl
  · rename_i why held here
    rw [here]
    rfl

theorem ap_ended_of_stops {w : World m} (launched : w.ap.phase ≠ 0) (stops : apStep w = .stops) :
    w.ap.ended = true := by
  unfold apStep at stops
  split at stops
  · rename_i here
    exact absurd (by rw [here]; rfl) launched
  · cases stops
  · split at stops
    · split at stops <;> cases stops
    · cases stops
  · split at stops <;> cases stops
  · cases stops
  · split at stops <;> cases stops
  · split at stops <;> cases stops
  · split at stops <;> cases stops
  · cases stops
  · rename_i here
    rw [here]
    rfl
  · rename_i held here
    rw [here]
    rfl

theorem ended_phases {b : Boot m} {w : World m} (course : OnCourse b w) :
    (w.bsp.ended = true → 4 ≤ w.bsp.phase) ∧ (w.ap.ended = true → w.ap.phase = 7) := by
  constructor
  · intro ended
    have place := course.bsp
    cases here : w.bsp with
    | finished report => simp [BspPc.phase]
    | halted why held =>
      rw [here] at place
      have overflow : why = .countOverflow := place
      simp [overflow, BspPc.phase]
    | _ => simp [here, BspPc.ended] at ended
  · intro ended
    have place := course.ap
    cases here : w.ap with
    | finished => rfl
    | panicked held =>
      rw [here] at place
      exact absurd place id
    | _ => simp [here, ApPc.ended] at ended

theorem stuck_stays {stuck later : World m} (still : ∀ core next, step stuck core = some next →
    next = stuck) (reached : Reachable step stuck later) : later = stuck := by
  induction reached with
  | start => rfl
  | next core before meets taken ih =>
    rw [ih] at taken
    exact still core _ taken

/-- With more payloads than places in the completion queue every state leads to
    one in which both cores spin. -/
theorem both_spin (b : Boot m) (room : 0 < m.tensorCap)
    (short : m.completionCap < m.batch.length) {w : World m}
    (reached : Reachable step (World.start m) w) : ∃ stuck, Reachable step w stuck ∧
      (∀ core, coreStep stuck core = .spins) ∧
      ∀ later, Reachable step stuck later → later = stuck := by
  obtain ⟨stuck, leads, still⟩ := settles (Reachable step (World.start m)) World.rank
    (fun s core t before taken => .next core before trivial taken)
    (by
      intro s core t before taken moved
      cases step_cases taken with
      | inl moves => exact rank_lowered before moves
      | inr spins => exact absurd spins.2 moved) w reached
  have here := reaches_trans reached leads
  have paced := reachable_paced here
  have course := reachable_on_course b room here
  have working := batch_loop_not_left short here
  have unmoved : ∀ core next, coreStep stuck core ≠ .moves next := by
    intro core next moves
    have lower := rank_lowered here moves
    rw [still core next (step_of_moves moves)] at lower
    omega
  have bspRest := (bsp_moves_or_rests stuck).resolve_left
    fun moves => unmoved .bsp _ moves.choose_spec
  have launched := ap_launched_at_rest course paced bspRest
  refine ⟨stuck, leads, ?_, fun later => stuck_stays still⟩
  intro core
  cases outcome : coreStep stuck core with
  | moves next => exact absurd outcome (unmoved core next)
  | spins => rfl
  | stops =>
    cases core with
    | bsp =>
      have late := (ended_phases course).1 (bsp_ended_of_stops outcome)
      have finished := ap_finished_of_reporting paced late
      omega
    | ap =>
      have finished := (ended_phases course).2 (ap_ended_of_stops launched outcome)
      omega

/-- A batch that fits the completion queue never deadlocks, and each run of it
    moves finitely often; a larger one always ends with both cores spinning. -/
theorem batch_ends_or_hangs (b : Boot m) (inter : 0 < m.interCap) (tensor : 0 < m.tensorCap) :
    (m.batch.length ≤ m.completionCap →
      (∀ w, Reachable step (World.start m) w →
        ((w.bsp.ended = true ∧ w.ap.ended = true) ∨
          ∃ core next, coreStep w core = .moves next) ∧
        (∀ held, w.bsp ≠ .halted .tensorQueueFull held) ∧
        (m.batch.length < 2 ^ 31 → ∀ why held, w.bsp ≠ .halted why held)) ∧
      (∃ measure : World m → Nat, ∀ w core next, Reachable step (World.start m) w →
        coreStep w core = .moves next → measure next < measure w) ∧
      ∀ r : EndlessRun m, ∃ n, ∀ k, n ≤ k →
        ∀ next, coreStep (r.states k) (r.cores k) ≠ .moves next) ∧
    (m.completionCap < m.batch.length →
      ∀ w, Reachable step (World.start m) w → w.bsp.phase ≤ 3 ∧
        ∃ stuck, Reachable step w stuck ∧ (∀ core, coreStep stuck core = .spins) ∧
          ∀ later, Reachable step stuck later → later = stuck) := by
  constructor
  · intro fits
    refine ⟨?_, ⟨World.rank, ?_⟩, EndlessRun.moves_finitely_often⟩
    · intro w reached
      have halts := halted_by_count b tensor reached
      refine ⟨some_core_moves b inter tensor fits reached, ?_, ?_⟩
      · intro held halted
        cases (halts _ held halted).1
      · intro small why held halted
        have large := (halts why held halted).2
        omega
    · intro w core next reached moves
      exact rank_lowered reached moves
  · intro short w reached
    refine ⟨?_, both_spin b tensor short reached⟩
    by_contra late
    have finished := ap_finished_of_reporting (reachable_paced reached) (by omega)
    have inside := batch_loop_not_left short reached
    omega

theorem two_packets_end_or_hang :
    (∀ w : World (twoPacketMachine 2), Reachable step (World.start _) w →
      (w.bsp.ended = true ∧ w.ap.ended = true) ∨ ∃ core next, coreStep w core = .moves next) ∧
    ∃ stuck : World (twoPacketMachine 1), Reachable step (World.start _) stuck ∧
      ∀ core, coreStep stuck core = .spins := by
  constructor
  · obtain ⟨b⟩ := two_packet_boot 2
    intro w reached
    exact (((batch_ends_or_hangs b (by decide) (by decide)).1 (by decide)).1 w reached).1
  · obtain ⟨b⟩ := two_packet_boot 1
    obtain ⟨_, stuck, leads, spin, _⟩ :=
      (batch_ends_or_hangs b (by decide) (by decide)).2 (by decide) (World.start _) .start
    exact ⟨stuck, leads, spin⟩

end CellKernel
