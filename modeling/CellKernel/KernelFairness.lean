import CellKernel.KernelDeadlock

/-
Endless schedules of the two cores. A schedule is fair if it gives each core a
turn again and again; on a machine that lets both start, every fair schedule
ends with both cores at their end and the whole batch reported.
-/
namespace CellKernel
open CellCore CellFifo CellRuns CellTensor

variable {m : Machine}

def EndlessRun.Fair (r : EndlessRun m) : Prop :=
  ∀ core n, ∃ k, n ≤ k ∧ r.cores k = core

/-- The states of a schedule; a core that has stopped stays where it is. -/
def scheduled (m : Machine) (cores : Nat → Core) : Nat → World m
  | 0 => World.start m
  | n + 1 => (step (scheduled m cores n) (cores n)).getD (scheduled m cores n)

def EndlessRun.ofSchedule (m : Machine) (cores : Nat → Core) : EndlessRun m where
  states := scheduled m cores
  cores := cores
  begins := rfl
  each := by
    intro n
    rw [scheduled]
    unfold step
    cases coreStep (scheduled m cores n) (cores n) with
    | moves next => exact Or.inl rfl
    | spins => exact Or.inl rfl
    | stops => exact Or.inr ⟨rfl, rfl⟩

theorem settled_is_end (b : Boot m) (inter : 0 < m.interCap) (room : 0 < m.tensorCap)
    (fits : m.batch.length ≤ m.completionCap) (small : m.batch.length < 2 ^ 31) {w : World m}
    (reached : Reachable step (World.start m) w)
    (settled : ∀ core next, coreStep w core ≠ .moves next) :
    (∃ report, w.bsp = .finished report) ∧ w.ap = .finished := by
  have course := reachable_on_course b room reached
  obtain ⟨bspEnded, apEnded⟩ := (some_core_moves b inter room fits reached).resolve_right
    fun ⟨core, next, moves⟩ => settled core next moves
  have apPhase := (ended_phases course).2 apEnded
  constructor
  · cases here : w.bsp with
    | finished report => exact ⟨report, rfl⟩
    | halted why held =>
      have large := (halted_by_count b room reached why held here).2
      omega
    | _ => simp [here, BspPc.ended] at bspEnded
  · cases here : w.ap with
    | finished => rfl
    | _ => simp [here, ApPc.phase] at apPhase

theorem end_reachable (b : Boot m) (inter : 0 < m.interCap) (room : 0 < m.tensorCap)
    (fits : m.batch.length ≤ m.completionCap) (small : m.batch.length < 2 ^ 31) {w : World m}
    (before : Reachable step (World.start m) w) :
    ∃ last : World m, Reachable step w last ∧ (∃ report, last.bsp = .finished report) ∧
      last.ap = .finished := by
  obtain ⟨last, reached, still⟩ := settles (Reachable step (World.start m)) World.rank
    (fun s core t before taken => .next core before trivial taken)
    (by
      intro s core t before taken moved
      rcases step_cases taken with moves | ⟨_, same⟩
      · exact rank_lowered before moves
      · exact absurd same moved) w before
  have whole := reaches_trans before reached
  refine ⟨last, reached, settled_is_end b inter room fits small whole ?_⟩
  intro core next moves
  have lower := rank_lowered whole moves
  rw [still core next (step_of_moves moves)] at lower
  omega

namespace EndlessRun
variable (r : EndlessRun m)

theorem stays : ∃ n, ∀ k, n ≤ k → r.states k = r.states n ∧
    ∀ next, coreStep (r.states n) (r.cores k) ≠ .moves next := by
  obtain ⟨n, unmoved⟩ := r.moves_finitely_often
  have same : ∀ k, n ≤ k → r.states k = r.states n := by
    intro k later
    induction later with
    | refl => rfl
    | @step k later ih =>
      change r.states (k + 1) = r.states n
      rw [← ih]
      rcases r.each k with taken | stopped
      · rcases step_cases taken with moves | ⟨_, rest⟩
        · exact absurd moves (unmoved k later _)
        · exact rest
      · exact stopped.2
  refine ⟨n, ?_⟩
  intro k later
  refine ⟨same k later, ?_⟩
  rw [← same k later]
  exact unmoved k later

end EndlessRun

/-- Under every fair schedule both cores come to their end, and stay there with
    every payload of the batch reported in order. -/
theorem fair_run_ends (b : Boot m) (inter : 0 < m.interCap) (room : 0 < m.tensorCap)
    (fits : m.batch.length ≤ m.completionCap) (small : m.batch.length < 2 ^ 31)
    (r : EndlessRun m) (fair : r.Fair) :
    ∃ n report, ∀ k, n ≤ k → (r.states k).bsp = .finished report ∧
      (r.states k).ap = .finished ∧ (r.states k).reported = m.batch.map workResult ∧
        Accounted report (r.states k).reported := by
  obtain ⟨n, stays⟩ := r.stays
  have settled : ∀ core next, coreStep (r.states n) core ≠ .moves next := by
    intro core
    obtain ⟨k, later, turn⟩ := fair core n
    rw [← turn]
    exact (stays k later).2
  obtain ⟨⟨report, here⟩, finished⟩ :=
    settled_is_end b inter room fits small (r.reachable n) settled
  obtain ⟨reported, accounted, _⟩ := finished_reports_batch (r.reachable n) here
  refine ⟨n, report, ?_⟩
  intro k later
  rw [(stays k later).1]
  exact ⟨here, finished, reported, accounted⟩

theorem fair_run_ends_alternating : ∃ n report, ∀ k, n ≤ k →
    ((EndlessRun.ofSchedule (twoPacketMachine 2) fun n =>
      if n % 2 = 0 then .bsp else .ap).states k).bsp = .finished report := by
  obtain ⟨b⟩ := two_packet_boot 2
  obtain ⟨n, report, ends⟩ := fair_run_ends b (by decide) (by decide) (by decide) (by decide)
    (.ofSchedule _ fun n => if n % 2 = 0 then .bsp else .ap) (by
      intro core n
      cases core with
      | bsp => exact ⟨2 * n, by omega, if_pos (by omega)⟩
      | ap => exact ⟨2 * n + 1, by omega, if_neg (by omega)⟩)
  exact ⟨n, report, fun k later => (ends k later).1⟩

end CellKernel
