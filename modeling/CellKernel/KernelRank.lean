import CellKernel.Kernel

/-
Every move of a core lowers a number, so each run moves only finitely often.
-/
namespace CellKernel
open CellCore CellFifo CellRuns

variable {m : Machine}

/-- Moves of the BSP that do not depend on the queues. -/
def BspPc.left {count : Nat} : BspPc count → Nat
  | .booting pc => 4 + pc.left
  | .awaitingAp _ => 4
  | .sending _ => 3
  | .awaitingTensor => 2
  | .reporting _ => 1
  | .finished _ => 0
  | .halted _ _ => 0

/-- A popped payload weighs more than the turn of the batch loop that pops it. -/
def ApPc.left : ApPc → Nat
  | .parked => 7
  | .starting => 6
  | .working => 5
  | .returning _ _ => 8
  | .counting => 6
  | .pollingTensor => 4
  | .reducing _ => 3
  | .freeing _ => 2
  | .completing _ => 1
  | .finished => 0
  | .panicked _ => 0

def World.rank (w : World m) : Nat :=
  w.bsp.left + w.ap.left + 5 * w.unsent.length + 4 * w.interCore.items.length +
    w.completion.items.length

section
variable {w next : World m}

theorem rank_lowered_bsp (parked : ∀ pc, w.bsp = .booting pc → w.ap = .parked)
    (move : BspMove w next) : next.rank < w.rank := by
  unfold World.rank
  cases move with
  | booted pc later next here same ap there nearer =>
    rw [same.unsent, same.interCore, same.completion, ap, here, there]
    simp only [BspPc.left]
    omega
  | bootFailed pc why held next here same ap there during =>
    rw [same.unsent, same.interCore, same.completion, ap, here, there]
    simp only [BspPc.left]
    omega
  | apStarted tensor here =>
    have idle := parked _ here
    rw [here, idle]
    simp only [BspPc.left, ApPc.left, BootPc.left]
    omega
  | sent tensor raw rest interCore here unsent pushed =>
    obtain ⟨_, items⟩ := (push_some_iff _ _ _).mp pushed
    rw [unsent, items]
    simp only [List.length_append, List.length_cons, List.length_nil]
    omega
  | reported report later result completion here more popped recorded =>
    have items := (pop_some_iff _ _ _).mp popped
    rw [here, items]
    simp only [BspPc.left, List.length_cons]
    omega
  | countOverflowed report result completion here more popped overflow =>
    have items := (pop_some_iff _ _ _).mp popped
    rw [here, items]
    simp only [BspPc.left, List.length_cons]
    omega
  | _ =>
    simp only [*, BspPc.left, World.halt]
    omega

theorem rank_lowered_ap (move : ApMove w next) : next.rank < w.rank := by
  unfold World.rank
  cases move with
  | taken raw interCore here more popped =>
    have items := (pop_some_iff _ _ _).mp popped
    rw [here, items]
    simp only [ApPc.left, List.length_cons]
    omega
  | returned raw result completion here pushed =>
    obtain ⟨_, items⟩ := (push_some_iff _ _ _).mp pushed
    rw [here, items]
    simp only [ApPc.left, List.length_append, List.length_cons, List.length_nil]
    omega
  | _ =>
    simp only [*, ApPc.left, World.called]
    omega

end

theorem rank_lowered {w next : World m} {core : Core} (reached : Reachable step (World.start m) w)
    (moves : coreStep w core = .moves next) : next.rank < w.rank := by
  cases core_move_cases moves with
  | inl move => exact rank_lowered_bsp (parked_while_booting reached) move
  | inr move => exact rank_lowered_ap move

/-- A schedule without end. A core that has stopped stays where it is. -/
structure EndlessRun (m : Machine) where
  states : Nat → World m
  cores : Nat → Core
  begins : states 0 = World.start m
  each : ∀ n, step (states n) (cores n) = some (states (n + 1)) ∨
    (coreStep (states n) (cores n) = .stops ∧ states (n + 1) = states n)

namespace EndlessRun
variable (r : EndlessRun m)

theorem reachable (n : Nat) : Reachable step (World.start m) (r.states n) := by
  induction n with
  | zero =>
    rw [r.begins]
    exact .start
  | succ n ih =>
    cases r.each n with
    | inl taken => exact .next (r.cores n) ih trivial taken
    | inr stopped =>
      rw [stopped.2]
      exact ih

theorem still_or_lower (n : Nat) :
    r.states (n + 1) = r.states n ∨ (r.states (n + 1)).rank < (r.states n).rank := by
  cases r.each n with
  | inl taken =>
    cases step_cases taken with
    | inl moves => exact Or.inr (rank_lowered (r.reachable n) moves)
    | inr spins => exact Or.inl spins.2
  | inr stopped => exact Or.inl stopped.2

theorem moves_finitely_often :
    ∃ n, ∀ k, n ≤ k → ∀ next, coreStep (r.states k) (r.cores k) ≠ .moves next := by
  obtain ⟨n, still⟩ := eventually_still World.rank r.states r.still_or_lower
  refine ⟨n, ?_⟩
  intro k later next moves
  have lower := rank_lowered (r.reachable k) moves
  cases r.each k with
  | inl taken =>
    rw [step_of_moves moves, still k later, Option.some.injEq] at taken
    rw [taken] at lower
    omega
  | inr stopped =>
    rw [moves] at stopped
    cases stopped.1

end EndlessRun

end CellKernel
