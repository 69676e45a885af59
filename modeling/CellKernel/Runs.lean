import Mathlib.Tactic.Push

/-
Finite runs of a deterministic labelled step function. An action that is not
enabled has no successor; a schedule is any list of actions. A run may also be
restricted to the steps that an admission predicate allows.
-/
namespace CellRuns
variable {State Action : Type}

/-- States reached from start when every step taken meets allowed. -/
inductive Reaches (step : State → Action → Option State) (allowed : State → Action → Prop)
    (start : State) : State → Prop where
  | start : Reaches step allowed start start
  | next {s t : State} (a : Action) (before : Reaches step allowed start s)
      (meets : allowed s a) (taken : step s a = some t) : Reaches step allowed start t

abbrev Reachable (step : State → Action → Option State) : State → State → Prop :=
  Reaches step fun _ _ => True

/-- Runs the actions in order, as long as each is enabled and allowed. -/
def run (step : State → Action → Option State) (allowed : State → Action → Prop)
    [∀ s a, Decidable (allowed s a)] : State → List Action → Option State
  | s, [] => some s
  | s, a :: rest =>
      if allowed s a then (step s a).bind fun t => run step allowed t rest else none

section
variable {step : State → Action → Option State} {allowed : State → Action → Prop}
  {start : State}

theorem reaches_trans {middle last : State} (first : Reaches step allowed start middle)
    (second : Reaches step allowed middle last) : Reaches step allowed start last := by
  induction second with
  | start => exact first
  | next a before meets taken ih => exact .next a ih meets taken

theorem reaches_freely {s : State} (reached : Reaches step allowed start s) :
    Reachable step start s := by
  induction reached with
  | start => exact .start
  | next a before meets taken ih => exact .next a ih trivial taken

theorem reaches_first {s : State} (reached : Reaches step allowed start s) :
    s = start ∨ ∃ a t, allowed start a ∧ step start a = some t := by
  induction reached with
  | start => exact Or.inl rfl
  | next a before meets taken ih =>
    rcases ih with rfl | first
    · exact Or.inr ⟨a, _, meets, taken⟩
    · exact Or.inr first

theorem reaches_of_run [∀ s a, Decidable (allowed s a)] {s t : State} {actions : List Action}
    (before : Reaches step allowed start s) (ran : run step allowed s actions = some t) :
    Reaches step allowed start t := by
  induction actions generalizing s with
  | nil =>
    simp only [run, Option.some.injEq] at ran
    subst t
    exact before
  | cons a rest ih =>
    simp only [run] at ran
    split at ran
    · rename_i meets
      obtain ⟨middle, taken, later⟩ := Option.bind_eq_some_iff.mp ran
      exact ih (.next a before meets taken) later
    · simp at ran

theorem reaches_showing [∀ s a, Decidable (allowed s a)] (actions : List Action)
    (shown : State → Bool) (ran : (run step allowed start actions).map shown = some true) :
    ∃ s, Reaches step allowed start s ∧ shown s = true := by
  obtain ⟨s, ended, shows⟩ := Option.map_eq_some_iff.mp ran
  exact ⟨s, reaches_of_run .start ended, shows⟩

/-- The induction rule: what holds at the start and is kept by each allowed
    step from a reached state holds in every reached state. -/
theorem holds_throughout {holds : State → Prop} (base : holds start)
    (keep : ∀ s a t, Reaches step allowed start s → holds s → allowed s a →
      step s a = some t → holds t) {s : State} (reached : Reaches step allowed start s) :
    holds s := by
  induction reached with
  | start => exact base
  | next a before meets taken ih => exact keep _ a _ before ih meets taken

/-- A premise about the last state that no step can establish is a premise
    about every state before it. -/
theorem holds_while {premise holds : State → Prop} (base : holds start)
    (earlier : ∀ s a t, step s a = some t → premise t → premise s)
    (keep : ∀ s a t, premise s → holds s → allowed s a → step s a = some t →
      premise t → holds t) {s : State} (reached : Reaches step allowed start s)
    (last : premise s) : holds s := by
  induction reached with
  | start => exact base
  | next a before meets taken ih =>
    have previous := earlier _ a _ taken last
    exact keep _ a _ previous (ih previous) meets taken last

/-- If every step either stays in place or lowers a rank, some state that only
    stays in place is reachable from every state. -/
theorem settles (inside : State → Prop) (rank : State → Nat)
    (closed : ∀ s a t, inside s → step s a = some t → inside t)
    (lowers : ∀ s a t, inside s → step s a = some t → t ≠ s → rank t < rank s)
    (s : State) (here : inside s) :
    ∃ t, Reachable step s t ∧ ∀ a u, step t a = some u → u = t := by
  induction bound : rank s using Nat.strongRecOn generalizing s with
  | ind n ih =>
    by_cases still : ∀ a u, step s a = some u → u = s
    · exact ⟨s, .start, still⟩
    · push Not at still
      obtain ⟨a, u, taken, moved⟩ := still
      have lower := lowers s a u here taken moved
      obtain ⟨t, reached, rest⟩ := ih (rank u) (by omega) u (closed s a u here taken) rfl
      exact ⟨t, reaches_trans (.next a .start trivial taken) reached, rest⟩

theorem rank_later (rank : State → Nat) (states : Nat → State)
    (each : ∀ n, states (n + 1) = states n ∨ rank (states (n + 1)) < rank (states n))
    {k m : Nat} (later : k ≤ m) : rank (states m) ≤ rank (states k) := by
  induction later with
  | refl => exact Nat.le_refl _
  | @step m _ ih =>
    change rank (states (m + 1)) ≤ rank (states k)
    rcases each m with same | lower
    · rw [same]; exact ih
    · omega

/-- An infinite run whose steps stay in place or lower a rank moves only
    finitely often. -/
theorem eventually_still (rank : State → Nat) (states : Nat → State)
    (each : ∀ n, states (n + 1) = states n ∨ rank (states (n + 1)) < rank (states n)) :
    ∃ n, ∀ m, n ≤ m → states (m + 1) = states m := by
  suffices general : ∀ budget k, rank (states k) = budget →
      ∃ n, ∀ m, n ≤ m → states (m + 1) = states m by
    exact general _ 0 rfl
  intro budget
  induction budget using Nat.strongRecOn with
  | ind budget ih =>
    intro k bound
    by_cases still : ∀ m, k ≤ m → states (m + 1) = states m
    · exact ⟨k, still⟩
    · push Not at still
      obtain ⟨m, later, moved⟩ := still
      have upto := rank_later rank states each later
      have drop := (each m).resolve_left moved
      exact ih _ (by omega) (m + 1) rfl
end

end CellRuns
