import CellKernel.Runs
import Mathlib.Order.Filter.AtTopBot.Basic

/-
Infinite executions of a labelled step function whose actions belong to threads.
An execution is fair if each thread again and again either takes a step or has
no step to take.
-/
namespace CellRuns
open Filter
variable {State Action Thread : Type} {step : State → Action → Option State} {start : State}

/-- Where no action is given the state stays as it is. -/
structure Execution (step : State → Action → Option State) (start : State) where
  states : Nat → State
  actions : Nat → Option Action
  begins : states 0 = start
  taken : ∀ n a, actions n = some a → step (states n) a = some (states (n + 1))
  idle : ∀ n, actions n = none → states (n + 1) = states n

theorem Execution.reachable (e : Execution step start) (n : Nat) :
    Reachable step start (e.states n) := by
  induction n with
  | zero =>
    rw [e.begins]
    exact .start
  | succ n ih =>
    cases action : e.actions n with
    | none =>
      rw [e.idle n action]
      exact ih
    | some a => exact .next a ih trivial (e.taken n a action)

def Execution.Fair (e : Execution step start) (owner : Action → Thread) : Prop :=
  ∀ i, ∃ᶠ n in atTop, (∃ a, e.actions n = some a ∧ owner a = i) ∨
    ∀ a, owner a = i → step (e.states n) a = none

/-- Again and again an action of this kind is taken, or none has a step. -/
def Execution.FairTo (e : Execution step start) (turn : Action → Prop) : Prop :=
  ∃ᶠ n in atTop, (∃ a, e.actions n = some a ∧ turn a) ∨
    ∀ a, turn a → step (e.states n) a = none

theorem Execution.rests (e : Execution step start) (rank : State → Nat)
    (lowers : ∀ s a t, Reachable step start s → step s a = some t → t = s ∨ rank t < rank s) :
    ∃ n, ∀ k, n ≤ k → e.states k = e.states n := by
  have each : ∀ n, e.states (n + 1) = e.states n ∨
      rank (e.states (n + 1)) < rank (e.states n) := by
    intro n
    cases action : e.actions n with
    | none => exact Or.inl (e.idle n action)
    | some a => exact lowers _ a _ (e.reachable n) (e.taken n a action)
  obtain ⟨n, still⟩ := eventually_still rank e.states each
  refine ⟨n, ?_⟩
  intro k later
  induction k, later using Nat.le_induction with
  | base => rfl
  | succ k later ih => rw [still k later, ih]

theorem Execution.FairTo.at_rest {e : Execution step start} {turn : Action → Prop}
    (fair : e.FairTo turn) {n : Nat} (rests : ∀ k, n ≤ k → e.states k = e.states n) :
    (∃ a, turn a ∧ step (e.states n) a = some (e.states n)) ∨
      ∀ a, turn a → step (e.states n) a = none := by
  obtain ⟨k, taken | blocked, later⟩ := (fair.and_eventually (eventually_ge_atTop n)).exists
  · obtain ⟨a, action, turn⟩ := taken
    have ran := e.taken k a action
    rw [rests (k + 1) (by omega), rests k later] at ran
    exact Or.inl ⟨a, turn, ran⟩
  · rw [rests k later] at blocked
    exact Or.inr blocked

theorem comes_to_rest {f : Nat → Nat} (falls : ∀ᶠ n in atTop, f (n + 1) ≤ f n) :
    ∀ᶠ n in atTop, f (n + 1) = f n := by
  obtain ⟨base, falls⟩ := eventually_atTop.mp falls
  obtain ⟨n, rest⟩ := eventually_still id (fun n => f (base + n)) (by
    intro n
    rcases Nat.lt_or_eq_of_le (falls (base + n) (Nat.le_add_right _ _)) with lower | same
    · exact Or.inr lower
    · exact Or.inl same)
  refine eventually_atTop.mpr ⟨base + n, ?_⟩
  intro k later
  have still := rest (k - base) (by omega)
  have place : base + (k - base) = k := by omega
  rwa [← Nat.add_assoc, place] at still

/-- In a fair execution no thread stays able to take a step forever while each
    of its steps lowers a number that no other step raises. -/
theorem Execution.Fair.cannot_wait {e : Execution step start} {owner : Action → Thread}
    (fair : e.Fair owner) (i : Thread) (f : Nat → Nat)
    (keeps : ∀ᶠ n in atTop, ∀ a, e.actions n = some a → owner a ≠ i → f (n + 1) ≤ f n)
    (waits : ∀ᶠ n in atTop, e.actions n = none → f (n + 1) ≤ f n)
    (able : ∀ᶠ n in atTop, ∃ a, owner a = i ∧ step (e.states n) a ≠ none)
    (lowers : ∀ᶠ n in atTop, ∀ a, e.actions n = some a → owner a = i → f (n + 1) < f n) :
    False := by
  have falls : ∀ᶠ n in atTop, f (n + 1) ≤ f n := by
    filter_upwards [keeps, waits, lowers] with n keeps waits lowers
    cases action : e.actions n with
    | none => exact waits action
    | some a =>
      by_cases turn : owner a = i
      · exact (lowers a action turn).le
      · exact keeps a action turn
  obtain ⟨n, turn, same, able, lowers⟩ :=
    ((fair i).and_eventually ((comes_to_rest falls).and (able.and lowers))).exists
  rcases turn with ⟨a, action, own⟩ | blocked
  · exact absurd same (lowers a action own).ne
  · obtain ⟨a, own, takes⟩ := able
    exact takes (blocked a own)

/-- A run is the beginning of an execution that then stays where it is. -/
theorem execution_of_reachable {s : State} (reached : Reachable step start s) :
    ∃ (e : Execution step start) (n : Nat),
      ∀ k, n ≤ k → e.states k = s ∧ e.actions k = none := by
  induction reached with
  | start =>
    exact ⟨⟨fun _ => start, fun _ => none, rfl, by simp, by simp⟩, 0, fun _ _ => ⟨rfl, rfl⟩⟩
  | @next s t a before _ taken ih =>
    obtain ⟨e, n, rests⟩ := ih
    let later : Execution step start :=
      { states := fun k => if k ≤ n then e.states k else t
        actions := fun k => if k < n then e.actions k else if k = n then some a else none
        begins := by simp [e.begins]
        taken := by
          intro k b action
          rcases Nat.lt_trichotomy k n with below | rfl | above
          · rw [if_pos below] at action
            rw [if_pos below.le, if_pos (Nat.succ_le_of_lt below)]
            exact e.taken k b action
          · rw [if_neg (Nat.lt_irrefl k), if_pos rfl] at action
            rw [if_pos (le_refl k), if_neg (Nat.not_succ_le_self k), (rests k (le_refl k)).1]
            cases action
            exact taken
          · rw [if_neg (Nat.not_lt_of_gt above), if_neg above.ne'] at action
            cases action
        idle := by
          intro k action
          rcases Nat.lt_trichotomy k n with below | rfl | above
          · rw [if_pos below] at action
            rw [if_pos below.le, if_pos (Nat.succ_le_of_lt below)]
            exact e.idle k action
          · simp at action
          · rw [if_neg (Nat.not_le_of_gt above), if_neg (by omega)] }
    refine ⟨later, n + 1, ?_⟩
    intro k after
    constructor
    · exact if_neg (by omega)
    · change (if k < n then e.actions k else if k = n then some a else none) = none
      rw [if_neg (by omega), if_neg (by omega)]

theorem Execution.fair_to_of_rest {e : Execution step start} {turn : Action → Prop} {s : State}
    {n : Nat} (rests : ∀ k, n ≤ k → e.states k = s) (none : ∀ a, step s a = none) :
    e.FairTo turn := by
  apply Eventually.frequently
  filter_upwards [eventually_ge_atTop n] with k later
  right
  intro a _
  rw [rests k later]
  exact none a

theorem Execution.fair_of_rest {e : Execution step start} {owner : Action → Thread} {s : State}
    {n : Nat} (rests : ∀ k, n ≤ k → e.states k = s) (none : ∀ a, step s a = none) :
    e.Fair owner := by
  intro i
  exact Execution.fair_to_of_rest rests none

end CellRuns
