import CellKernel.Runs

/-
Systems that record events: a step appends at most one event to the log. What
an event establishes can be kept until an event that ends it, and every event
of the log can be traced to the step that appended it.
-/
namespace EventLog
open CellRuns
variable {State Action Event : Type}

/-- Some event that starts is followed by none that ends. -/
def Since (starts ends : Event → Prop) (log : List Event) : Prop :=
  ∃ before event after, log = before ++ event :: after ∧ starts event ∧ ∀ e ∈ after, ¬ ends e

theorem snoc_split {log before after : List Event} {last event : Event}
    (split : log ++ [last] = before ++ event :: after) :
    (after = [] ∧ log = before ∧ last = event) ∨
      ∃ later, after = later ++ [last] ∧ log = before ++ event :: later := by
  rcases List.eq_nil_or_concat after with empty | ⟨later, final, shape⟩
  · subst after
    obtain ⟨sameLog, same⟩ := List.append_inj' split rfl
    exact Or.inl ⟨rfl, sameLog, List.singleton_inj.mp same⟩
  · subst after
    have regrouped : log ++ [last] = (before ++ event :: later) ++ [final] := by
      simpa using split
    obtain ⟨sameLog, same⟩ := List.append_inj' regrouped rfl
    rw [List.singleton_inj.mp same]
    exact Or.inr ⟨later, List.concat_eq_append, sameLog⟩

theorem since_snoc {starts ends : Event → Prop} {log : List Event} {last : Event}
    (since : Since starts ends (log ++ [last])) :
    starts last ∨ (Since starts ends log ∧ ¬ ends last) := by
  obtain ⟨before, event, after, split, started, unended⟩ := since
  rcases snoc_split split with ⟨_, _, same⟩ | ⟨later, shape, earlier⟩
  · rw [same]
    exact Or.inl started
  · rw [shape] at unended
    refine Or.inr ⟨⟨before, event, later, earlier, started, ?_⟩, ?_⟩
    · intro e member
      exact unended e (List.mem_append_left _ member)
    · exact unended last (List.mem_append_right _ List.mem_cons_self)

section
variable {step : State → Action → Option State} {allowed : State → Action → Prop}
  {start : State} {log : State → List Event} (blank : log start = [])
  (appends : ∀ s a t, step s a = some t → log t = log s ∨ ∃ event, log t = log s ++ [event])
include blank appends

/-- What the starting events establish and every step keeps that appends no
    ending event holds since the last of them. -/
theorem holds_since {starts ends : Event → Prop} {holds : State → Prop}
    (establish : ∀ s a t event, Reaches step allowed start s → step s a = some t →
      log t = log s ++ [event] → starts event → holds t)
    (keep : ∀ s a t, Reaches step allowed start s → holds s → step s a = some t →
      (∀ event, log t = log s ++ [event] → ¬ ends event) → holds t)
    {s : State} (reached : Reaches step allowed start s)
    (since : Since starts ends (log s)) : holds s := by
  induction reached with
  | start =>
    obtain ⟨before, event, after, split, _⟩ := since
    rw [blank] at split
    simp at split
  | @next s t a before _ taken ih =>
    rcases appends s a t taken with same | ⟨event, grown⟩
    · rw [same] at since
      apply keep s a t before (ih since) taken
      intro event grown
      rw [same] at grown
      simp at grown
    · rw [grown] at since
      rcases since_snoc since with started | ⟨earlier, unended⟩
      · exact establish s a t event before taken grown started
      · apply keep s a t before (ih earlier) taken
        intro other grownOther
        rw [grown] at grownOther
        obtain ⟨_, same⟩ := List.append_inj' grownOther rfl
        rw [List.singleton_inj] at same
        rw [← same]
        exact unended

theorem appended_by {s : State} (reached : Reaches step allowed start s) {before after : List Event}
    {event : Event} (split : log s = before ++ event :: after) :
    ∃ s' a t, Reaches step allowed start s' ∧ step s' a = some t ∧ log s' = before ∧
      log t = before ++ [event] := by
  induction reached generalizing after with
  | start =>
    rw [blank] at split
    simp at split
  | @next s t a earlier _ taken ih =>
    rcases appends s a t taken with same | ⟨last, grown⟩
    · rw [same] at split
      exact ih split
    · rw [grown] at split
      rcases snoc_split split with ⟨_, sameLog, same⟩ | ⟨later, _, before⟩
      · rw [same] at grown
        exact ⟨s, a, t, earlier, taken, sameLog, by rw [grown, sameLog]⟩
      · exact ih before

end

end EventLog
