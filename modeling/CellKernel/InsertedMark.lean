import Mathlib.Data.List.Infix

/-
Texts in which a mark is inserted before every occurrence of a target symbol.
Removing the mark that stands directly before each target gives the text back,
also where the text contains marks of its own.
-/
namespace InsertedMark
variable {Symbol : Type} [DecidableEq Symbol] (mark target : Symbol)

def insertMarks (text : List Symbol) : List Symbol :=
  text.flatMap fun symbol => if symbol = target then [mark, symbol] else [symbol]

/-- Drops a mark that stands directly before a target. -/
def removeMarks : List Symbol → List Symbol
  | [] => []
  | symbol :: rest =>
      if symbol = mark ∧ rest.head? = some target then removeMarks rest
      else symbol :: removeMarks rest

theorem insert_nil : insertMarks mark target [] = [] := rfl

theorem insert_target (text : List Symbol) :
    insertMarks mark target (target :: text) = mark :: target :: insertMarks mark target text := by
  simp [insertMarks]

theorem insert_other {symbol : Symbol} (other : symbol ≠ target) (text : List Symbol) :
    insertMarks mark target (symbol :: text) = symbol :: insertMarks mark target text := by
  simp [insertMarks, other]

theorem insert_append (first second : List Symbol) :
    insertMarks mark target (first ++ second) =
      insertMarks mark target first ++ insertMarks mark target second := List.flatMap_append

theorem remove_kept {symbol : Symbol} {rest : List Symbol}
    (kept : ¬ (symbol = mark ∧ rest.head? = some target)) :
    removeMarks mark target (symbol :: rest) = symbol :: removeMarks mark target rest := if_neg kept

variable {mark target} (distinct : mark ≠ target)
include distinct

theorem remove_pair (rest : List Symbol) :
    removeMarks mark target (mark :: target :: rest) = target :: removeMarks mark target rest := by
  have dropped : removeMarks mark target (mark :: target :: rest) =
      removeMarks mark target (target :: rest) := if_pos ⟨rfl, rfl⟩
  rw [dropped]
  apply remove_kept
  intro marked
  exact distinct marked.1.symm

theorem insert_head (text : List Symbol) {rest : List Symbol} (safe : rest.head? ≠ some target) :
    (insertMarks mark target text ++ rest).head? ≠ some target := by
  cases text with
  | nil => exact safe
  | cons symbol text =>
    by_cases same : symbol = target
    · rw [same, insert_target]
      simp [distinct]
    · rw [insert_other mark target same]
      simp [same]

theorem prefix_head {text sent : List Symbol} (sentPrefix : sent <+: insertMarks mark target text) :
    sent.head? ≠ some target := by
  intro starts
  have ended : ([] : List Symbol).head? ≠ some target := by simp
  have unmarked := insert_head distinct text ended
  rw [List.append_nil] at unmarked
  obtain ⟨rest, whole⟩ := sentPrefix
  cases sent with
  | nil => cases starts
  | cons first sent =>
    rw [← whole] at unmarked
    exact unmarked starts

theorem remove_insert_append (text : List Symbol) {rest : List Symbol}
    (safe : rest.head? ≠ some target) :
    removeMarks mark target (insertMarks mark target text ++ rest) =
      text ++ removeMarks mark target rest := by
  induction text with
  | nil => rfl
  | cons symbol text ih =>
    by_cases same : symbol = target
    · rw [same, insert_target, List.cons_append, List.cons_append, remove_pair distinct, ih]
      rfl
    · rw [insert_other mark target same, List.cons_append, remove_kept, ih]
      · rfl
      · rintro ⟨_, starts⟩
        exact insert_head distinct text safe starts

theorem remove_insert (text : List Symbol) :
    removeMarks mark target (insertMarks mark target text) = text := by
  have ended : ([] : List Symbol).head? ≠ some target := by simp
  have whole := remove_insert_append distinct text ended
  rw [List.append_nil] at whole
  rw [whole, removeMarks, List.append_nil]

/-- A prefix of a marked text reads as a prefix of the text, but for a mark
    whose target is still to come. -/
theorem remove_prefix {text sent : List Symbol}
    (sentPrefix : sent <+: insertMarks mark target text) :
    ∃ kept, kept <+: text ∧
      (removeMarks mark target sent = kept ∨ removeMarks mark target sent = kept ++ [mark]) := by
  induction text generalizing sent with
  | nil =>
    rw [insert_nil, List.prefix_nil] at sentPrefix
    exact ⟨[], List.nil_prefix, Or.inl (by rw [sentPrefix]; rfl)⟩
  | cons symbol text ih =>
    cases sent with
    | nil => exact ⟨[], List.nil_prefix, Or.inl rfl⟩
    | cons first sent =>
      by_cases same : symbol = target
      · rw [same, insert_target, List.cons_prefix_cons] at sentPrefix
        obtain ⟨rfl, later⟩ := sentPrefix
        cases sent with
        | nil =>
          refine ⟨[], List.nil_prefix, Or.inr ?_⟩
          simp [removeMarks]
        | cons second sent =>
          rw [List.cons_prefix_cons] at later
          obtain ⟨rfl, later⟩ := later
          obtain ⟨kept, within, reads⟩ := ih later
          refine ⟨second :: kept, ?_, ?_⟩
          · rw [same, List.cons_prefix_cons]
            exact ⟨rfl, within⟩
          · rw [remove_pair distinct, List.cons_append]
            exact reads.imp (congrArg _) (congrArg _)
      · rw [insert_other mark target same, List.cons_prefix_cons] at sentPrefix
        obtain ⟨rfl, later⟩ := sentPrefix
        obtain ⟨kept, within, reads⟩ := ih later
        refine ⟨first :: kept, ?_, ?_⟩
        · rw [List.cons_prefix_cons]
          exact ⟨rfl, within⟩
        · rw [remove_kept, List.cons_append]
          · exact reads.imp (congrArg _) (congrArg _)
          · rintro ⟨_, starts⟩
            exact prefix_head distinct later starts

end InsertedMark
