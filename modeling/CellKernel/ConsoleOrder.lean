import CellKernel.ConsoleLines

/-
The order of the lines on COM1. The BSP starts the AP after its fifth line and
sends the tensor after its seventh, and it goes on from there only when both
lines of the AP are out: the runs differ in the place of one line.
-/
namespace CellKernel
open CellCore CellFifo CellPmm CellRuns CellSerial CellTensor Lines

variable {m : Machine}

def byBsp (messages : List Message) : List (Core × Message) := messages.map (Prod.mk .bsp)

@[simp] theorem taken_by_bsp (messages : List Message) :
    takenBy .bsp (byBsp messages) = messages := taken_of_own Core.bsp messages

@[simp] theorem taken_by_ap (messages : List Message) : takenBy .ap (byBsp messages) = [] :=
  taken_of_other (by simp) messages

@[simp] theorem taken_by_cons (core : Core) (entry : Core × Message)
    (acquired : List (Core × Message)) : takenBy core (entry :: acquired) =
      takenBy core [entry] ++ takenBy core acquired := taken_by_append core [entry] acquired

/-- The lines so far, with none of the AP, with its first, or with both. -/
inductive Arranged : List (Core × Message) → Prop where
  | opening (before : List Message) (upto : before.length ≤ 7) : Arranged (byBsp before)
  | online (before between : List Message) (first : Message) (started : 5 ≤ before.length)
      (upto : before.length + between.length ≤ 7) :
      Arranged (byBsp before ++ (.ap, first) :: byBsp between)
  | closing (before between after : List Message) (first second : Message)
      (started : 5 ≤ before.length) (sent : before.length + between.length = 7) :
      Arranged (byBsp before ++ (.ap, first) :: byBsp between ++ (.ap, second) :: byBsp after)

theorem by_bsp_append (first second : List Message) :
    byBsp (first ++ second) = byBsp first ++ byBsp second := List.map_append

theorem by_bsp_single (message : Message) : [(.bsp, message)] = byBsp [message] := rfl

section
variable {acquired : List (Core × Message)} (arranged : Arranged acquired)
include arranged

/-- The BSP may write its first seven lines at any time, and the others when
    both lines of the AP are out. -/
theorem arranged_bsp (message : Message) (may : (takenBy .bsp acquired).length < 7 ∨
    2 ≤ (takenBy .ap acquired).length) : Arranged (acquired ++ [(.bsp, message)]) := by
  cases arranged with
  | opening before upto =>
    rw [taken_by_bsp, taken_by_ap] at may
    rw [by_bsp_single, ← by_bsp_append]
    apply Arranged.opening
    simp only [List.length_append, List.length_nil, List.length_singleton] at may ⊢
    omega
  | online before between first started upto =>
    rw [List.append_assoc, List.cons_append, by_bsp_single, ← by_bsp_append]
    apply Arranged.online _ _ _ started
    simp [taken_by_append, taken_by_self, taken_by_other] at may ⊢
    omega
  | closing before between after first second started sent =>
    rw [List.append_assoc, List.cons_append, by_bsp_single, ← by_bsp_append]
    exact .closing _ _ _ _ _ started sent

/-- The AP may write its first line after five of the BSP, and its second after
    seven. -/
theorem arranged_ap (message : Message) (fewer : (takenBy .ap acquired).length < 2)
    (started : 5 ≤ (takenBy .bsp acquired).length)
    (sent : (takenBy .ap acquired).length = 1 → 7 ≤ (takenBy .bsp acquired).length) :
    Arranged (acquired ++ [(.ap, message)]) := by
  cases arranged with
  | opening before upto =>
    rw [taken_by_bsp] at started
    exact .online before [] message started (by simpa using upto)
  | online before between first early upto =>
    apply Arranged.closing before between [] first message early
    simp [taken_by_append, taken_by_self, taken_by_other] at sent
    omega
  | closing before between after first second early exactly =>
    simp [taken_by_append, taken_by_self] at fewer

theorem by_bsp_of_none (none : takenBy .ap acquired = []) :
    acquired = byBsp (takenBy .bsp acquired) := by
  cases arranged with
  | opening before upto => rw [taken_by_bsp]
  | online before between first started upto =>
    simp [taken_by_append, taken_by_self] at none
  | closing before between after first second started sent =>
    simp [taken_by_append, taken_by_self] at none

end

section
variable (b : Boot m) (fmt : Formats)

/-- The whole output, when the AP writes its first line after 5 + late of the
    BSP. -/
def Boot.console (late : Nat) : List (Core × Message) :=
  byBsp (b.joined.take (5 + late)) ++ (.ap, apOnline) :: byBsp (b.joined.drop (5 + late)) ++
    (.ap, b.success) :: byBsp (m.closing fmt)

variable {b fmt} {acquired : List (Core × Message)}

theorem console_taken (late : Nat) (core : Core) :
    takenBy core (b.console fmt late) = b.transcript fmt core := by
  cases core with
  | bsp =>
    simp only [Boot.console, Boot.transcript, taken_by_append, taken_by_cons, taken_by_bsp,
      taken_by_other, ne_eq, reduceCtorEq, not_false_eq_true, List.nil_append]
    rw [List.take_append_drop]
  | ap => simp [Boot.console, Boot.transcript, taken_by_append, taken_by_self]

theorem console_of_joined {before between : List Message} (joined : before ++ between = b.joined)
    {late : Nat} (place : before.length = 5 + late) : b.console fmt late =
      byBsp before ++ (.ap, apOnline) :: byBsp between ++ (.ap, b.success) ::
        byBsp (m.closing fmt) := by
  rw [Boot.console, ← joined, ← place, List.take_left, List.drop_left]

theorem arranged_begins (arranged : Arranged acquired)
    (bsp : takenBy .bsp acquired <+: b.transcript fmt .bsp)
    (ap : takenBy .ap acquired <+: b.transcript fmt .ap) :
    ∃ late, late ≤ 2 ∧ acquired <+: b.console fmt late := by
  have upper : b.joined.length = 7 := rfl
  have joined : b.joined <+: b.transcript fmt .bsp := List.prefix_append _ _
  cases arranged with
  | opening before upto =>
    rw [taken_by_bsp] at bsp
    have part := List.prefix_of_prefix_length_le bsp joined (upper ▸ upto)
    refine ⟨2, le_refl 2, ?_⟩
    rw [console_of_joined (List.append_nil _) upper, List.append_assoc]
    exact (part.map _).trans (List.prefix_append _ _)
  | online before between first started upto =>
    have lines : before ++ between <+: b.transcript fmt .bsp := by
      simpa [taken_by_append, taken_by_other] using bsp
    obtain ⟨rest, whole⟩ := List.prefix_of_prefix_length_le lines joined (by simp; omega)
    have same : first = apOnline := by
      simpa [taken_by_append, taken_by_self, Boot.transcript] using ap
    refine ⟨before.length - 5, by omega, ?_⟩
    rw [List.append_assoc] at whole
    rw [console_of_joined whole (by omega), same, by_bsp_append, List.append_assoc]
    apply (List.prefix_append_right_inj _).mpr
    rw [List.cons_append, List.append_assoc]
    exact List.cons_prefix_cons.mpr ⟨rfl, List.prefix_append _ _⟩
  | closing before between after first second started sent =>
    have lines : before ++ between ++ after <+: b.transcript fmt .bsp := by
      simpa [taken_by_append, taken_by_other] using bsp
    have length : (before ++ between).length = b.joined.length := by
      rw [List.length_append, sent, upper]
    have whole : before ++ between = b.joined :=
      (List.prefix_of_prefix_length_le ((List.prefix_append _ _).trans lines) joined
        length.le).eq_of_length length
    rw [whole] at lines
    have rest : after <+: m.closing fmt := (List.prefix_append_right_inj _).mp lines
    have same : first = apOnline ∧ second = b.success := by
      simpa [taken_by_append, taken_by_self, Boot.transcript] using ap
    refine ⟨before.length - 5, by omega, ?_⟩
    rw [console_of_joined whole (by omega), same.1, same.2]
    apply (List.prefix_append_right_inj _).mpr
    exact List.cons_prefix_cons.mpr ⟨rfl, rest.map _⟩

theorem taken_lengths (acquired : List (Core × Message)) :
    acquired.length = (takenBy .bsp acquired).length + (takenBy .ap acquired).length := by
  induction acquired with
  | nil => rfl
  | cons entry rest ih =>
    obtain ⟨core, message⟩ := entry
    cases core with
    | bsp =>
      rw [List.length_cons, ih, taken_cons_own, taken_cons_other (by simp), List.length_cons]
      omega
    | ap =>
      rw [List.length_cons, ih, taken_cons_own, taken_cons_other (by simp), List.length_cons]
      omega

theorem console_whole {late : Nat} (part : acquired <+: b.console fmt late)
    (all : ∀ core, takenBy core acquired = b.transcript fmt core) :
    acquired = b.console fmt late := by
  apply part.eq_of_length
  rw [taken_lengths, taken_lengths (b.console fmt late), console_taken, console_taken, all, all]

end

end CellKernel
