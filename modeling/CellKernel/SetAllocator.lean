import Mathlib.Data.Finset.Max

/-
An allocator of resources from a finite set: the usable ones, and those handed
out. The least free resource is handed out first; only a resource that is
handed out can be released.
-/
namespace CellAllocator
variable {Resource : Type} [LinearOrder Resource]

structure SetAllocator (Resource : Type) where
  usable : Finset Resource
  out : Finset Resource
  out_usable : out ⊆ usable

def SetAllocator.free (s : SetAllocator Resource) : Finset Resource := s.usable \ s.out

def SetAllocator.reset (usable : Finset Resource) : SetAllocator Resource :=
  ⟨usable, ∅, Finset.empty_subset usable⟩

def SetAllocator.empty : SetAllocator Resource := .reset ∅

def SetAllocator.allocate (s : SetAllocator Resource) :
    Option Resource × SetAllocator Resource :=
  if available : s.free.Nonempty then
    (some (s.free.min' available), ⟨s.usable, insert (s.free.min' available) s.out,
      Finset.insert_subset (Finset.mem_sdiff.mp (s.free.min'_mem available)).1 s.out_usable⟩)
  else (none, s)

def SetAllocator.release (s : SetAllocator Resource) (r : Resource) :
    Bool × SetAllocator Resource :=
  if r ∈ s.out then
    (true, ⟨s.usable, s.out.erase r, (Finset.erase_subset r s.out).trans s.out_usable⟩)
  else (false, s)

inductive Request (Resource : Type) where
  | reset (usable : Finset Resource)
  | allocate
  | release (r : Resource)

inductive Reply (Resource : Type) where
  | reset
  | allocated (r : Option Resource)
  | released (done : Bool)
  deriving DecidableEq

def serve (s : SetAllocator Resource) :
    Request Resource → Reply Resource × SetAllocator Resource
  | .reset usable => (.reset, .reset usable)
  | .allocate => (.allocated s.allocate.1, s.allocate.2)
  | .release r => (.released (s.release r).1, (s.release r).2)

def replies : SetAllocator Resource → List (Request Resource) → List (Reply Resource)
  | _, [] => []
  | s, request :: rest => (serve s request).1 :: replies (serve s request).2 rest

def after : SetAllocator Resource → List (Request Resource) → SetAllocator Resource
  | s, [] => s
  | s, request :: rest => after (serve s request).2 rest

omit [LinearOrder Resource] in
theorem allocator_ext {s t : SetAllocator Resource} (usable : s.usable = t.usable)
    (out : s.out = t.out) : s = t := by
  cases s; cases t
  simp_all

theorem mem_free (s : SetAllocator Resource) (r : Resource) :
    r ∈ s.free ↔ r ∈ s.usable ∧ r ∉ s.out := Finset.mem_sdiff

theorem allocate_least {s : SetAllocator Resource} {r : Resource} (member : r ∈ s.free)
    (least : ∀ other ∈ s.free, r ≤ other) :
    s.allocate.1 = some r ∧ s.allocate.2.usable = s.usable ∧
      s.allocate.2.out = insert r s.out := by
  have available : s.free.Nonempty := ⟨r, member⟩
  have same : s.free.min' available = r := by
    apply le_antisymm
    · exact Finset.min'_le _ _ member
    · exact least _ (Finset.min'_mem _ _)
  simp [SetAllocator.allocate, available, same]

theorem allocate_exhausted {s : SetAllocator Resource} (exhausted : s.free = ∅) :
    s.allocate = (none, s) := by
  simp [SetAllocator.allocate, exhausted]

theorem allocate_some {s : SetAllocator Resource} {r : Resource}
    (handed : s.allocate.1 = some r) : r ∈ s.free ∧ (∀ other ∈ s.free, r ≤ other) ∧
      s.allocate.2.usable = s.usable ∧ s.allocate.2.out = insert r s.out := by
  unfold SetAllocator.allocate at handed ⊢
  split at handed
  · rename_i available
    simp only [Option.some.injEq] at handed
    subst r
    simp only [available, ↓reduceDIte, and_self, and_true]
    exact ⟨Finset.min'_mem _ _, fun other member => Finset.min'_le _ _ member⟩
  · simp at handed

theorem allocate_none_iff (s : SetAllocator Resource) : s.allocate.1 = none ↔ s.free = ∅ := by
  unfold SetAllocator.allocate
  split
  · rename_i available
    simp [available.ne_empty]
  · rename_i exhausted
    simpa using exhausted

theorem release_out {s : SetAllocator Resource} {r : Resource} (held : r ∈ s.out) :
    s.release r = (true, ⟨s.usable, s.out.erase r,
      (Finset.erase_subset r s.out).trans s.out_usable⟩) := by
  simp [SetAllocator.release, held]

theorem release_refused {s : SetAllocator Resource} {r : Resource} (absent : r ∉ s.out) :
    s.release r = (false, s) := by
  simp [SetAllocator.release, absent]

theorem stays_out {s : SetAllocator Resource} {r : Resource} (held : r ∈ s.out)
    (request : Request Resource) (unreset : ∀ usable, request ≠ .reset usable)
    (kept : request = .release r → (serve s request).1 ≠ .released true) :
    r ∈ (serve s request).2.out := by
  cases request with
  | reset usable => exact absurd rfl (unreset usable)
  | allocate =>
    simp only [serve, SetAllocator.allocate]
    split
    · exact Finset.mem_insert_of_mem held
    · exact held
  | release other =>
    by_cases same : other = r
    · subst other
      exact absurd (by rw [serve, release_out held]) (kept rfl)
    · simp only [serve, SetAllocator.release]
      split
      · exact Finset.mem_erase_of_ne_of_mem (Ne.symm same) held
      · exact held

theorem stays_in {s : SetAllocator Resource} {r : Resource} (absent : r ∉ s.out)
    (request : Request Resource) (kept : (serve s request).1 ≠ .allocated (some r)) :
    r ∉ (serve s request).2.out := by
  cases request with
  | reset usable => simp [serve, SetAllocator.reset]
  | allocate =>
    simp only [serve, ne_eq, Reply.allocated.injEq] at kept ⊢
    unfold SetAllocator.allocate at kept ⊢
    split at kept
    · rename_i available
      simp only [Option.some.injEq] at kept
      simp only [available, ↓reduceDIte, Finset.mem_insert, not_or]
      exact ⟨fun same => kept same.symm, absent⟩
    · rename_i exhausted
      simpa [exhausted] using absent
  | release other =>
    simp only [serve, SetAllocator.release]
    split
    · exact fun member => absent (Finset.mem_of_mem_erase member)
    · exact absent

theorem handed_out {s : SetAllocator Resource} {r : Resource} {request : Request Resource}
    (handed : (serve s request).1 = .allocated (some r)) : r ∈ (serve s request).2.out := by
  cases request with
  | reset usable => cases handed
  | release other => cases handed
  | allocate =>
    simp only [serve, Reply.allocated.injEq] at handed ⊢
    rw [(allocate_some handed).2.2.2]
    exact Finset.mem_insert_self _ _

theorem released {s : SetAllocator Resource} {r : Resource}
    (done : (serve s (.release r)).1 = .released true) : r ∉ (serve s (.release r)).2.out := by
  by_cases held : r ∈ s.out
  · rw [serve, release_out held]
    exact Finset.notMem_erase r s.out
  · rw [serve, release_refused held] at done
    cases done

def history (s : SetAllocator Resource) (requests : List (Request Resource)) :
    List (Request Resource × Reply Resource) :=
  requests.zip (replies s requests)

theorem history_cons (s : SetAllocator Resource) (request : Request Resource)
    (rest : List (Request Resource)) : history s (request :: rest) =
      (request, (serve s request).1) :: history (serve s request).2 rest := rfl

theorem replies_length (s : SetAllocator Resource) (requests : List (Request Resource)) :
    (replies s requests).length = requests.length := by
  induction requests generalizing s with
  | nil => rfl
  | cons request rest ih => simp [replies, ih]

theorem history_reply (s : SetAllocator Resource) (requests : List (Request Resource)) (k : Nat) :
    ((history s requests)[k]?).map Prod.snd = (replies s requests)[k]? := by
  rw [← List.getElem?_map, history, List.map_snd_zip (by rw [replies_length])]

theorem history_event (s : SetAllocator Resource) (requests : List (Request Resource)) (k : Nat)
    (request : Request Resource) (reply : Reply Resource) :
    (history s requests)[k]? = some (request, reply) ↔
      requests[k]? = some request ∧ (replies s requests)[k]? = some reply := by
  rw [history, List.getElem?_zip_eq_some]

/-- What separates a hand-out of r from a later one. -/
def Reclaims (r : Resource) : Request Resource × Reply Resource → Prop
  | (.reset _, _) => True
  | (.release other, .released true) => other = r
  | _ => False

theorem handed_out_reclaimed {s : SetAllocator Resource} {r : Resource} (held : r ∈ s.out)
    (requests : List (Request Resource)) {i : Nat}
    (again : ((history s requests)[i]?).map Prod.snd = some (.allocated (some r))) :
    ∃ k, k < i ∧ ∃ event, (history s requests)[k]? = some event ∧ Reclaims r event := by
  induction requests generalizing s i with
  | nil => simp [history, replies] at again
  | cons request rest ih =>
    rw [history_cons] at again ⊢
    cases i with
    | zero =>
      exfalso
      cases request with
      | allocate =>
        simp only [serve, List.getElem?_cons_zero, Option.map_some, Option.some.injEq,
          Reply.allocated.injEq] at again
        exact ((mem_free s r).mp (allocate_some again).1).2 held
      | reset usable => simp [serve] at again
      | release other => simp [serve] at again
    | succ i =>
      by_cases reclaims : Reclaims r (request, (serve s request).1)
      · exact ⟨0, by omega, _, rfl, reclaims⟩
      · have kept : r ∈ (serve s request).2.out := by
          apply stays_out held
          · intro usable same
            subst request
            exact reclaims trivial
          · intro same done
            subst request
            rw [done] at reclaims
            exact reclaims rfl
        obtain ⟨k, before, event, found, reclaimed⟩ := ih kept (by simpa using again)
        exact ⟨k + 1, by omega, event, by simpa using found, reclaimed⟩

theorem released_needs_allocation {s : SetAllocator Resource} {r : Resource}
    (absent : r ∉ s.out) (requests : List (Request Resource)) {i : Nat}
    (again : (history s requests)[i]? = some (.release r, .released true)) :
    ∃ k, k < i ∧ ((history s requests)[k]?).map Prod.snd = some (.allocated (some r)) := by
  induction requests generalizing s i with
  | nil => simp [history, replies] at again
  | cons request rest ih =>
    rw [history_cons] at again ⊢
    cases i with
    | zero =>
      exfalso
      simp only [List.getElem?_cons_zero, Option.some.injEq, Prod.mk.injEq] at again
      obtain ⟨same, done⟩ := again
      subst request
      rw [serve, release_refused absent] at done
      simp at done
    | succ i =>
      by_cases handed : (serve s request).1 = .allocated (some r)
      · exact ⟨0, by omega, by simp [handed]⟩
      · obtain ⟨k, before, found⟩ :=
          ih (stays_in absent request handed) (by simpa using again)
        exact ⟨k + 1, by omega, by simpa using found⟩

/-- Between two hand-outs of a resource it is released, or the allocator is
    reset. -/
theorem hand_outs_separated (s : SetAllocator Resource) {r : Resource}
    (requests : List (Request Resource)) {i j : Nat} (order : i < j)
    (first : ((history s requests)[i]?).map Prod.snd = some (.allocated (some r)))
    (again : ((history s requests)[j]?).map Prod.snd = some (.allocated (some r))) :
    ∃ k, i < k ∧ k < j ∧ ∃ event, (history s requests)[k]? = some event ∧ Reclaims r event := by
  induction requests generalizing s i j with
  | nil => simp [history, replies] at first
  | cons request rest ih =>
    obtain ⟨j, rfl⟩ : ∃ previous, j = previous + 1 := ⟨j - 1, by omega⟩
    rw [history_cons] at first again ⊢
    rw [List.getElem?_cons_succ] at again
    cases i with
    | zero =>
      simp only [List.getElem?_cons_zero, Option.map_some, Option.some.injEq] at first
      obtain ⟨k, before, event, found, reclaims⟩ :=
        handed_out_reclaimed (handed_out first) rest again
      exact ⟨k + 1, by omega, by omega, event, by simpa using found, reclaims⟩
    | succ i =>
      rw [List.getElem?_cons_succ] at first
      obtain ⟨k, later, before, event, found, reclaims⟩ := ih _ (by omega) first again
      exact ⟨k + 1, by omega, by omega, event, by simpa using found, reclaims⟩

/-- Between two releases of a resource it is handed out. -/
theorem releases_separated (s : SetAllocator Resource) {r : Resource}
    (requests : List (Request Resource)) {i j : Nat} (order : i < j)
    (first : (history s requests)[i]? = some (.release r, .released true))
    (again : (history s requests)[j]? = some (.release r, .released true)) :
    ∃ k, i < k ∧ k < j ∧
      ((history s requests)[k]?).map Prod.snd = some (.allocated (some r)) := by
  induction requests generalizing s i j with
  | nil => simp [history, replies] at first
  | cons request rest ih =>
    obtain ⟨j, rfl⟩ : ∃ previous, j = previous + 1 := ⟨j - 1, by omega⟩
    rw [history_cons] at first again ⊢
    rw [List.getElem?_cons_succ] at again
    cases i with
    | zero =>
      simp only [List.getElem?_cons_zero, Option.some.injEq, Prod.mk.injEq] at first
      obtain ⟨same, done⟩ := first
      subst request
      obtain ⟨k, before, found⟩ := released_needs_allocation (released done) rest again
      exact ⟨k + 1, by omega, by omega, by simpa using found⟩
    | succ i =>
      rw [List.getElem?_cons_succ] at first
      obtain ⟨k, later, before, found⟩ := ih _ (by omega) first again
      exact ⟨k + 1, by omega, by omega, by simpa using found⟩

theorem allocations_spec (s : SetAllocator Resource) {k : Nat} (enough : k ≤ s.free.card) :
    ∃ taken : List Resource, taken.length = k ∧ taken.Nodup ∧ (∀ r ∈ taken, r ∉ s.out) ∧
      replies s (List.replicate k .allocate) = taken.map (fun r => .allocated (some r)) ∧
      (after s (List.replicate k .allocate)).usable = s.usable ∧
      (after s (List.replicate k .allocate)).out = s.out ∪ taken.toFinset := by
  induction k generalizing s with
  | zero => exact ⟨[], rfl, List.nodup_nil, by simp, rfl, rfl, by simp [after]⟩
  | succ k ih =>
    have available : s.free.Nonempty := Finset.card_pos.mp (by omega)
    obtain ⟨handed, usable, out⟩ := allocate_least (s.free.min'_mem available)
      fun other member => s.free.min'_le other member
    have fresh := ((mem_free s _).mp (s.free.min'_mem available)).2
    have left : s.allocate.2.free = s.free.erase (s.free.min' available) := by
      rw [SetAllocator.free, usable, out, Finset.sdiff_insert]
      rfl
    have enoughLeft : k ≤ s.allocate.2.free.card := by
      rw [left, Finset.card_erase_of_mem (s.free.min'_mem available)]
      omega
    obtain ⟨taken, count, nodup, apart, answers, usableAfter, outAfter⟩ :=
      ih s.allocate.2 enoughLeft
    rw [out] at apart outAfter
    refine ⟨s.free.min' available :: taken, by simp [count], ?_, ?_, ?_, ?_, ?_⟩
    · rw [List.nodup_cons]
      exact ⟨fun again => apart _ again (Finset.mem_insert_self _ _), nodup⟩
    · intro r member
      rcases List.mem_cons.mp member with first | later
      · rw [first]
        exact fresh
      · exact fun held => apart r later (Finset.mem_insert_of_mem held)
    · rw [List.replicate_succ, replies, serve, handed, answers]
      rfl
    · rw [List.replicate_succ, after, serve, usableAfter, usable]
    · rw [List.replicate_succ, after, serve, outAfter, List.toFinset_cons, Finset.insert_union,
        Finset.union_insert]

theorem releases_spec {s : SetAllocator Resource} {order : List Resource} (nodup : order.Nodup)
    (held : ∀ r ∈ order, r ∈ s.out) :
    replies s (order.map .release) = order.map (fun _ => .released true) ∧
      (after s (order.map .release)).usable = s.usable ∧
      (after s (order.map .release)).out = s.out \ order.toFinset := by
  induction order generalizing s with
  | nil => exact ⟨rfl, rfl, by simp [after]⟩
  | cons r order ih =>
    rw [List.nodup_cons] at nodup
    have done := release_out (held r List.mem_cons_self)
    have stillHeld : ∀ other ∈ order, other ∈ (s.release r).2.out := by
      intro other member
      rw [done]
      apply Finset.mem_erase.mpr
      exact ⟨fun same => nodup.1 (same ▸ member), held other (List.mem_cons_of_mem r member)⟩
    obtain ⟨answers, usable, out⟩ := ih nodup.2 stillHeld
    refine ⟨?_, ?_, ?_⟩
    · rw [List.map_cons, replies, serve, answers, done]
      rfl
    · rw [List.map_cons, after, serve, usable, done]
    · rw [List.map_cons, after, serve, out, done, List.toFinset_cons, Finset.sdiff_insert,
        Finset.erase_sdiff_comm]

/-- Allocations are undone by releasing what they took, in any order. -/
theorem allocations_undone (s : SetAllocator Resource) {k : Nat} (enough : k ≤ s.free.card) :
    ∃ taken : List Resource, taken.length = k ∧
      replies s (List.replicate k .allocate) = taken.map (fun r => .allocated (some r)) ∧
      ∀ order : List Resource, order.Perm taken →
        replies (after s (List.replicate k .allocate)) (order.map .release) =
            order.map (fun _ => .released true) ∧
          after (after s (List.replicate k .allocate)) (order.map .release) = s := by
  obtain ⟨taken, count, nodup, apart, answers, usable, out⟩ := allocations_spec s enough
  refine ⟨taken, count, answers, ?_⟩
  intro order permuted
  have held : ∀ r ∈ order, r ∈ (after s (List.replicate k .allocate)).out := by
    intro r member
    rw [out]
    exact Finset.mem_union_right _ (List.mem_toFinset.mpr (permuted.mem_iff.mp member))
  obtain ⟨freed, usableAfter, outAfter⟩ := releases_spec (permuted.nodup_iff.mpr nodup) held
  refine ⟨freed, ?_⟩
  apply allocator_ext
  · rw [usableAfter, usable]
  · rw [outAfter, out, List.toFinset_eq_of_perm order taken permuted, Finset.union_sdiff_right]
    apply Finset.sdiff_eq_self_of_disjoint
    rw [Finset.disjoint_right]
    intro r member
    exact apart r (List.mem_toFinset.mp member)

theorem after_usable (s : SetAllocator Resource) {requests : List (Request Resource)}
    (unreset : ∀ request ∈ requests, ∀ usable, request ≠ .reset usable) :
    (after s requests).usable = s.usable := by
  induction requests generalizing s with
  | nil => rfl
  | cons request rest ih =>
    rw [after, ih _ fun later member => unreset later (List.mem_cons_of_mem _ member)]
    cases request with
    | reset usable => exact absurd rfl (unreset _ List.mem_cons_self usable)
    | allocate =>
      simp only [serve, SetAllocator.allocate]
      split <;> rfl
    | release r =>
      simp only [serve, SetAllocator.release]
      split <;> rfl

end CellAllocator
