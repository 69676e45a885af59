import CellKernel.PmmRefinement

/-
Sequences of calls of the frame allocator: every sequence of initialize,
allocate and free from new() runs without a fault, answers as the set allocator
does, and leaves bitmaps and counters in step.
-/
namespace CellPmm
open CellBitmap CellAllocator

inductive PmmCall where
  | initializeWith (entries : List Entry)
  | allocate
  | free (frame : PhysicalFrame)

inductive PmmResult where
  | initialized (stats : PmmStats)
  | allocated (frame : Option PhysicalFrame)
  | freed (done : Bool)
  deriving DecidableEq

def BitmapPmm.perform (pmm : BitmapPmm) : PmmCall → Except PmmFault (PmmResult × BitmapPmm)
  | .initializeWith entries => do
    let (stats, next) ← BitmapPmm.initialize pmm entries
    return (.initialized stats, next)
  | .allocate => do
    let (frame, next) ← pmm.allocate
    return (.allocated frame, next)
  | .free frame => do
    let (done, next) ← pmm.free frame
    return (.freed done, next)

def BitmapPmm.performAll (pmm : BitmapPmm) :
    List PmmCall → Except PmmFault (List PmmResult × BitmapPmm)
  | [] => .ok ([], pmm)
  | call :: rest => do
    let (result, next) ← pmm.perform call
    let (results, last) ← next.performAll rest
    return (result :: results, last)

def PmmCall.request : PmmCall → Request Nat
  | .initializeWith entries => .reset (usableSet entries)
  | .allocate => .allocate
  | .free frame => .release frame.number

def PmmResult.reply : PmmResult → Reply Nat
  | .initialized _ => .reset
  | .allocated frame => .allocated (frame.map PhysicalFrame.number)
  | .freed done => .released done

theorem perform_spec {pmm : BitmapPmm} {s : SetAllocator Nat} (rep : Represents pmm s)
    (call : PmmCall) : ∃ result next, pmm.perform call = .ok (result, next) ∧
      result.reply = (serve s call.request).1 ∧
      Represents next (serve s call.request).2 := by
  cases call with
  | initializeWith entries =>
    obtain ⟨ready, ran, repReady⟩ := initialize_spec pmm entries
    refine ⟨.initialized ready.stats, ready, ?_, rfl, repReady⟩
    simp only [BitmapPmm.perform, ran, bind, Except.bind, pure, Except.pure]
  | allocate =>
    obtain ⟨frame, next, ran, same, repNext⟩ := allocate_spec rep
    refine ⟨.allocated frame, next, ?_, ?_, repNext⟩
    · simp only [BitmapPmm.perform, ran, bind, Except.bind, pure, Except.pure]
    · rw [PmmResult.reply, same]
      rfl
  | free frame =>
    obtain ⟨next, ran, repNext⟩ := free_spec rep frame
    refine ⟨.freed (s.release frame.number).1, next, ?_, rfl, repNext⟩
    simp only [BitmapPmm.perform, ran, bind, Except.bind, pure, Except.pure]

theorem perform_all_spec {pmm : BitmapPmm} {s : SetAllocator Nat} (rep : Represents pmm s)
    (calls : List PmmCall) : ∃ results last, pmm.performAll calls = .ok (results, last) ∧
      results.map PmmResult.reply = replies s (calls.map PmmCall.request) ∧
      Represents last (after s (calls.map PmmCall.request)) := by
  induction calls generalizing pmm s with
  | nil => exact ⟨[], pmm, rfl, rfl, rep⟩
  | cons call rest ih =>
    obtain ⟨result, next, ran, same, repNext⟩ := perform_spec rep call
    obtain ⟨results, last, ranRest, sameRest, repLast⟩ := ih repNext
    refine ⟨result :: results, last, ?_, ?_, repLast⟩
    · simp only [BitmapPmm.performAll, ran, ranRest, bind, Except.bind, pure, Except.pure]
    · rw [List.map_cons, same, sameRest]
      rfl

section
variable {s : SetAllocator Nat} {calls : List PmmCall} {results : List PmmResult}
  (same : results.map PmmResult.reply = replies s (calls.map PmmCall.request))
include same

theorem allocated_event (k : Nat) (f : PhysicalFrame) :
    ((history s (calls.map PmmCall.request))[k]?).map Prod.snd =
      some (.allocated (some f.number)) ↔ results[k]? = some (.allocated (some f)) := by
  rw [history_reply, ← same, List.getElem?_map, Option.map_eq_some_iff]
  constructor
  · intro ⟨result, here, reply⟩
    rw [here]
    cases result with
    | initialized stats => cases reply
    | freed done => cases reply
    | allocated frame =>
      simp only [PmmResult.reply, Reply.allocated.injEq, Option.map_eq_some_iff] at reply
      obtain ⟨g, found, number⟩ := reply
      rw [found, frame_ext number]
  · intro here
    exact ⟨_, here, rfl⟩

theorem freed_event (k : Nat) (f : PhysicalFrame) :
    (history s (calls.map PmmCall.request))[k]? = some (.release f.number, .released true) ↔
      calls[k]? = some (.free f) ∧ results[k]? = some (.freed true) := by
  rw [history_event, ← same, List.getElem?_map, List.getElem?_map, Option.map_eq_some_iff,
    Option.map_eq_some_iff]
  constructor
  · intro ⟨⟨call, called, request⟩, ⟨result, got, reply⟩⟩
    rw [called, got]
    constructor
    · cases call with
      | initializeWith entries => cases request
      | allocate => cases request
      | free g =>
        simp only [PmmCall.request, Request.release.injEq] at request
        rw [frame_ext request]
    · cases result with
      | initialized stats => cases reply
      | allocated frame => cases reply
      | freed done =>
        simp only [PmmResult.reply, Reply.released.injEq] at reply
        rw [reply]
  · intro ⟨called, got⟩
    exact ⟨⟨_, called, rfl⟩, ⟨_, got, rfl⟩⟩

theorem reclaiming_event (k : Nat) (f : PhysicalFrame) {event : Request Nat × Reply Nat}
    (found : (history s (calls.map PmmCall.request))[k]? = some event)
    (reclaims : Reclaims f.number event) :
    (∃ entries, calls[k]? = some (.initializeWith entries)) ∨
      (calls[k]? = some (.free f) ∧ results[k]? = some (.freed true)) := by
  obtain ⟨request, reply⟩ := event
  cases request with
  | reset usable =>
    left
    rw [history_event, List.getElem?_map, Option.map_eq_some_iff] at found
    obtain ⟨⟨call, called, asked⟩, _⟩ := found
    cases call with
    | initializeWith entries => exact ⟨entries, called⟩
    | allocate => cases asked
    | free g => cases asked
  | allocate => cases reclaims
  | release r =>
    right
    cases reply with
    | reset => cases reclaims
    | allocated frame => cases reclaims
    | released done =>
      cases done with
      | false => cases reclaims
      | true =>
        have number : r = f.number := reclaims
        subst r
        exact (freed_event same k f).mp found

end

/-- A frame is handed out again only after a successful free of it or an
    initialize. -/
def HandOutsSeparated (calls : List PmmCall) (results : List PmmResult) : Prop :=
  ∀ (i j : Nat) (f : PhysicalFrame), i < j → results[i]? = some (.allocated (some f)) →
    results[j]? = some (.allocated (some f)) → ∃ k : Nat, i < k ∧ k < j ∧
      ((∃ entries, calls[k]? = some (.initializeWith entries)) ∨
        (calls[k]? = some (.free f) ∧ results[k]? = some (.freed true)))

/-- A frame is freed again only after it was handed out again. -/
def FreesSeparated (calls : List PmmCall) (results : List PmmResult) : Prop :=
  ∀ (i j : Nat) (f : PhysicalFrame), i < j →
    calls[i]? = some (.free f) → results[i]? = some (.freed true) →
    calls[j]? = some (.free f) → results[j]? = some (.freed true) →
      ∃ k : Nat, i < k ∧ k < j ∧ results[k]? = some (.allocated (some f))

/-- Every sequence of calls from new() runs without a fault and is a run of the
    set allocator: the same answers, and a state that represents its state. -/
theorem pmm_refines_set_allocator (calls : List PmmCall) :
    ∃ results pmm, BitmapPmm.new.performAll calls = .ok (results, pmm) ∧
      results.map PmmResult.reply = replies .empty (calls.map PmmCall.request) ∧
      Represents pmm (after .empty (calls.map PmmCall.request)) ∧
      (∀ frame : PhysicalFrame,
        frame.number ∉ (after .empty (calls.map PmmCall.request)).out →
          pmm.free frame = .ok (false, pmm)) ∧
      HandOutsSeparated calls results ∧ FreesSeparated calls results := by
  obtain ⟨results, pmm, ran, same, rep⟩ := perform_all_spec new_represents calls
  refine ⟨results, pmm, ran, same, rep, ?_, ?_, ?_⟩
  · intro frame absent
    exact free_refused rep absent
  · intro i j f order first again
    rw [← allocated_event same] at first again
    obtain ⟨k, later, before, event, found, reclaims⟩ :=
      hand_outs_separated _ _ order first again
    exact ⟨k, later, before, reclaiming_event same k f found reclaims⟩
  · intro i j f order freed done freedAgain doneAgain
    have first := (freed_event same i f).mpr ⟨freed, done⟩
    have again := (freed_event same j f).mpr ⟨freedAgain, doneAgain⟩
    obtain ⟨k, later, before, found⟩ := releases_separated _ _ order first again
    exact ⟨k, later, before, (allocated_event same k f).mp found⟩

theorem one_frame_map : usableSet [⟨0, 4096, EntryType.USABLE⟩] = {0} := by
  ext frame
  have limit := max_frames_value
  simp only [mem_usable_set, List.mem_singleton, exists_eq_left, Finset.mem_singleton,
    FrameInside, UInt64.reduceToNat, true_and]
  omega

/-- A second initialize forgets what is handed out. -/
theorem reinitialize_hands_out_again :
    ¬ ∀ (calls : List PmmCall) (results : List PmmResult) (pmm : BitmapPmm),
      BitmapPmm.new.performAll calls = .ok (results, pmm) →
        ∀ (i j : Nat) (f : PhysicalFrame), i < j → results[i]? = some (.allocated (some f)) →
          results[j]? = some (.allocated (some f)) →
            ∃ k : Nat, i < k ∧ k < j ∧ calls[k]? = some (.free f) ∧
              results[k]? = some (.freed true) := by
  intro freed
  obtain ⟨results, pmm, ran, same, _⟩ := perform_all_spec new_represents
    [.initializeWith [⟨0, 4096, EntryType.USABLE⟩], .allocate,
      .initializeWith [⟨0, 4096, EntryType.USABLE⟩], .allocate]
  have least : (SetAllocator.reset ({0} : Finset Nat)).allocate.1 = some 0 :=
    (allocate_least (by simp [free_reset]) (by simp)).1
  have answers : ∀ k, k = 1 ∨ k = 3 →
      results[k]? = some (.allocated (some (PhysicalFrame.fromAddress 0))) := by
    intro k first
    rw [← allocated_event same, history_reply]
    cases first with
    | inl first =>
      subst k
      simp only [List.map_cons, PmmCall.request, one_frame_map, replies, serve, least]
      rfl
    | inr second =>
      subst k
      simp only [List.map_cons, PmmCall.request, one_frame_map, replies, serve, least]
      rfl
  obtain ⟨k, after, before, called, _⟩ := freed _ _ _ ran 1 3 _ (by decide)
    (answers 1 (Or.inl rfl)) (answers 3 (Or.inr rfl))
  obtain rfl : k = 2 := by omega
  simp at called

/-- Frames handed out and not yet freed, from the calls and their results. -/
def outstandingAfter (out : Finset Nat) : PmmCall × PmmResult → Finset Nat
  | (.initializeWith _, _) => ∅
  | (.allocate, .allocated (some f)) => insert f.number out
  | (.free f, .freed true) => out.erase f.number
  | _ => out

def outstanding (events : List (PmmCall × PmmResult)) : Finset Nat :=
  events.foldl outstandingAfter ∅

theorem outstanding_step (s : SetAllocator Nat) {call : PmmCall} {result : PmmResult}
    (same : result.reply = (serve s call.request).1) :
    outstandingAfter s.out (call, result) = (serve s call.request).2.out := by
  cases call with
  | initializeWith entries => rfl
  | allocate =>
    cases result with
    | initialized stats => cases same
    | freed done => cases same
    | allocated frame =>
      simp only [PmmResult.reply, PmmCall.request, serve, Reply.allocated.injEq] at same ⊢
      cases frame with
      | none =>
        rw [allocate_exhausted ((allocate_none_iff s).mp same.symm)]
        rfl
      | some f => exact (allocate_some same.symm).2.2.2.symm
  | free f =>
    cases result with
    | initialized stats => cases same
    | allocated frame => cases same
    | freed done =>
      simp only [PmmResult.reply, PmmCall.request, serve, Reply.released.injEq] at same ⊢
      subst done
      by_cases held : f.number ∈ s.out
      · rw [release_out held]
        rfl
      · rw [release_refused held]
        rfl

theorem outstanding_out {s : SetAllocator Nat} {calls : List PmmCall} {results : List PmmResult}
    (same : results.map PmmResult.reply = replies s (calls.map PmmCall.request)) :
    (calls.zip results).foldl outstandingAfter s.out =
      (after s (calls.map PmmCall.request)).out := by
  induction calls generalizing s results with
  | nil => rfl
  | cons call rest ih =>
    cases results with
    | nil => cases same
    | cons result results =>
      simp only [List.map_cons, replies, List.cons.injEq] at same
      rw [List.zip_cons_cons, List.foldl_cons, outstanding_step s same.1, ih same.2]
      rfl

/-- The relation between the two bitmaps and the three counters. -/
structure WellFormed (pmm : BitmapPmm) : Prop where
  usable_count : pmm.usableFrames = (members pmm.usable).card
  free_count : pmm.freeFrames = (members pmm.usable \ members pmm.allocated).card
  free_le : pmm.freeFrames ≤ pmm.usableFrames
  unusable_marked : ∀ f, f < maxFrames → bit pmm.usable f = false → bit pmm.allocated f = true
  usable_below : ∀ f, bit pmm.usable f = true → f < pmm.maxFrame
  highest_usable : 0 < pmm.maxFrame → bit pmm.usable (pmm.maxFrame - 1) = true

theorem represents_members {pmm : BitmapPmm} {s : SetAllocator Nat} (rep : Represents pmm s) :
    members pmm.usable = s.usable ∧ members pmm.usable \ members pmm.allocated = s.free := by
  have usable : members pmm.usable = s.usable := by
    ext f
    rw [mem_members, rep.usable_bits]
  refine ⟨usable, ?_⟩
  ext f
  rw [Finset.mem_sdiff, mem_members, mem_members]
  constructor
  · intro ⟨set, clear⟩
    have inside := represents_inside rep ((rep.usable_bits f).mp set)
    have unmarked : bit pmm.allocated f = false := by simpa using clear
    rw [← free_bits rep inside, set, unmarked]
    rfl
  · intro member
    have inside := represents_inside rep ((mem_free s f).mp member).1
    have bits := (free_bits rep inside).mpr member
    simpa using bits

theorem represents_well_formed {pmm : BitmapPmm} {s : SetAllocator Nat}
    (rep : Represents pmm s) : WellFormed pmm := by
  obtain ⟨usable, free⟩ := represents_members rep
  constructor
  · rw [usable, rep.usable_count]
  · rw [free, rep.free_count]
  · rw [rep.free_count, rep.usable_count]
    exact Finset.card_le_card Finset.sdiff_subset
  · intro f inside unset
    rw [rep.allocated_bits f inside]
    intro member
    rw [(rep.usable_bits f).mpr member] at unset
    cases unset
  · intro f set
    rw [rep.highest]
    exact Nat.lt_of_succ_le (Finset.le_sup (f := Nat.succ) ((rep.usable_bits f).mp set))
  · intro positive
    rw [rep.usable_bits]
    rw [rep.highest] at positive ⊢
    have nonempty : s.usable.Nonempty := by
      by_contra none
      rw [Finset.not_nonempty_iff_eq_empty.mp none] at positive
      exact absurd positive (by decide)
    obtain ⟨f, member, attained⟩ := Finset.exists_mem_eq_sup s.usable nonempty Nat.succ
    rw [attained]
    exact member

theorem represents_handed_out_count {pmm : BitmapPmm} {s : SetAllocator Nat}
    (rep : Represents pmm s) : s.out.card = pmm.usableFrames - pmm.freeFrames := by
  rw [rep.usable_count, rep.free_count, SetAllocator.free,
    Finset.card_sdiff_of_subset s.out_usable]
  have within := Finset.card_le_card s.out_usable
  omega

/-- Every sequence of calls from new() runs without overflow, underflow or an
    index out of range, and leaves bitmaps and counters in step. -/
theorem pmm_well_formed_every_run (calls : List PmmCall) :
    ∃ results pmm, BitmapPmm.new.performAll calls = .ok (results, pmm) ∧ WellFormed pmm ∧
      (outstanding (calls.zip results)).card = pmm.usableFrames - pmm.freeFrames := by
  obtain ⟨results, pmm, ran, same, rep⟩ := perform_all_spec new_represents calls
  refine ⟨results, pmm, ran, represents_well_formed rep, ?_⟩
  have out := outstanding_out same
  rw [← represents_handed_out_count rep, ← out]
  rfl

end CellPmm
