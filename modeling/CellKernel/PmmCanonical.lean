import CellKernel.PmmRuns

/-
The state of the frame allocator after an initialize is a function of what is
outstanding: the path of allocations and frees that led there leaves no trace.
-/
namespace CellPmm
open CellAllocator

def PmmCall.Exchanges : PmmCall → Prop
  | .initializeWith _ => False
  | .allocate => True
  | .free _ => True

theorem exchanges_unreset {calls : List PmmCall} (exchanges : ∀ call ∈ calls, call.Exchanges) :
    ∀ request ∈ calls.map PmmCall.request, ∀ usable, request ≠ .reset usable := by
  intro request member usable same
  obtain ⟨call, listed, asked⟩ := List.mem_map.mp member
  rw [same] at asked
  cases call with
  | initializeWith entries => exact exchanges _ listed
  | allocate => cases asked
  | free frame => cases asked

theorem results_length {s : SetAllocator Nat} {calls : List PmmCall} {results : List PmmResult}
    (same : results.map PmmResult.reply = replies s (calls.map PmmCall.request)) :
    calls.length = results.length := by
  have lengths := congrArg List.length same
  rw [List.length_map, replies_length, List.length_map] at lengths
  exact lengths.symm

/-- What is outstanding after the calls so far and further calls from a state
    that represents s. -/
theorem outstanding_continued {s : SetAllocator Nat} {before calls : List PmmCall}
    {resultsBefore results : List PmmResult}
    (sameBefore : resultsBefore.map PmmResult.reply =
      replies .empty (before.map PmmCall.request))
    (here : s = after .empty (before.map PmmCall.request))
    (same : results.map PmmResult.reply = replies s (calls.map PmmCall.request)) :
    outstanding ((before ++ calls).zip (resultsBefore ++ results)) =
      (after s (calls.map PmmCall.request)).out := by
  have out : outstanding (before.zip resultsBefore) = s.out := by
    rw [here]
    exact outstanding_out sameBefore
  rw [List.zip_append (results_length sameBefore), outstanding, List.foldl_append,
    ← outstanding_out same, ← out]
  rfl

theorem perform_all_append {pmm middle last : BitmapPmm} {first second : List PmmCall}
    {resultsFirst resultsSecond : List PmmResult}
    (ranFirst : pmm.performAll first = .ok (resultsFirst, middle))
    (ranSecond : middle.performAll second = .ok (resultsSecond, last)) :
    pmm.performAll (first ++ second) = .ok (resultsFirst ++ resultsSecond, last) := by
  induction first generalizing pmm resultsFirst with
  | nil =>
    cases ranFirst
    exact ranSecond
  | cons call first ih =>
    rw [BitmapPmm.performAll] at ranFirst
    cases called : pmm.perform call with
    | error fault =>
      rw [called] at ranFirst
      cases ranFirst
    | ok answer =>
      obtain ⟨result, next⟩ := answer
      cases ranRest : next.performAll first with
      | error fault =>
        simp [called, ranRest, bind, Except.bind] at ranFirst
      | ok rest =>
        obtain ⟨results, reached⟩ := rest
        simp only [called, ranRest, bind, Except.bind, pure, Except.pure, Except.ok.injEq,
          Prod.mk.injEq] at ranFirst
        obtain ⟨resultsSame, rfl⟩ := ranFirst
        subst resultsSame
        simp only [List.cons_append, BitmapPmm.performAll, called, ih ranRest, bind, Except.bind,
          pure, Except.pure]

theorem allocated_frames {taken : List Nat} {results : List PmmResult}
    (same : results.map PmmResult.reply = taken.map fun r => .allocated (some r)) :
    ∃ frames : List PhysicalFrame, frames.map PhysicalFrame.number = taken ∧
      results = frames.map fun frame => .allocated (some frame) := by
  induction taken generalizing results with
  | nil =>
    rw [List.map_nil, List.map_eq_nil_iff] at same
    exact ⟨[], rfl, same⟩
  | cons r taken ih =>
    cases results with
    | nil => cases same
    | cons result results =>
      simp only [List.map_cons, List.cons.injEq] at same
      obtain ⟨frames, numbers, rest⟩ := ih same.2
      cases result with
      | initialized stats => cases same.1
      | freed done => cases same.1
      | allocated frame =>
        cases frame with
        | none => cases same.1
        | some frame =>
          have number : frame.number = r := by simpa [PmmResult.reply] using same.1
          exact ⟨frame :: frames, by rw [List.map_cons, number, numbers], by
            rw [List.map_cons, rest]⟩

theorem freed_results {order : List PhysicalFrame} {results : List PmmResult}
    (same : results.map PmmResult.reply = order.map fun _ => .released true) :
    results = order.map fun _ => .freed true := by
  induction order generalizing results with
  | nil => rwa [List.map_nil, List.map_eq_nil_iff] at same
  | cons frame order ih =>
    cases results with
    | nil => cases same
    | cons result results =>
      simp only [List.map_cons, List.cons.injEq] at same
      rw [List.map_cons, ih same.2]
      cases result with
      | initialized stats => cases same.1
      | allocated frame => cases same.1
      | freed done =>
        have accepted : done = true := by simpa [PmmResult.reply] using same.1
        rw [accepted]

theorem frees_restore {pmm : BitmapPmm} {s : SetAllocator Nat} (rep : Represents pmm s) {k : Nat}
    (enough : k ≤ pmm.freeFrames) :
    ∃ (frames : List PhysicalFrame) (drained : BitmapPmm), frames.length = k ∧
      pmm.performAll (List.replicate k .allocate) =
        .ok (frames.map fun frame => .allocated (some frame), drained) ∧
      ∀ order : List PhysicalFrame, order.Perm frames →
        drained.performAll (order.map .free) = .ok (order.map fun _ => .freed true, pmm) := by
  rw [rep.free_count] at enough
  obtain ⟨taken, count, answers, undone⟩ := allocations_undone s enough
  obtain ⟨results, drained, ran, same, repDrained⟩ :=
    perform_all_spec rep (List.replicate k .allocate)
  rw [List.map_replicate, PmmCall.request] at same repDrained
  rw [answers] at same
  obtain ⟨frames, numbers, rfl⟩ := allocated_frames same
  refine ⟨frames, drained, ?_, ran, ?_⟩
  · rw [← count, ← numbers, List.length_map]
  · intro order permuted
    obtain ⟨freed, restored⟩ := undone (order.map PhysicalFrame.number) (by
      rw [← numbers]
      exact permuted.map PhysicalFrame.number)
    obtain ⟨results, last, ranBack, sameBack, repLast⟩ :=
      perform_all_spec repDrained (order.map .free)
    have requests : (order.map PmmCall.free).map PmmCall.request =
        (order.map PhysicalFrame.number).map .release := by
      rw [List.map_map, List.map_map]
      rfl
    rw [requests] at sameBack repLast
    rw [freed, List.map_map] at sameBack
    rw [restored] at repLast
    rw [ranBack, freed_results sameBack, represents_unique repLast rep]

/-- From any state that calls from new() reach, the state after allocations and
    frees is determined by what is outstanding, and k allocations are undone by
    freeing their frames in any order. -/
theorem pmm_state_canonical (before : List PmmCall) :
    ∃ resultsBefore s0, BitmapPmm.new.performAll before = .ok (resultsBefore, s0) ∧
      (∀ first second : List PmmCall, (∀ call ∈ first, call.Exchanges) →
        (∀ call ∈ second, call.Exchanges) →
          ∃ resultsFirst s1 resultsSecond s2,
            s0.performAll first = .ok (resultsFirst, s1) ∧
            s0.performAll second = .ok (resultsSecond, s2) ∧
            (outstanding ((before ++ first).zip (resultsBefore ++ resultsFirst)) =
              outstanding ((before ++ second).zip (resultsBefore ++ resultsSecond)) →
                s1 = s2)) ∧
      ∀ k, k ≤ s0.freeFrames →
        ∃ (frames : List PhysicalFrame) (drained : BitmapPmm), frames.length = k ∧
          s0.performAll (List.replicate k .allocate) =
            .ok (frames.map fun frame => .allocated (some frame), drained) ∧
          ∀ order : List PhysicalFrame, order.Perm frames →
            drained.performAll (order.map .free) = .ok (order.map fun _ => .freed true, s0) ∧
            s0.performAll (List.replicate k .allocate ++ order.map .free ++
                List.replicate k .allocate) =
              .ok ((frames.map fun frame => .allocated (some frame)) ++
                (order.map fun _ => .freed true) ++
                frames.map fun frame => .allocated (some frame), drained) := by
  obtain ⟨resultsBefore, s0, ranBefore, sameBefore, rep⟩ := perform_all_spec new_represents before
  refine ⟨resultsBefore, s0, ranBefore, ?_, ?_⟩
  · intro first second exchangesFirst exchangesSecond
    obtain ⟨resultsFirst, s1, ranFirst, sameFirst, repFirst⟩ := perform_all_spec rep first
    obtain ⟨resultsSecond, s2, ranSecond, sameSecond, repSecond⟩ := perform_all_spec rep second
    refine ⟨resultsFirst, s1, resultsSecond, s2, ranFirst, ranSecond, ?_⟩
    intro same
    rw [outstanding_continued sameBefore rfl sameFirst,
      outstanding_continued sameBefore rfl sameSecond] at same
    have state := allocator_ext
      ((after_usable _ (exchanges_unreset exchangesFirst)).trans
        (after_usable _ (exchanges_unreset exchangesSecond)).symm) same
    rw [state] at repFirst
    exact represents_unique repFirst repSecond
  · intro k enough
    obtain ⟨frames, drained, count, ran, restores⟩ := frees_restore rep enough
    refine ⟨frames, drained, count, ran, ?_⟩
    intro order permuted
    have back := restores order permuted
    exact ⟨back, perform_all_append (perform_all_append ran back) ran⟩

end CellPmm
