import KVStore.OperationStats
import Mathlib.Data.List.Perm.Basic
import Mathlib.Algebra.Order.Ring.Nat

/-!
# The runs of the playground

`main` runs a conversation some number of times, one run after the other or with up to `concurrency`
runs in flight. In flight, the results are taken in the order in which the polling loop finds them.
`concurrent_agrees`: whatever that order, `main` fails exactly when the sequential loop does, and
otherwise displays the statistics that the sequential loop displays at its end.
`concurrent_returns`: as many passes as it takes to fill `concurrency` places with the runs are
enough, counting those that find everything ready.
-/

namespace KVStore

open OperationStats

/-- What `runConversation` returns: a code and the latencies of the run. -/
abbrev RunResult := Int × OperationStats

/-- A report of progress: how many runs are completed, and the statistics. -/
abbrev ProgressReport := Nat × List StatsLine

/-- Reported are every 1000 completions and the last one. -/
def isMilestone (iterations n : Nat) : Bool := n % 1000 = 0 ∨ n = iterations

/-- What `main` has collected. -/
structure Tally where
  aggregatedStats : OperationStats := {}
  completed : Nat := 0
  progress : List ProgressReport := []

/-- The statistics of a run are merged, the run is counted, and the progress is reported. -/
def Tally.collect (iterations : Nat) (t : Tally) (opStats : OperationStats) : Tally :=
  let aggregatedStats := t.aggregatedStats.merge opStats
  let completed := t.completed + 1
  { aggregatedStats, completed,
    progress :=
      if isMilestone iterations completed then
        t.progress ++ [(completed, aggregatedStats.displayDetailedStats)]
      else t.progress }

/-! ## Sequential execution -/

/-- `for (int i = 1; i <= iterations; ++i)`, with `n` turns to go. -/
def sequentialLoop (iterations : Nat) (results : Nat → RunResult) : Nat → Nat → Tally → Int × Tally
  | 0, _, t => (0, t)
  | n + 1, i, t =>
    if (results i).1 ≠ 0 then ((results i).1, t)
    else sequentialLoop iterations results n (i + 1) (t.collect iterations (results i).2)

def runSequentially (iterations : Nat) (results : Nat → RunResult) : Int × Tally :=
  sequentialLoop iterations results iterations 1 {}

/-! ## Runs in flight -/

structure Driver where
  /-- The runs in flight. -/
  futures : List Nat := []
  runId : Nat := 1
  tally : Tally := {}

/-- The launching loop. -/
def launchRuns (iterations concurrency : Nat) (d : Driver) : Driver :=
  if d.futures.length < concurrency ∧ d.runId ≤ iterations then
    launchRuns iterations concurrency
      { d with futures := d.futures ++ [d.runId], runId := d.runId + 1 }
  else d
termination_by iterations + 1 - d.runId

/-- The polling loop over the futures not yet looked at; those that stay have gone back to
`futures`. `ready` says whether `wait_for` finds a run ready. -/
def pollFutures (iterations : Nat) (results : Nat → RunResult) (ready : Nat → Bool) :
    List Nat → Driver → Except (Int × Tally) Driver
  | [], d => .ok d
  | id :: rest, d =>
    if ready id then
      if (results id).1 ≠ 0 then .error ((results id).1, d.tally)
      else
        pollFutures iterations results ready rest
          { d with tally := d.tally.collect iterations (results id).2 }
    else pollFutures iterations results ready rest { d with futures := d.futures ++ [id] }

/-- `while (completed < iterations)`, with one entry of `passes` for each pass over the futures. The
result is the code, what was collected, and the final display; there is none while runs are
awaited. -/
def concurrentLoop (iterations concurrency : Nat) (results : Nat → RunResult) :
    List (Nat → Bool) → Driver → Option (Int × Tally × List StatsLine)
  | passes, d =>
    if d.tally.completed < iterations then
      match passes with
      | [] => none
      | ready :: passes =>
        let d := launchRuns iterations concurrency d
        match pollFutures iterations results ready d.futures { d with futures := [] } with
        | .error (code, t) => some (code, t, [])
        | .ok d => concurrentLoop iterations concurrency results passes d
    else some (0, d.tally, d.tally.aggregatedStats.displayDetailedStats)

def runConcurrently (iterations concurrency : Nat) (results : Nat → RunResult)
    (passes : List (Nat → Bool)) : Option (Int × Tally × List StatsLine) :=
  concurrentLoop iterations concurrency results passes {}

/-- A pass that finds every run ready that is in flight. -/
def allReady (iterations : Nat) (ready : Nat → Bool) : Bool := (List.range' 1 iterations).all ready

/-! ## What is collected -/

/-- The tally after runs were collected in some order. -/
def tallyOf (iterations : Nat) (results : Nat → RunResult) (ids : List Nat) : Tally :=
  ids.foldl (fun t i => t.collect iterations (results i).2) {}

section

variable {iterations concurrency : Nat} {results : Nat → RunResult} {ids ids' : List Nat}
  {ready : Nat → Bool} {passes : List (Nat → Bool)} {d d' : Driver} {t : Tally} {code : Int}
  {n i : Nat}

theorem tallyOf_concat : tallyOf iterations results (ids ++ [i]) =
    (tallyOf iterations results ids).collect iterations (results i).2 := by
  simp [tallyOf]

@[simp] theorem tallyOf_completed : (tallyOf iterations results ids).completed = ids.length := by
  induction ids using List.reverseRecOn with
  | nil => rfl
  | append_singleton ids i ih => simp [tallyOf_concat, Tally.collect, ih]

theorem tallyOf_aggregatedStats : (tallyOf iterations results ids).aggregatedStats =
    mergeAll (ids.map fun i => (results i).2) := by
  induction ids using List.reverseRecOn with
  | nil => rfl
  | append_singleton ids i ih =>
    rw [tallyOf_concat, List.map_append, mergeAll, List.foldl_append]
    exact congrArg (fun s => merge s (results i).2) ih

/-- When progress is reported does not depend on the runs. -/
theorem tallyOf_progress : (tallyOf iterations results ids).progress.map Prod.fst =
    (List.range' 1 ids.length).filter (isMilestone iterations) := by
  induction ids using List.reverseRecOn with
  | nil => rfl
  | append_singleton ids i ih =>
    rw [tallyOf_concat, List.length_append, List.length_singleton, List.range'_1_concat,
      List.filter_append, ← ih, Tally.collect, tallyOf_completed, Nat.add_comm 1]
    by_cases hmile : isMilestone iterations (ids.length + 1) = true <;> simp [hmile]

/-- The last completion is reported. -/
theorem tallyOf_getLast? (hne : ids ≠ []) (hall : ids.length = iterations) :
    (tallyOf iterations results ids).progress.getLast? =
      some (iterations, (tallyOf iterations results ids).aggregatedStats.displayDetailedStats) := by
  obtain ⟨ids, i, rfl⟩ := (List.eq_nil_or_concat' ids).resolve_left hne
  have hlength : ids.length + 1 = iterations := by simpa using hall
  have hmile : isMilestone iterations iterations = true := by simp [isMilestone]
  rw [tallyOf_concat, Tally.collect, tallyOf_completed, hlength, if_pos hmile]
  simp

variable (iterations results) in
/-- The order of collection does not show. -/
theorem tallyOf_display (h : ids.Perm ids') :
    (tallyOf iterations results ids).aggregatedStats.displayDetailedStats =
      (tallyOf iterations results ids').aggregatedStats.displayDetailedStats := by
  rw [tallyOf_aggregatedStats, tallyOf_aggregatedStats]
  exact displayDetailedStats_mergeAll (h.map _)

/-! ## The sequential loop -/

variable (iterations results) in
/-- With the runs before `i` collected, the loop returns the code of the first run that fails. -/
theorem sequentialLoop_spec (n : Nat) (hids : ids = List.range' 1 i) :
    (∃ j, i < j ∧ j ≤ i + n ∧ (results j).1 ≠ 0 ∧
        (sequentialLoop iterations results n (i + 1) (tallyOf iterations results ids)).1 =
          (results j).1) ∨
      ((∀ j, i < j → j ≤ i + n → (results j).1 = 0) ∧
        sequentialLoop iterations results n (i + 1) (tallyOf iterations results ids) =
          (0, tallyOf iterations results (List.range' 1 (i + n)))) := by
  induction n generalizing i ids with
  | zero =>
    subst hids
    refine Or.inr ⟨fun j hlt hle => absurd hle (by omega), rfl⟩
  | succ n ih =>
    rw [sequentialLoop]
    by_cases hcode : (results (i + 1)).1 ≠ 0
    · rw [if_pos hcode]
      exact Or.inl ⟨i + 1, by omega, by omega, hcode, rfl⟩
    · rw [if_neg hcode, ← tallyOf_concat]
      have hnext : ids ++ [i + 1] = List.range' 1 (i + 1) := by
        rw [hids, List.range'_1_concat, Nat.add_comm 1]
      rcases ih hnext with ⟨j, hlt, hle, hfail, heq⟩ | ⟨hall, heq⟩
      · exact Or.inl ⟨j, by omega, by omega, hfail, heq⟩
      · refine Or.inr ⟨fun j hlt hle => ?_, ?_⟩
        · rcases Nat.lt_or_ge (i + 1) j with hj | hj
          · exact hall j hj (by omega)
          · obtain rfl : j = i + 1 := by omega
            exact not_not.mp hcode
        · rw [heq, Nat.add_assoc, Nat.add_comm 1]

variable (iterations results) in
theorem runSequentially_spec :
    (∃ j, 1 ≤ j ∧ j ≤ iterations ∧ (results j).1 ≠ 0 ∧
        (runSequentially iterations results).1 = (results j).1) ∨
      ((∀ j, 1 ≤ j → j ≤ iterations → (results j).1 = 0) ∧
        runSequentially iterations results =
          (0, tallyOf iterations results (List.range' 1 iterations))) := by
  have h := sequentialLoop_spec iterations results iterations (i := 0) rfl
  simp only [Nat.zero_add, Nat.lt_iff_add_one_le] at h
  exact h

/-! ## The loops over the runs in flight -/

/-- The runs `ids` are collected, in this order; the others that were launched are in flight, or
still to be looked at. -/
structure Driver.Holds (iterations : Nat) (results : Nat → RunResult) (ids rest : List Nat)
    (d : Driver) : Prop where
  tally : d.tally = tallyOf iterations results ids
  runs : (ids ++ (d.futures ++ rest)).Perm (List.range' 1 (d.runId - 1))
  runId_pos : 1 ≤ d.runId
  runId_le : d.runId ≤ iterations + 1
  code : ∀ i ∈ ids, (results i).1 = 0

theorem Driver.Holds.launched (h : d.Holds iterations results ids ids') :
    ids.length + (d.futures.length + ids'.length) + 1 = d.runId := by
  have hlength := h.runs.length_eq
  simp only [List.length_append, List.length_range'] at hlength
  have hpos := h.runId_pos
  omega

theorem Driver.Holds.mem (h : d.Holds iterations results ids ids') (hi : i ∈ ids') :
    1 ≤ i ∧ i ≤ iterations := by
  have hmem := h.runs.mem_iff.mp
    (List.mem_append_right ids (List.mem_append_right d.futures hi))
  rw [List.mem_range'_1] at hmem
  have hpos := h.runId_pos
  have hle := h.runId_le
  omega

theorem Driver.Holds.initial : Driver.Holds iterations results [] [] {} where
  tally := rfl
  runs := List.Perm.refl []
  runId_pos := le_rfl
  runId_le := Nat.le_add_left ..
  code := by simp

variable (concurrency) in
/-- The launching loop fills the places, as long as there are runs. -/
theorem launchRuns_spec (h : d.Holds iterations results ids []) :
    (launchRuns iterations concurrency d).Holds iterations results ids [] ∧
      (concurrency ≤ (launchRuns iterations concurrency d).futures.length ∨
        (launchRuns iterations concurrency d).runId = iterations + 1) := by
  fun_induction launchRuns iterations concurrency d with
  | case1 d hmore ih =>
    apply ih
    have hrunId : d.runId + 1 - 1 = d.runId - 1 + 1 := by
      have hpos := h.runId_pos
      omega
    have hlast : 1 + (d.runId - 1) = d.runId := Nat.add_sub_cancel' h.runId_pos
    refine ⟨h.tally, ?_, Nat.le_add_left .., Nat.add_le_add_right hmore.2 1, h.code⟩
    have hruns := h.runs.append_right [d.runId]
    simp only [List.append_nil, List.append_assoc] at hruns ⊢
    rw [hrunId, List.range'_1_concat, hlast]
    exact hruns
  | case2 d hmore =>
    refine ⟨h, ?_⟩
    have hle := h.runId_le
    omega

variable (ready) in
/-- The polling loop collects the runs that it finds ready, or returns the code of one of them. -/
theorem pollFutures_spec {rest : List Nat} (h : d.Holds iterations results ids rest) :
    (∃ i ∈ rest, (results i).1 ≠ 0 ∧ ∃ t,
        pollFutures iterations results ready rest d = .error ((results i).1, t)) ∨
      ∃ d', pollFutures iterations results ready rest d = .ok d' ∧
        d'.Holds iterations results (ids ++ rest.filter ready) [] := by
  induction rest generalizing d ids with
  | nil =>
    rw [List.filter_nil, List.append_nil]
    exact Or.inr ⟨d, rfl, h⟩
  | cons id rest ih =>
    rw [pollFutures]
    by_cases hready : ready id = true
    · rw [if_pos hready]
      by_cases hcode : (results id).1 ≠ 0
      · rw [if_pos hcode]
        exact Or.inl ⟨id, List.mem_cons_self, hcode, d.tally, rfl⟩
      · have hnext : Driver.Holds iterations results (ids ++ [id]) rest
            { d with tally := d.tally.collect iterations (results id).2 } := by
          refine ⟨?_, ?_, h.runId_pos, h.runId_le, ?_⟩
          · rw [tallyOf_concat, h.tally]
          · refine List.Perm.trans ?_ h.runs
            rw [List.append_assoc, List.singleton_append]
            exact (List.perm_middle.symm).append_left ids
          · intro i hi
            rcases List.mem_append.mp hi with hi | hi
            · exact h.code i hi
            · rw [List.mem_singleton.mp hi]
              exact not_not.mp hcode
        rw [if_neg hcode, List.filter_cons_of_pos hready, List.append_cons]
        rcases ih hnext with ⟨i, hi, hfail⟩ | hok
        · exact Or.inl ⟨i, List.mem_cons_of_mem id hi, hfail⟩
        · exact Or.inr hok
    · have hnext : Driver.Holds iterations results ids rest
          { d with futures := d.futures ++ [id] } := by
        refine ⟨h.tally, ?_, h.runId_pos, h.runId_le, h.code⟩
        simpa using h.runs
      rw [if_neg hready, List.filter_cons_of_neg hready]
      rcases ih hnext with ⟨i, hi, hfail⟩ | hok
      · exact Or.inl ⟨i, List.mem_cons_of_mem id hi, hfail⟩
      · exact Or.inr hok

variable (concurrency ready) in
/-- A pass over the futures, after the places were filled. -/
theorem pass_spec (h : d.Holds iterations results ids []) :
    (∃ i, 1 ≤ i ∧ i ≤ iterations ∧ (results i).1 ≠ 0 ∧ ∃ t,
        pollFutures iterations results ready (launchRuns iterations concurrency d).futures
          { launchRuns iterations concurrency d with futures := [] } =
            .error ((results i).1, t)) ∨
      ∃ d', pollFutures iterations results ready (launchRuns iterations concurrency d).futures
          { launchRuns iterations concurrency d with futures := [] } = .ok d' ∧
        d'.Holds iterations results
          (ids ++ (launchRuns iterations concurrency d).futures.filter ready) [] := by
  obtain ⟨hlaunch, -⟩ := launchRuns_spec concurrency h
  generalize launchRuns iterations concurrency d = d₁ at hlaunch
  have hstart : Driver.Holds iterations results ids d₁.futures { d₁ with futures := [] } :=
    ⟨hlaunch.tally, by simpa using hlaunch.runs, hlaunch.runId_pos, hlaunch.runId_le, hlaunch.code⟩
  rcases pollFutures_spec ready hstart with ⟨i, hi, hfail⟩ | hok
  · obtain ⟨hpos, hle⟩ := hstart.mem hi
    exact Or.inl ⟨i, hpos, hle, hfail⟩
  · exact Or.inr hok

/-- The loop has collected all the runs when it is over. -/
theorem Driver.Holds.all (h : d.Holds iterations results ids [])
    (hover : ¬ d.tally.completed < iterations) : ids.Perm (List.range' 1 iterations) := by
  have hlaunched := h.launched
  have hle := h.runId_le
  rw [h.tally, tallyOf_completed] at hover
  rw [List.length_nil] at hlaunched
  have hnone : d.futures = [] := List.length_eq_zero_iff.mp (by omega)
  have hlast : d.runId - 1 = iterations := by omega
  simpa only [hnone, hlast, List.append_nil] using h.runs

theorem concurrentLoop_spec {shown : List StatsLine} (h : d.Holds iterations results ids [])
    (hsome : concurrentLoop iterations concurrency results passes d = some (code, t, shown)) :
    (∃ i, 1 ≤ i ∧ i ≤ iterations ∧ (results i).1 ≠ 0 ∧ code = (results i).1) ∨
      ∃ ids', ids'.Perm (List.range' 1 iterations) ∧ (∀ i ∈ ids', (results i).1 = 0) ∧ code = 0 ∧
        t = tallyOf iterations results ids' ∧
        shown = t.aggregatedStats.displayDetailedStats := by
  induction passes generalizing d ids with
  | nil =>
    rw [concurrentLoop] at hsome
    by_cases hmore : d.tally.completed < iterations
    · rw [if_pos hmore] at hsome
      cases hsome
    · rw [if_neg hmore] at hsome
      cases hsome
      exact Or.inr ⟨ids, h.all hmore, h.code, rfl, h.tally, rfl⟩
  | cons ready passes ih =>
    rw [concurrentLoop] at hsome
    by_cases hmore : d.tally.completed < iterations
    · rw [if_pos hmore] at hsome
      rcases pass_spec concurrency ready h with
        ⟨i, hpos, hle, hfail, t', herror⟩ | ⟨d', hok, hd'⟩
      · simp only [herror] at hsome
        cases hsome
        exact Or.inl ⟨i, hpos, hle, hfail, rfl⟩
      · simp only [hok] at hsome
        exact ih hd' hsome
    · rw [if_neg hmore] at hsome
      cases hsome
      exact Or.inr ⟨ids, h.all hmore, h.code, rfl, h.tally, rfl⟩

/-- A pass that finds everything ready collects what is in flight. -/
theorem concurrentLoop_returns (h : d.Holds iterations results ids [])
    (henough : iterations ≤ ids.length +
      concurrency * passes.countP (allReady iterations)) :
    ∃ out, concurrentLoop iterations concurrency results passes d = some out := by
  induction passes generalizing d ids with
  | nil =>
    rw [concurrentLoop, if_neg]
    · exact ⟨_, rfl⟩
    · rw [h.tally, tallyOf_completed, Nat.not_lt]
      simpa using henough
  | cons ready passes ih =>
    rw [concurrentLoop]
    by_cases hmore : d.tally.completed < iterations
    · rw [if_pos hmore]
      obtain ⟨hlaunch, hfull⟩ := launchRuns_spec concurrency h
      rcases pass_spec concurrency ready h with
        ⟨i, -, -, -, t', herror⟩ | ⟨d', hok, hd'⟩
      · simp only [herror]
        exact ⟨_, rfl⟩
      · simp only [hok]
        apply ih hd'
        have hlaunched := hlaunch.launched
        generalize launchRuns iterations concurrency d = d₁ at *
        rw [List.length_append]
        by_cases hall : allReady iterations ready = true
        · have htaken : d₁.futures.filter ready = d₁.futures := by
            rw [List.filter_eq_self]
            intro i hi
            have hstart : Driver.Holds iterations results ids d₁.futures
                { d₁ with futures := [] } :=
              ⟨hlaunch.tally, by simpa using hlaunch.runs, hlaunch.runId_pos, hlaunch.runId_le,
                hlaunch.code⟩
            obtain ⟨hpos, hle⟩ := hstart.mem hi
            exact List.all_eq_true.mp hall i (List.mem_range'_1.mpr ⟨hpos, by omega⟩)
          rw [List.countP_cons_of_pos hall, Nat.mul_add, Nat.mul_one] at henough
          rw [htaken]
          rw [List.length_nil] at hlaunched
          omega
        · rw [List.countP_cons_of_neg hall] at henough
          omega
    · rw [if_neg hmore]
      exact ⟨_, rfl⟩

end

/-- **The order of completion does not show.** Whatever the passes find ready, `main` returns 0
with runs in flight exactly when the sequential loop does, and the code of a failed run otherwise.
When it returns 0, progress was reported at the same completions, and the statistics of the final
display are those of the last report of either. -/
theorem concurrent_agrees {iterations concurrency : Nat} {results : Nat → RunResult}
    {passes : List (Nat → Bool)} {code : Int} {t : Tally} {shown : List StatsLine}
    (h : runConcurrently iterations concurrency results passes = some (code, t, shown)) :
    (code = 0 ↔ (runSequentially iterations results).1 = 0) ∧
      (code ≠ 0 → ∃ i, 1 ≤ i ∧ i ≤ iterations ∧ (results i).1 = code) ∧
      (code = 0 →
        t.progress.map Prod.fst = (runSequentially iterations results).2.progress.map Prod.fst ∧
        shown = (runSequentially iterations results).2.aggregatedStats.displayDetailedStats ∧
        (0 < iterations → t.progress.getLast? = some (iterations, shown) ∧
          (runSequentially iterations results).2.progress.getLast? =
            some (iterations, shown))) := by
  rcases concurrentLoop_spec Driver.Holds.initial h with
    ⟨i, hpos, hle, hfail, rfl⟩ | ⟨ids, hperm, hzero, rfl, rfl, rfl⟩
  · rcases runSequentially_spec iterations results with
      ⟨j, -, -, hj, hseq⟩ | ⟨hall, -⟩
    · rw [hseq]
      exact ⟨iff_of_false hfail hj, fun _ => ⟨i, hpos, hle, rfl⟩, fun h0 => absurd h0 hfail⟩
    · exact absurd (hall i hpos hle) hfail
  · have hmem : ∀ j, 1 ≤ j → j ≤ iterations → (results j).1 = 0 := fun j hpos hle =>
      hzero j (hperm.mem_iff.mpr (List.mem_range'_1.mpr ⟨hpos, by omega⟩))
    rcases runSequentially_spec iterations results with
      ⟨j, hpos, hle, hj, -⟩ | ⟨-, hseq⟩
    · exact absurd (hmem j hpos hle) hj
    · have hlength : ids.length = iterations := by simpa using hperm.length_eq
      have hdisplay := tallyOf_display iterations results hperm
      rw [hseq]
      refine ⟨iff_of_true rfl rfl, fun hne => absurd rfl hne,
        fun _ => ⟨?_, hdisplay, fun hpos => ?_⟩⟩
      · rw [tallyOf_progress, tallyOf_progress, hlength, List.length_range']
      · have hne : ids ≠ [] := List.length_pos_iff.mp (hlength ▸ hpos)
        have hne' : List.range' 1 iterations ≠ [] := by
          rw [← List.length_pos_iff, List.length_range']
          exact hpos
        rw [tallyOf_getLast? hne hlength, tallyOf_getLast? hne' List.length_range', hdisplay]
        exact ⟨rfl, rfl⟩

/-- Run `i` succeeds, with a lookup of `10 * i` µs. -/
def numberedRuns (i : Nat) : RunResult := (0, { lookupTimes := [10 * i] })

/-- With two places, run 2 is found ready first, then run 3 in its place, and run 1 last. -/
def overtakingPasses : List (Nat → Bool) := [(· == 2), (· == 3), (· == 1)]

theorem concurrent_agrees_overtaking :
    ∃ t shown, runConcurrently 3 2 numberedRuns overtakingPasses = some (0, t, shown) ∧
      t.aggregatedStats.lookupTimes = [20, 30, 10] ∧
      (runSequentially 3 numberedRuns).2.aggregatedStats.lookupTimes = [10, 20, 30] ∧
      shown = (runSequentially 3 numberedRuns).2.aggregatedStats.displayDetailedStats := by
  have h : runConcurrently 3 2 numberedRuns overtakingPasses =
      some (0, tallyOf 3 numberedRuns [2, 3, 1],
        (tallyOf 3 numberedRuns [2, 3, 1]).aggregatedStats.displayDetailedStats) := by
    simp [runConcurrently, overtakingPasses, concurrentLoop, launchRuns, pollFutures, tallyOf,
      Tally.collect, isMilestone, numberedRuns]
  exact ⟨_, _, h, rfl, rfl, ((concurrent_agrees h).2.2 rfl).2.1⟩

/-- **`main` returns.** Each pass that finds every run ready collects `concurrency` runs or the
last ones, whatever the other passes find. -/
theorem concurrent_returns {iterations concurrency : Nat} {results : Nat → RunResult}
    {passes : List (Nat → Bool)}
    (henough : iterations ≤
      concurrency * passes.countP (allReady iterations)) :
    ∃ out, runConcurrently iterations concurrency results passes = some out := by
  apply concurrentLoop_returns Driver.Holds.initial
  rw [List.length_nil, Nat.zero_add]
  exact henough

/-- Between two passes that find everything ready, one finds nothing. -/
theorem concurrent_returns_pause :
    ∃ out, runConcurrently 3 2 numberedRuns [fun _ => true, fun _ => false, fun _ => true] =
      some out :=
  concurrent_returns (by decide)

end KVStore
