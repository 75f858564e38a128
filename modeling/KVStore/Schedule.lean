import KVStore.Rpc
import KVStore.System

/-!
# Executing schedules

A schedule says which call issues its next operation, and which storage error it meets, if any.
`execute` runs the system along a schedule; what it does is a run of the system (`execute_run`),
and at rest once the calls of the schedule are (`execute_quiescent`). `runAlone` is one call that
runs with no other call in between (`runAlone_run`).
-/

namespace KVStore

open Transition

universe u

section

variable {ι : Type u} [DecidableEq ι] [Base64Url] (calls : Calls ι)

/-- Call `i` issues its next operation, which meets `fault` if there is one. -/
def System.act (s : System ι) (i : ι) (fault : Option HttpStatusCode) :
    Option (Event ι × System ι) :=
  ((s.point i).request (calls.call i)).map fun op =>
    match fault with
    | none =>
      let (response, store) := s.store.perform op
      ({ caller := i, op, response }, s.resume calls i response store)
    | some status =>
      ({ caller := i, op, response := .storageException status },
        s.resume calls i (.storageException status) s.store)

/-- The trace and the last state of a schedule; a call that is finished is skipped. -/
def execute : List (ι × Option HttpStatusCode) → System ι →
    List (System ι × Event ι) × System ι :=
  replay fun s p => s.act calls p.1 p.2

variable {calls} {F : Faults}

theorem System.act_step {s s' : System ι} {i : ι} {fault : Option HttpStatusCode} {e : Event ι}
    (hF : ∀ op, ∀ status ∈ fault, F op status) (h : s.act calls i fault = some (e, s')) :
    Step F calls s e s' := by
  obtain ⟨op, hreq, he⟩ := Option.map_eq_some_iff.mp h
  cases fault with
  | none =>
    cases he
    exact .served hreq
  | some status =>
    cases he
    exact .fault hreq (hF op status rfl)

/-- A schedule whose errors are admitted is executed by a run. -/
theorem execute_run {schedule : List (ι × Option HttpStatusCode)} {s : System ι}
    (hF : ∀ p ∈ schedule, ∀ op, ∀ status ∈ p.2, F op status) :
    Run (Step F calls) s (execute calls schedule s).1 (execute calls schedule s).2 :=
  replay_run fun p hp _ _ _ he => System.act_step (hF p hp) he

theorem System.act_point_of_ne {s s' : System ι} {i k : ι} {fault : Option HttpStatusCode}
    {e : Event ι} (h : s.act calls i fault = some (e, s')) (hk : k ≠ i) :
    s'.point k = s.point k := by
  obtain ⟨op, -, he⟩ := Option.map_eq_some_iff.mp h
  cases fault <;> cases he <;> exact Function.update_of_ne hk ..

/-- A call that the schedule does not name stays where it is. -/
theorem execute_point_of_ne {k : ι} {schedule : List (ι × Option HttpStatusCode)} {s : System ι}
    (h : ∀ p ∈ schedule, k ≠ p.1) : (execute calls schedule s).2.point k = s.point k := by
  induction schedule generalizing s with
  | nil => rfl
  | cons p schedule ih =>
    have htail := fun q hq => h q (List.mem_cons_of_mem _ hq)
    rw [execute, replay]
    split
    · exact ih htail
    · next e s' he => exact (ih htail).trans (System.act_point_of_ne he (h p List.mem_cons_self))

/-- A schedule whose calls are at rest after it leaves no call in between. -/
theorem execute_quiescent {schedule : List (ι × Option HttpStatusCode)} {store : Container}
    (h : ∀ p ∈ schedule,
      ((execute calls schedule (System.initial store)).2.point p.1).atRest = true) :
    Quiescent (execute calls schedule (System.initial store)).2 := by
  refine quiescent_of_atRest fun k => ?_
  by_cases hk : ∃ p ∈ schedule, p.1 = k
  · obtain ⟨p, hp, rfl⟩ := hk
    exact h p hp
  · rw [execute_point_of_ne fun p hp he => hk ⟨p, hp, he.symm⟩]
    rfl

/-- A schedule in which no operation meets an error. -/
def served (schedule : List ι) : List (ι × Option HttpStatusCode) :=
  schedule.map fun i => (i, none)

theorem served_run (schedule : List ι) (s : System ι) :
    Run (Step F calls) s (execute calls (served schedule) s).1
      (execute calls (served schedule) s).2 := by
  refine execute_run fun p hp op status hstatus => ?_
  obtain ⟨i, -, rfl⟩ := List.mem_map.mp hp
  cases hstatus

/-- Calls whose GUIDs show their numbers. -/
def numberedCalls (protoChunk : UInt64 → ProtoChunk) : Calls UInt64 where
  call i := { chunk := (protoChunk i).toPromptChunk, part1 := 0, part2 := i }
  guid_injective _ _ h := (generateGuid_inj h).2

/-! ## One call on its own -/

/-- A call that nothing interrupts, for at most `fuel` operations. -/
def runAlone (call : Call) : Nat → WritePoint → Container → WritePoint × Container
  | 0, point, c => (point, c)
  | fuel + 1, point, c =>
    match point.request call with
    | none => (point, c)
    | some op => runAlone call fuel (point.resume call (c.perform op).1) (c.perform op).2

/-- A finished call uses no more fuel. -/
theorem runAlone_add {call : Call} {o : WriteOutcome} {c' : Container} (more : Nat) :
    ∀ {fuel : Nat} {point : WritePoint} {c : Container},
      runAlone call fuel point c = (.finished o, c') →
        runAlone call (fuel + more) point c = (.finished o, c') := by
  intro fuel
  induction fuel with
  | zero =>
    intro point c h
    cases h
    cases more <;> rfl
  | succ fuel ih =>
    intro point c h
    rw [Nat.succ_add]
    rw [runAlone] at h ⊢
    split at h
    · exact h
    · exact ih h

theorem runAlone_run {i : ι} : ∀ {fuel : Nat} {s : System ι} {point : WritePoint} {c : Container},
    runAlone (calls.call i) fuel (s.point i) s.store = (point, c) →
      ∃ tr, Run (Step noFaults calls) s tr
        { store := c, point := Function.update s.point i point } := by
  intro fuel
  induction fuel with
  | zero =>
    intro s point c h
    cases h
    rw [Function.update_eq_self]
    exact ⟨[], .nil⟩
  | succ fuel ih =>
    intro s point c h
    rw [runAlone] at h
    split at h
    · cases h
      rw [Function.update_eq_self]
      exact ⟨[], .nil⟩
    · next op hop =>
      have hs : Step noFaults calls s _ _ := .served hop
      have hpoint : (s.resume calls i (s.store.perform op).1 (s.store.perform op).2).point i =
          (s.point i).resume (calls.call i) (s.store.perform op).1 := Function.update_self ..
      obtain ⟨tr, hrun⟩ := ih (hpoint ▸ h)
      rw [System.resume, Function.update_idem] at hrun
      exact ⟨_, Run.cons hs hrun⟩

end

end KVStore
