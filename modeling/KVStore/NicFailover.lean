import KVStore.NicSelection

/-!
# Failover between the network interfaces

A call that cannot bind to the interface it has loaded goes on to the next one, until one binds or
all have failed. `nic_failover`: whatever other calls do meanwhile, at every moment the failed
interfaces of a call are the turns from the index that it loaded, none of them twice, and it takes
the default socket only when every interface has failed for it.
-/

namespace KVStore

open Transition Rotation

universe u

variable {ι : Type u} {s s' : NicSelection ι} {e : NicEvent ι} {i j : ι}
  {tr : List (NicSelection ι × NicEvent ι)} {numNics start startIndex attempt x : Nat}
  {point : CallbackPoint}

/-- The interface that an attempt is made on. -/
def CallbackPoint.tryIndex (numNics : Nat) : CallbackPoint → Option Nat
  | .trying startIndex attempt => some ((startIndex + attempt) % numNics)
  | _ => none

/-- A call has loaded the index. -/
def Loaded (tr : List (NicSelection ι × NicEvent ι)) (i : ι) (startIndex : Nat) : Prop :=
  ∃ p ∈ tr, p.2 = ⟨i, .loaded⟩ ∧ p.1.g_currentIndex = startIndex

theorem Loaded.snoc (h : Loaded tr i startIndex) : Loaded (tr ++ [(s, e)]) i startIndex := by
  obtain ⟨p, hp, hload⟩ := h
  exact ⟨p, List.mem_append_left _ hp, hload⟩

section

variable [DecidableEq ι]

/-- The interfaces on which attempts of a call have failed, in order. -/
def failures (numNics : Nat) (tr : List (NicSelection ι × NicEvent ι)) (i : ι) : List Nat :=
  tr.filterMap fun p =>
    if p.2 = ⟨i, .failed⟩ then (p.1.point i).tryIndex numNics else none

/-- The interfaces that have failed for a call are the first turns from the index it has loaded. -/
def Turned (numNics : Nat) (tr : List (NicSelection ι × NicEvent ι)) (i : ι)
    (startIndex n : Nat) : Prop :=
  Loaded tr i startIndex ∧ failures numNics tr i = turns numNics startIndex n

variable (g_nicIPs : List Text) (purpose : ι → SocketPurpose)

/-- What the trace says of a call at a point. -/
def Tries (tr : List (NicSelection ι × NicEvent ι)) (i : ι) : CallbackPoint → Prop
  | .called => failures g_nicIPs.length tr i = []
  | .exchanging startIndex _ _ =>
    purpose i = .ipcxn ∧ Turned g_nicIPs.length tr i startIndex 0
  | .trying startIndex attempt =>
    purpose i = .ipcxn ∧ attempt ≤ g_nicIPs.length ∧
      Turned g_nicIPs.length tr i startIndex attempt
  | .returned none =>
    (purpose i ≠ .ipcxn ∨ g_nicIPs = []) ∧ failures g_nicIPs.length tr i = [] ∨
      purpose i = .ipcxn ∧ ∃ startIndex, Turned g_nicIPs.length tr i startIndex g_nicIPs.length
  | .returned (some x) =>
    purpose i = .ipcxn ∧ ∃ startIndex n, n < g_nicIPs.length ∧
      x = turn g_nicIPs.length startIndex n ∧ Turned g_nicIPs.length tr i startIndex n

variable {g_nicIPs purpose}

theorem failures_snoc_ne (he : e ≠ ⟨i, .failed⟩) :
    failures numNics (tr ++ [(s, e)]) i = failures numNics tr i := by
  simp [failures, he]

theorem failures_snoc_failed (hi : s.point i = .trying startIndex attempt) :
    failures numNics (tr ++ [(s, ⟨i, .failed⟩)]) i =
      failures numNics tr i ++ [turn numNics startIndex attempt] := by
  simp [failures, hi, CallbackPoint.tryIndex, turn]

theorem Turned.snoc {n : Nat} (h : Turned numNics tr i startIndex n) (he : e ≠ ⟨i, .failed⟩) :
    Turned numNics (tr ++ [(s, e)]) i startIndex n :=
  ⟨h.1.snoc, (failures_snoc_ne he).trans h.2⟩

/-- Only its own failures change what is said of a call at a point. -/
theorem Tries.snoc (h : Tries g_nicIPs purpose tr i point) (he : e ≠ ⟨i, .failed⟩) :
    Tries g_nicIPs purpose (tr ++ [(s, e)]) i point := by
  cases point with
  | called => exact (failures_snoc_ne he).trans h
  | exchanging => exact ⟨h.1, h.2.snoc he⟩
  | trying => exact ⟨h.1, h.2.1, h.2.2.snoc he⟩
  | returned r =>
    cases r with
    | none =>
      rcases h with ⟨hdefault, hnone⟩ | ⟨hpurpose, startIndex, hturned⟩
      · exact Or.inl ⟨hdefault, (failures_snoc_ne he).trans hnone⟩
      · exact Or.inr ⟨hpurpose, startIndex, hturned.snoc he⟩
    | some x =>
      obtain ⟨hpurpose, startIndex, n, hn, hx, hturned⟩ := h
      exact ⟨hpurpose, startIndex, n, hn, hx, hturned.snoc he⟩

/-- A call is where its last step has brought it. -/
theorem tries_goto {action : NicAction} (h : ∀ j, Tries g_nicIPs purpose tr j (s.point j))
    (hi : Tries g_nicIPs purpose (tr ++ [(s, ⟨i, action⟩)]) i point) (j : ι) :
    Tries g_nicIPs purpose (tr ++ [(s, ⟨i, action⟩)]) j ((s.goto i point).point j) := by
  by_cases hji : j = i
  · subst hji
    simpa [NicSelection.goto] using hi
  · have hother : (⟨i, action⟩ : NicEvent ι) ≠ ⟨j, .failed⟩ := by
      rintro he
      cases he
      exact hji rfl
    simpa [NicSelection.goto, hji] using (h j).snoc hother

/-- What one step of any call preserves. -/
theorem tries_step (h : ∀ j, Tries g_nicIPs purpose tr j (s.point j))
    (hs : NicStep g_nicIPs purpose s e s') (j : ι) :
    Tries g_nicIPs purpose (tr ++ [(s, e)]) j (s'.point j) := by
  cases hs with
  | @default i hi hdefault =>
    have hcall := h i
    rw [hi] at hcall
    refine tries_goto h ?_ j
    exact Or.inl ⟨hdefault, (failures_snoc_ne (by simp)).trans hcall⟩
  | @load i hi hpurpose hnics =>
    have hcall := h i
    rw [hi] at hcall
    refine tries_goto h ?_ j
    have hload : Loaded (tr ++ [(s, ⟨i, .loaded⟩)]) i s.g_currentIndex :=
      ⟨(s, ⟨i, .loaded⟩), by simp, rfl, rfl⟩
    exact ⟨hpurpose, hload, (failures_snoc_ne (by simp)).trans hcall⟩
  | @refresh i startIndex current next hi =>
    have hcall := h i
    rw [hi] at hcall
    refine tries_goto h ?_ j
    exact ⟨hcall.1, hcall.2.snoc (by simp)⟩
  | @exchange i startIndex next hi =>
    have hcall := h i
    rw [hi] at hcall
    have hgoto : Tries g_nicIPs purpose (tr ++ [(s, ⟨i, .exchanged⟩)]) i (.trying startIndex 0) :=
      ⟨hcall.1, Nat.zero_le _, hcall.2.snoc (by simp)⟩
    exact tries_goto h hgoto j
  | @bind i startIndex attempt hi hlt =>
    have hcall := h i
    rw [hi] at hcall
    refine tries_goto h ?_ j
    exact ⟨hcall.1, startIndex, attempt, hlt, rfl, hcall.2.2.snoc (by simp)⟩
  | @fail i startIndex attempt hi hlt =>
    have hcall := h i
    rw [hi] at hcall
    refine tries_goto h ?_ j
    refine ⟨hcall.1, hlt, hcall.2.2.1.snoc, ?_⟩
    rw [failures_snoc_failed hi, turns_succ, hcall.2.2.2]
  | @fallBack i startIndex attempt hi hge =>
    have hcall := h i
    rw [hi] at hcall
    obtain ⟨hpurpose, hle, hturned⟩ := hcall
    obtain rfl := Nat.le_antisymm hle hge
    refine tries_goto h ?_ j
    exact Or.inr ⟨hpurpose, startIndex, hturned.snoc (by simp)⟩

theorem NicRuns.tries (h : NicRuns g_nicIPs purpose start tr s) (j : ι) :
    Tries g_nicIPs purpose tr j (s.point j) := by
  induction h generalizing j with
  | nil => rfl
  | snoc h hs ih => exact tries_step ih hs j

/-- Whatever point a call is at, what has failed for it are turns from the index it has loaded. -/
theorem Tries.turned (h : Tries g_nicIPs purpose tr i point) :
    failures g_nicIPs.length tr i = [] ∨
      ∃ startIndex n, n ≤ g_nicIPs.length ∧ Turned g_nicIPs.length tr i startIndex n := by
  cases point with
  | called => exact Or.inl h
  | exchanging startIndex => exact Or.inr ⟨startIndex, 0, Nat.zero_le _, h.2⟩
  | trying startIndex attempt => exact Or.inr ⟨startIndex, attempt, h.2.1, h.2.2⟩
  | returned r =>
    cases r with
    | none =>
      rcases h with ⟨-, hnone⟩ | ⟨-, startIndex, hturned⟩
      · exact Or.inl hnone
      · exact Or.inr ⟨startIndex, _, le_rfl, hturned⟩
    | some x =>
      obtain ⟨-, startIndex, n, hn, -, hturned⟩ := h
      exact Or.inr ⟨startIndex, n, hn.le, hturned⟩

/-- **Failover.** At every moment the interfaces on which a call has failed are the turns from the
index that it has loaded, none of them twice. A bound socket is bound to the interface whose turn
comes next, and with the default socket every interface has failed, each once. -/
theorem nic_failover (h : NicRuns g_nicIPs purpose start tr s) (i : ι) :
    (failures g_nicIPs.length tr i).Nodup ∧
      (failures g_nicIPs.length tr i ≠ [] → ∃ startIndex, Loaded tr i startIndex ∧
        failures g_nicIPs.length tr i =
          turns g_nicIPs.length startIndex (failures g_nicIPs.length tr i).length) ∧
      (∀ x, s.point i = .returned (some x) → purpose i = .ipcxn ∧ ∃ startIndex n,
        Loaded tr i startIndex ∧ n < g_nicIPs.length ∧
        failures g_nicIPs.length tr i = turns g_nicIPs.length startIndex n ∧
        x = turn g_nicIPs.length startIndex n) ∧
      (s.point i = .returned none → purpose i = .ipcxn →
        (failures g_nicIPs.length tr i).Perm (List.range g_nicIPs.length)) := by
  have hcall := h.tries i
  refine ⟨?_, fun hne => ?_, fun x hx => ?_, fun hnone hpurpose => ?_⟩
  · rcases hcall.turned with hnil | ⟨startIndex, n, hn, -, hturns⟩
    · rw [hnil]
      exact List.nodup_nil
    · rw [hturns]
      exact nodup_turns hn
  · obtain ⟨startIndex, n, -, hload, hturns⟩ := hcall.turned.resolve_left hne
    refine ⟨startIndex, hload, ?_⟩
    rw [hturns, length_turns]
  · rw [hx] at hcall
    obtain ⟨hpurpose, startIndex, n, hn, rfl, hload, hturns⟩ := hcall
    exact ⟨hpurpose, startIndex, n, hload, hn, hturns, rfl⟩
  · rw [hnone] at hcall
    rcases hcall with ⟨hne | hnics, hfailures⟩ | ⟨-, startIndex, -, hall⟩
    · exact absurd hpurpose hne
    · rw [hfailures, hnics]
      exact List.Perm.refl []
    · rw [hall]
      exact turns_perm_range

end

/-- The first call fails on interface 0 and binds to the other one; the second call loads before
that, and fails on both. -/
def failingSchedule : List (Nat × Bool) :=
  [(0, true), (0, true), (0, false), (1, true), (1, true), (0, true), (1, false), (1, false),
    (1, true)]

/-- The second call has failed on one interface and is still trying; then both calls have ended. -/
theorem nic_failover_failing :
    (∃ startIndex, Loaded (callbackRun (failingSchedule.take 7)).1 1 startIndex ∧
      failures twoNics.length (callbackRun (failingSchedule.take 7)).1 1 = turns 2 startIndex 1) ∧
      (callbackRun failingSchedule).2.point 0 = .returned (some 1) ∧
      failures twoNics.length (callbackRun failingSchedule).1 0 = [0] ∧
      (callbackRun failingSchedule).2.point 1 = .returned none ∧
      failures twoNics.length (callbackRun failingSchedule).1 1 = [1, 0] ∧
      (failures twoNics.length (callbackRun failingSchedule).1 1).Perm (List.range 2) :=
  ⟨(nic_failover (callbackRun_run (failingSchedule.take 7)) 1).2.1 (by decide), by decide,
    by decide, by decide, by decide,
    (nic_failover (callbackRun_run failingSchedule) 1).2.2.2 (by decide) rfl⟩

end KVStore
