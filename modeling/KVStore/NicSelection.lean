import KVStore.Types
import KVStore.Lib.Run
import KVStore.Lib.Rotation

/-!
# Selection of a network interface (`MultiNicSocketCallback`)

A call loads `g_currentIndex`, and moves it on with a loop of compare-exchange attempts; a failed
attempt gives the loop a fresh value. The socket is then bound to the interface that was loaded
first, whatever the exchange succeeded with. `roundRobin_iff`: calls take the interfaces in turn
exactly when every exchange finds the index that its call has loaded.
-/

namespace KVStore

open Transition Rotation

universe u

/-! ## The callback -/

/-- `curlsocktype`. -/
inductive SocketPurpose
  | ipcxn
  | accept
deriving DecidableEq

/-- The index behind `current`, and the first one behind the last. -/
def nextIndex (numNics current : Nat) : Nat := if current + 1 < numNics then current + 1 else 0

/-- Where a call stands: at its start, in the exchange loop, in the loop over the interfaces, or at
its end, with the interface that its socket is bound to, if any. -/
inductive CallbackPoint
  | called
  | exchanging (startIndex current next : Nat)
  | trying (startIndex attempt : Nat)
  | returned (tryIndex : Option Nat)
deriving DecidableEq

/-- The shared index, and the calls. -/
structure NicSelection (ι : Type u) where
  g_currentIndex : Nat
  point : ι → CallbackPoint

/-- What a step of a call does. `failed` is an attempt whose socket was not created or not bound. -/
inductive NicAction
  | usedDefault
  | loaded
  | refreshed
  | exchanged
  | failed
  | bound (tryIndex : Nat)
deriving DecidableEq

structure NicEvent (ι : Type u) where
  caller : ι
  action : NicAction
deriving DecidableEq

variable {ι : Type u}

def NicSelection.initial (start : Nat) : NicSelection ι where
  g_currentIndex := start
  point _ := .called

section

variable [DecidableEq ι]

def NicSelection.goto (s : NicSelection ι) (i : ι) (point : CallbackPoint) : NicSelection ι :=
  { s with point := Function.update s.point i point }

variable (g_nicIPs : List Text) (purpose : ι → SocketPurpose)

/-- One atomic step of a call: a load, an attempt to exchange (which may fail for no reason), or an
attempt to bind. -/
inductive NicStep : NicSelection ι → NicEvent ι → NicSelection ι → Prop
  | default {s : NicSelection ι} {i : ι} (hi : s.point i = .called)
      (h : purpose i ≠ .ipcxn ∨ g_nicIPs = []) :
      NicStep s ⟨i, .usedDefault⟩ (s.goto i (.returned none))
  | load {s : NicSelection ι} {i : ι} (hi : s.point i = .called) (hpurpose : purpose i = .ipcxn)
      (hnics : g_nicIPs ≠ []) :
      NicStep s ⟨i, .loaded⟩ (s.goto i (.exchanging s.g_currentIndex s.g_currentIndex
        (nextIndex g_nicIPs.length s.g_currentIndex)))
  | refresh {s : NicSelection ι} {i : ι} {startIndex current next : Nat}
      (hi : s.point i = .exchanging startIndex current next) :
      NicStep s ⟨i, .refreshed⟩ (s.goto i (.exchanging startIndex s.g_currentIndex
        (nextIndex g_nicIPs.length s.g_currentIndex)))
  | exchange {s : NicSelection ι} {i : ι} {startIndex next : Nat}
      (hi : s.point i = .exchanging startIndex s.g_currentIndex next) :
      NicStep s ⟨i, .exchanged⟩ { s.goto i (.trying startIndex 0) with g_currentIndex := next }
  | bind {s : NicSelection ι} {i : ι} {startIndex attempt : Nat}
      (hi : s.point i = .trying startIndex attempt) (h : attempt < g_nicIPs.length) :
      NicStep s ⟨i, .bound ((startIndex + attempt) % g_nicIPs.length)⟩
        (s.goto i (.returned (some ((startIndex + attempt) % g_nicIPs.length))))
  | fail {s : NicSelection ι} {i : ι} {startIndex attempt : Nat}
      (hi : s.point i = .trying startIndex attempt) (h : attempt < g_nicIPs.length) :
      NicStep s ⟨i, .failed⟩ (s.goto i (.trying startIndex (attempt + 1)))
  | fallBack {s : NicSelection ι} {i : ι} {startIndex attempt : Nat}
      (hi : s.point i = .trying startIndex attempt) (h : g_nicIPs.length ≤ attempt) :
      NicStep s ⟨i, .usedDefault⟩ (s.goto i (.returned none))

/-- The runs of the calls, from the index `start` on. -/
abbrev NicRuns (start : Nat) : List (NicSelection ι × NicEvent ι) → NicSelection ι → Prop :=
  Run (NicStep g_nicIPs purpose) (NicSelection.initial start)

/-- The step that a call takes next; with `succeeds`, an attempt succeeds if it can. -/
def NicSelection.next (s : NicSelection ι) (letter : ι × Bool) :
    Option (NicEvent ι × NicSelection ι) :=
  let (i, succeeds) := letter
  match s.point i with
  | .called =>
    if purpose i ≠ .ipcxn ∨ g_nicIPs = [] then
      some (⟨i, .usedDefault⟩, s.goto i (.returned none))
    else
      some (⟨i, .loaded⟩, s.goto i (.exchanging s.g_currentIndex s.g_currentIndex
        (nextIndex g_nicIPs.length s.g_currentIndex)))
  | .exchanging startIndex current next =>
    if succeeds ∧ s.g_currentIndex = current then
      some (⟨i, .exchanged⟩, { s.goto i (.trying startIndex 0) with g_currentIndex := next })
    else
      some (⟨i, .refreshed⟩, s.goto i (.exchanging startIndex s.g_currentIndex
        (nextIndex g_nicIPs.length s.g_currentIndex)))
  | .trying startIndex attempt =>
    if attempt < g_nicIPs.length then
      if succeeds then
        some (⟨i, .bound ((startIndex + attempt) % g_nicIPs.length)⟩,
          s.goto i (.returned (some ((startIndex + attempt) % g_nicIPs.length))))
      else some (⟨i, .failed⟩, s.goto i (.trying startIndex (attempt + 1)))
    else some (⟨i, .usedDefault⟩, s.goto i (.returned none))
  | .returned _ => none

variable {g_nicIPs purpose}

theorem NicSelection.next_step {s s' : NicSelection ι} {letter : ι × Bool} {e : NicEvent ι}
    (h : s.next g_nicIPs purpose letter = some (e, s')) : NicStep g_nicIPs purpose s e s' := by
  obtain ⟨i, succeeds⟩ := letter
  unfold NicSelection.next at h
  dsimp only at h
  split at h
  · next hi =>
    split at h
    · next hdefault =>
      cases h
      exact .default hi hdefault
    · next hload =>
      rw [not_or, not_not] at hload
      cases h
      exact .load hi hload.1 hload.2
  · next hi =>
    split at h
    · next hcurrent =>
      obtain ⟨-, rfl⟩ := hcurrent
      cases h
      exact .exchange hi
    · cases h
      exact .refresh hi
  · next hi =>
    split at h
    · next hlt =>
      split at h
      · cases h
        exact .bind hi hlt
      · cases h
        exact .fail hi hlt
    · next hge =>
      cases h
      exact .fallBack hi (Nat.le_of_not_lt hge)
  · cases h

end

/-! ## What a run shows -/

variable {s s' : NicSelection ι} {e : NicEvent ι} {i : ι} {tr : List (NicSelection ι × NicEvent ι)}
  {numNics start startIndex x : Nat}

/-- The calls whose exchange has succeeded, in order. -/
def exchanges (tr : List (NicSelection ι × NicEvent ι)) : List ι :=
  tr.filterMap fun p => if p.2.action = .exchanged then some p.2.caller else none

/-- The calls that have returned a bound socket, each with its interface. -/
def binds (tr : List (NicSelection ι × NicEvent ι)) : List (ι × Nat) :=
  tr.filterMap fun p =>
    match p.2.action with
    | .bound tryIndex => some (p.2.caller, tryIndex)
    | _ => none

/-- Every socket is created and bound at the first attempt. -/
def AllBind (tr : List (NicSelection ι × NicEvent ι)) : Prop :=
  ∀ p ∈ tr, p.2.action ≠ .failed

instance (tr : List (NicSelection ι × NicEvent ι)) : Decidable (AllBind tr) :=
  inferInstanceAs (Decidable (∀ p ∈ tr, _))

/-- Every call that has moved the index on has returned. -/
def AllReturned (tr : List (NicSelection ι × NicEvent ι)) : Prop :=
  ∀ i ∈ exchanges tr, ∃ x, (i, x) ∈ binds tr

/-- The `j`-th call to move the index on gets interface `start + j`, modulo the number of
interfaces; and when such calls have returned, each interface has its share of them. -/
structure RoundRobin (numNics start : Nat) (tr : List (NicSelection ι × NicEvent ι)) : Prop where
  inTurn : ∀ {j i x}, (exchanges tr)[j]? = some i → (i, x) ∈ binds tr → x = (start + j) % numNics
  fair : AllReturned tr → ∀ x < numNics,
    ((binds tr).map Prod.snd).count x = (binds tr).length / numNics ∨
    ((binds tr).map Prod.snd).count x = ((binds tr).length + numNics - 1) / numNics

/-- The shared index is the one that the call has loaded. -/
def NicSelection.Unmoved (s : NicSelection ι) (i : ι) : Prop :=
  match s.point i with
  | .exchanging startIndex _ _ => startIndex = s.g_currentIndex
  | _ => False

instance (s : NicSelection ι) (i : ι) : Decidable (s.Unmoved i) := by
  unfold NicSelection.Unmoved
  split <;> infer_instance

@[simp] theorem exchanges_nil : exchanges ([] : List (NicSelection ι × NicEvent ι)) = [] := rfl

@[simp] theorem binds_nil : binds ([] : List (NicSelection ι × NicEvent ι)) = [] := rfl

@[simp] theorem exchanges_snoc : exchanges (tr ++ [(s, e)]) =
    exchanges tr ++ if e.action = .exchanged then [e.caller] else [] := by
  simp only [exchanges, List.filterMap_append, List.filterMap_cons, List.filterMap_nil]
  split <;> simp_all

theorem binds_snoc_of_ne (h : ∀ x, e.action ≠ .bound x) :
    binds (tr ++ [(s, e)]) = binds tr := by
  obtain ⟨caller, action⟩ := e
  cases action with
  | bound x => exact absurd rfl (h x)
  | _ => simp [binds]

@[simp] theorem binds_snoc_bound :
    binds (tr ++ [(s, ⟨i, .bound x⟩)]) = binds tr ++ [(i, x)] := by
  simp [binds]

theorem mem_exchanges : i ∈ exchanges tr ↔ ∃ p ∈ tr, p.2 = ⟨i, .exchanged⟩ := by
  simp only [exchanges, List.mem_filterMap, Option.ite_none_right_eq_some, Option.some.injEq]
  refine exists_congr fun p => and_congr_right fun _ => ?_
  obtain ⟨s, caller, action⟩ := p
  simp [and_comm]

/-! ## What holds along a run -/

/-- The call has moved the index on, and `startIndex` is what it had loaded. -/
structure Took (numNics : Nat) (tr : List (NicSelection ι × NicEvent ι)) (i : ι)
    (startIndex : Nat) : Prop where
  lt : startIndex < numNics
  mem : i ∈ exchanges tr
  loaded : ∀ p ∈ tr, p.2 = ⟨i, .exchanged⟩ →
    ∃ current next, p.1.point i = .exchanging startIndex current next

/-- What the trace says of a call at a point, when no attempt to bind has failed. -/
def Stands (numNics : Nat) (tr : List (NicSelection ι × NicEvent ι)) (i : ι) :
    CallbackPoint → Prop
  | .called => i ∉ exchanges tr
  | .exchanging startIndex current next =>
    i ∉ exchanges tr ∧ startIndex < numNics ∧ next = nextIndex numNics current
  | .trying startIndex attempt => attempt = 0 ∧ Took numNics tr i startIndex
  | .returned none => i ∉ exchanges tr
  | .returned (some x) => Took numNics tr i x

/-- The index has moved on once for each exchange; an exchange finds it where those before have
moved it. -/
structure Selecting (numNics start : Nat) (tr : List (NicSelection ι × NicEvent ι))
    (s : NicSelection ι) : Prop where
  index : s.g_currentIndex = turn numNics start (exchanges tr).length
  nodup : (exchanges tr).Nodup
  tickets : ∀ p ∈ tr, ∀ i, p.2 = ⟨i, .exchanged⟩ →
    ∃ j, (exchanges tr)[j]? = some i ∧ p.1.g_currentIndex = turn numNics start j
  stands : ∀ i, Stands numNics tr i (s.point i)
  binds_nodup : (binds tr).Nodup
  bound : ∀ {i x}, (i, x) ∈ binds tr → s.point i = .returned (some x)

theorem Selecting.initial (h : start < numNics) :
    Selecting numNics start [] (NicSelection.initial start : NicSelection ι) where
  index := (turn_zero h).symm
  nodup := List.nodup_nil
  tickets := by simp
  stands := by simp [NicSelection.initial, Stands]
  binds_nodup := List.nodup_nil
  bound := by simp

theorem notMem_exchanges_snoc (he : e ≠ ⟨i, .exchanged⟩) (h : i ∉ exchanges tr) :
    i ∉ exchanges (tr ++ [(s, e)]) := by
  rw [mem_exchanges] at h ⊢
  rintro ⟨p, hp, hi⟩
  rcases List.mem_append.mp hp with hp | hp
  · exact h ⟨p, hp, hi⟩
  · obtain rfl := List.mem_singleton.mp hp
    exact he hi

theorem Took.snoc (h : Took numNics tr i startIndex) (he : e ≠ ⟨i, .exchanged⟩) :
    Took numNics (tr ++ [(s, e)]) i startIndex where
  lt := h.lt
  mem := by
    rw [exchanges_snoc]
    exact List.mem_append_left _ h.mem
  loaded := by
    intro p hp hi
    rcases List.mem_append.mp hp with hp | hp
    · exact h.loaded p hp hi
    · obtain rfl := List.mem_singleton.mp hp
      exact absurd hi he

/-- Only its own exchange changes where a call stands. -/
theorem Stands.snoc {point : CallbackPoint} (h : Stands numNics tr i point)
    (he : e ≠ ⟨i, .exchanged⟩) : Stands numNics (tr ++ [(s, e)]) i point := by
  cases point with
  | called => exact notMem_exchanges_snoc he h
  | exchanging => exact ⟨notMem_exchanges_snoc he h.1, h.2⟩
  | trying => exact ⟨h.1, h.2.snoc he⟩
  | returned r =>
    cases r with
    | none => exact notMem_exchanges_snoc he h
    | some x => exact Took.snoc h he

theorem Selecting.index_lt (h : Selecting numNics start tr s) (hk : 0 < numNics) :
    s.g_currentIndex < numNics := by
  rw [h.index]
  exact turn_lt hk

section

variable [DecidableEq ι]

/-- A step that is no exchange. -/
theorem Selecting.goto (h : Selecting numNics start tr s) {action : NicAction}
    {point : CallbackPoint} (hne : action ≠ .exchanged) (hstands : Stands numNics tr i point)
    (hold : ∀ x, s.point i ≠ .returned (some x))
    (hnew : ∀ x, action = .bound x → point = .returned (some x)) :
    Selecting numNics start (tr ++ [(s, ⟨i, action⟩)]) (s.goto i point) := by
  have hother : ∀ j, (⟨i, action⟩ : NicEvent ι) ≠ ⟨j, .exchanged⟩ := by
    rintro j he
    cases he
    exact hne rfl
  have hexchanges : exchanges (tr ++ [(s, ⟨i, action⟩)]) = exchanges tr := by
    rw [exchanges_snoc, if_neg hne, List.append_nil]
  have hsame : ∀ {j x}, (j, x) ∈ binds tr → (s.goto i point).point j = .returned (some x) := by
    intro j x hj
    have hji : j ≠ i := by
      rintro rfl
      exact hold x (h.bound hj)
    simp [NicSelection.goto, hji, h.bound hj]
  constructor
  · rw [hexchanges]
    exact h.index
  · rw [hexchanges]
    exact h.nodup
  · intro p hp j hj
    rw [hexchanges]
    rcases List.mem_append.mp hp with hp | hp
    · exact h.tickets p hp j hj
    · obtain rfl := List.mem_singleton.mp hp
      exact absurd hj (hother j)
  · intro j
    by_cases hji : j = i
    · subst hji
      simpa [NicSelection.goto] using hstands.snoc (hother j)
    · simpa [NicSelection.goto, hji] using (h.stands j).snoc (hother j)
  · by_cases hbound : ∃ x, action = .bound x
    · obtain ⟨x, rfl⟩ := hbound
      rw [binds_snoc_bound, List.nodup_append]
      refine ⟨h.binds_nodup, List.nodup_singleton _, ?_⟩
      rintro b hb c hc rfl
      obtain rfl := List.mem_singleton.mp hc
      exact hold x (h.bound hb)
    · rw [binds_snoc_of_ne fun x hx => hbound ⟨x, hx⟩]
      exact h.binds_nodup
  · intro j x hj
    by_cases hbound : ∃ x, action = .bound x
    · obtain ⟨y, rfl⟩ := hbound
      rw [binds_snoc_bound] at hj
      rcases List.mem_append.mp hj with hj | hj
      · exact hsame hj
      · cases List.mem_singleton.mp hj
        simp [NicSelection.goto, hnew x rfl]
    · rw [binds_snoc_of_ne fun x hx => hbound ⟨x, hx⟩] at hj
      exact hsame hj

theorem Selecting.exchange (h : Selecting numNics start tr s) (hk : 0 < numNics) {next : Nat}
    (hi : s.point i = .exchanging startIndex s.g_currentIndex next) :
    Selecting numNics start (tr ++ [(s, ⟨i, .exchanged⟩)])
      { s.goto i (.trying startIndex 0) with g_currentIndex := next } := by
  have hstands := h.stands i
  rw [hi] at hstands
  obtain ⟨hfirst, hlt, rfl⟩ := hstands
  have hexchanges : exchanges (tr ++ [(s, ⟨i, .exchanged⟩)]) = exchanges tr ++ [i] := by
    rw [exchanges_snoc, if_pos rfl]
  constructor
  · rw [hexchanges, List.length_append, List.length_singleton, ← advance_turn hk, ← h.index]
    rfl
  · rw [hexchanges, List.nodup_append]
    refine ⟨h.nodup, List.nodup_singleton i, ?_⟩
    rintro j hj _ hb rfl
    exact hfirst (List.mem_singleton.mp hb ▸ hj)
  · intro p hp j hj
    rw [hexchanges]
    rcases List.mem_append.mp hp with hp | hp
    · obtain ⟨n, hn, hindex⟩ := h.tickets p hp j hj
      have hlength := (List.getElem?_eq_some_iff.mp hn).1
      exact ⟨n, by rw [List.getElem?_append_left hlength, hn], hindex⟩
    · obtain rfl := List.mem_singleton.mp hp
      cases hj
      exact ⟨(exchanges tr).length, by simp, h.index⟩
  · intro j
    by_cases hji : j = i
    · subst hji
      have htook : Took numNics (tr ++ [(s, ⟨j, .exchanged⟩)]) j startIndex := by
        refine ⟨hlt, by simp [hexchanges], fun p hp he => ?_⟩
        rcases List.mem_append.mp hp with hp | hp
        · exact absurd (mem_exchanges.mpr ⟨p, hp, he⟩) hfirst
        · obtain rfl := List.mem_singleton.mp hp
          exact ⟨_, _, hi⟩
      simpa [NicSelection.goto, Stands] using htook
    · have hother : (⟨i, .exchanged⟩ : NicEvent ι) ≠ ⟨j, .exchanged⟩ := by
        rintro he
        cases he
        exact hji rfl
      simpa [NicSelection.goto, hji] using (h.stands j).snoc hother
  · rw [binds_snoc_of_ne (by simp)]
    exact h.binds_nodup
  · intro j x hj
    rw [binds_snoc_of_ne (by simp)] at hj
    have hj := h.bound hj
    have hji : j ≠ i := by
      rintro rfl
      rw [hi] at hj
      cases hj
    simp [NicSelection.goto, hji, hj]

variable {g_nicIPs : List Text} {purpose : ι → SocketPurpose}

/-- What one step of any call preserves. -/
theorem Selecting.step (h : Selecting g_nicIPs.length start tr s)
    (hs : NicStep g_nicIPs purpose s e s') (hbind : e.action ≠ .failed)
    (hk : 0 < g_nicIPs.length) : Selecting g_nicIPs.length start (tr ++ [(s, e)]) s' := by
  cases hs with
  | @default i hi hdefault =>
    have hstands := h.stands i
    rw [hi] at hstands
    exact h.goto (by simp) hstands (by simp [hi]) (by simp)
  | @load i hi hpurpose hnics =>
    have hstands := h.stands i
    rw [hi] at hstands
    exact h.goto (by simp) ⟨hstands, h.index_lt hk, rfl⟩ (by simp [hi]) (by simp)
  | @refresh i startIndex current next hi =>
    have hstands := h.stands i
    rw [hi] at hstands
    exact h.goto (by simp) ⟨hstands.1, hstands.2.1, rfl⟩ (by simp [hi]) (by simp)
  | exchange hi => exact h.exchange hk hi
  | @bind i startIndex attempt hi hlt =>
    have hstands := h.stands i
    rw [hi] at hstands
    obtain ⟨rfl, htook⟩ := hstands
    rw [Nat.add_zero, Nat.mod_eq_of_lt htook.lt]
    exact h.goto (by simp) htook (by simp [hi]) (by simp)
  | fail => exact absurd rfl hbind
  | @fallBack i startIndex attempt hi hge =>
    have hstands := h.stands i
    rw [hi] at hstands
    obtain ⟨rfl, -⟩ := hstands
    exact absurd hge (Nat.not_le_of_gt hk)

theorem NicRuns.selecting (hstart : start < g_nicIPs.length)
    (h : NicRuns g_nicIPs purpose start tr s) (hbind : AllBind tr) :
    Selecting g_nicIPs.length start tr s := by
  induction h with
  | nil => exact .initial hstart
  | @snoc tr s s' e h hs ih =>
    have hk := Nat.zero_lt_of_lt hstart
    have hlast := hbind (s, e) (List.mem_append_right _ (List.mem_singleton_self _))
    exact (ih fun p hp => hbind p (List.mem_append_left _ hp)).step hs hlast hk

end

/-! ## Round robin -/

theorem Selecting.took (h : Selecting numNics start tr s) (hx : (i, x) ∈ binds tr) :
    Took numNics tr i x := by
  have hstands := h.stands i
  rwa [h.bound hx] at hstands

/-- When every call that has moved the index on has returned, their interfaces are the first turns,
in some order. -/
theorem Selecting.binds_perm (h : Selecting numNics start tr s) (hreturned : AllReturned tr)
    (hturn : ∀ {j i x}, (exchanges tr)[j]? = some i → (i, x) ∈ binds tr →
      x = turn numNics start j) :
    ((binds tr).map Prod.snd).Perm (turns numNics start (exchanges tr).length) := by
  have hnodup : ((exchanges tr).zipIdx.map fun p => (p.1, turn numNics start p.2)).Nodup := by
    apply List.Nodup.of_map Prod.fst
    simpa [List.map_map, Function.comp_def] using h.nodup
  have hperm : (binds tr).Perm
      ((exchanges tr).zipIdx.map fun p => (p.1, turn numNics start p.2)) := by
    rw [List.perm_ext_iff_of_nodup h.binds_nodup hnodup]
    rintro ⟨i, x⟩
    simp only [List.mem_map, Prod.exists, Prod.mk.injEq, List.mk_mem_zipIdx_iff_getElem?]
    constructor
    · intro hx
      obtain ⟨j, hj⟩ := List.mem_iff_getElem?.mp (h.took hx).mem
      exact ⟨i, j, hj, rfl, (hturn hj hx).symm⟩
    · rintro ⟨i, j, hj, rfl, rfl⟩
      obtain ⟨x, hx⟩ := hreturned i (List.mem_of_getElem? hj)
      rw [← hturn hj hx]
      exact hx
  have hsnd := hperm.map Prod.snd
  rw [List.map_map] at hsnd
  have hturns : (exchanges tr).zipIdx.map (Prod.snd ∘ fun p => (p.1, turn numNics start p.2)) =
      turns numNics start (exchanges tr).length := by
    rw [turns, List.range_eq_range', ← List.zipIdx_map_snd 0 (exchanges tr), List.map_map]
    rfl
  rwa [hturns] at hsnd

variable [DecidableEq ι] {g_nicIPs : List Text} {purpose : ι → SocketPurpose}

/-- **The interfaces are used in turn** exactly when each exchange of a call that returns a socket
finds the index that the call has loaded. -/
theorem roundRobin_iff (hstart : start < g_nicIPs.length) (h : NicRuns g_nicIPs purpose start tr s)
    (hbind : AllBind tr) :
    RoundRobin g_nicIPs.length start tr ↔
      ∀ p ∈ tr, ∀ b ∈ binds tr, p.2 = ⟨b.1, .exchanged⟩ → p.1.Unmoved b.1 := by
  have hinv := h.selecting hstart hbind
  constructor
  · rintro hturn p hp ⟨i, x⟩ hx hi
    obtain ⟨j, hj, hindex⟩ := hinv.tickets p hp i hi
    obtain ⟨current, next, hpoint⟩ := (hinv.took hx).loaded p hp hi
    rw [NicSelection.Unmoved, hpoint, hindex]
    exact hturn.inTurn hj hx
  · intro hunmoved
    have hturn : ∀ {j i x}, (exchanges tr)[j]? = some i → (i, x) ∈ binds tr →
        x = turn g_nicIPs.length start j := by
      intro j i x hj hx
      obtain ⟨p, hp, hi⟩ := mem_exchanges.mp (List.mem_of_getElem? hj)
      obtain ⟨n, hn, hindex⟩ := hinv.tickets p hp i hi
      obtain ⟨current, next, hpoint⟩ := (hinv.took hx).loaded p hp hi
      have hloaded := hunmoved p hp (i, x) hx hi
      rw [NicSelection.Unmoved, hpoint] at hloaded
      have hlt := (List.getElem?_eq_some_iff.mp hn).1
      have hsame := (List.getElem?_inj hlt hinv.nodup).mp (hn.trans hj.symm)
      rw [← hsame, ← hindex]
      exact hloaded
    refine ⟨hturn, fun hreturned x hx => ?_⟩
    have hperm := hinv.binds_perm hreturned hturn
    have hlength := hperm.length_eq
    rw [List.length_map, length_turns] at hlength
    rw [hperm.count_eq, hlength]
    exact count_turns hx

/-! ## Two calls -/

/-- Two interfaces. -/
def twoNics : List Text := ["10.0.0.4".toList, "10.0.0.5".toList]

def callbackRun (schedule : List (Nat × Bool)) :
    List (NicSelection Nat × NicEvent Nat) × NicSelection Nat :=
  replay (NicSelection.next twoNics fun _ => .ipcxn) schedule (.initial 0)

theorem callbackRun_run (schedule : List (Nat × Bool)) :
    NicRuns twoNics (fun _ => .ipcxn) 0 (callbackRun schedule).1 (callbackRun schedule).2 :=
  replay_run fun _ _ _ _ _ => NicSelection.next_step

/-- The second call loads behind the exchange of the first, and its own exchange fails once. -/
def inTurnSchedule : List (Nat × Bool) :=
  [(0, true), (0, true), (1, true), (1, false), (1, true), (1, true), (0, true)]

theorem roundRobin_inTurn :
    binds (callbackRun inTurnSchedule).1 = [(1, 1), (0, 0)] ∧
      RoundRobin twoNics.length 0 (callbackRun inTurnSchedule).1 :=
  ⟨by decide, (roundRobin_iff (by decide) (callbackRun_run inTurnSchedule) (by decide)).mpr
    (by decide)⟩

/-- Both calls load before the first exchange; the exchange of the second fails, and succeeds with
a fresh value. -/
def racingSchedule : List (Nat × Bool) :=
  [(0, true), (1, true), (0, true), (1, true), (1, true), (0, true), (1, true)]

/-- Both calls bind to the first interface, although the index has moved on twice. -/
theorem roundRobin_sameNic :
    NicRuns twoNics (fun _ => .ipcxn) 0 (callbackRun racingSchedule).1
        (callbackRun racingSchedule).2 ∧
      AllBind (callbackRun racingSchedule).1 ∧
      exchanges (callbackRun racingSchedule).1 = [0, 1] ∧
      binds (callbackRun racingSchedule).1 = [(0, 0), (1, 0)] ∧
      ¬ RoundRobin twoNics.length 0 (callbackRun racingSchedule).1 := by
  refine ⟨callbackRun_run racingSchedule, by decide, by decide, by decide, fun h => ?_⟩
  exact absurd (@h.inTurn 1 1 0 (by decide) (by decide)) (by decide)

end KVStore
