import KVStore.Chain
import KVStore.Observe
import KVStore.Sequential

/-!
# Dangling versions

The eviction loop deletes the GUID blob of the oldest version before `SetMetadata` takes the version
out of the list. `noDangling_iff`: the listed locations of all states of a run name blobs that exist
exactly when no deletion goes through while the ETag of its caller is still current.
-/

namespace KVStore

open Transition RecentWindow

universe u

section

variable [Base64Url]

/-- Every listed location names a blob, and every location that `Lookup` returns can be read. -/
structure NoDangling (c : Container) : Prop where
  listed : ∀ {tokens versions}, listedVersions c (encodeTokensToBlobName tokens) = .ok versions →
    ∀ v ∈ versions, (c.blobs v.location).isSome
  lookup : ∀ {tokens precomputedHashes result}, lookup c tokens precomputedHashes = .ok result →
    ∀ loc ∈ result.locations, ∃ chunk, readAsync c loc.location = .ok (true, chunk)

variable {ι : Type u} {calls : Calls ι} {j : Journal.State ι Text} {s s' : System ι} {e : Event ι}

/-- A deletion of the eviction loop goes through while the list that it was computed from is still
the one recorded. -/
def EvictsCurrent (calls : Calls ι) (s : System ι) (e : Event ι) : Prop :=
  e.response = .done ∧ ∃ retry l blob, s.point e.caller = .evict retry l ∧
    s.store.blobs (calls.call e.caller).blobName = some blob ∧ blob.etag = l.currentETag

/-- A container dangles nowhere exactly when the windows of its journal are staged. -/
theorem Refines.noDangling_iff_dense (h : Refines calls j s)
    (hinv : Journal.Inv (protocol calls) j) :
    NoDangling s.store ↔ Journal.Dense (protocol calls) j := by
  constructor
  · intro hno b a ha
    obtain rfl : (calls.call a).blobName = b := (hinv.mem_log (mem_of_mem_rtake ha)).1
    rw [← h.isSome_guidLocation_iff hinv]
    exact hno.listed (h.listedVersions hinv (calls.call a).chunk.tokens) _
      (List.mem_map_of_mem ha)
  · intro hd
    refine ⟨fun {tokens versions} hlist v hv => ?_, fun {tokens hashes result} hl loc hloc => ?_⟩
    · cases hlist.symm.trans (h.listedVersions hinv tokens)
      obtain ⟨a, ha, rfl⟩ := List.mem_map.mp hv
      exact (h.isSome_guidLocation_iff hinv).mpr (hd ha)
    · obtain ⟨i, hi, rfl⟩ := List.getElem_of_mem hloc
      obtain ⟨v, hv, -, hvl⟩ := lookup_records hl (List.getElem?_eq_getElem hi)
      obtain ⟨a, -, -, -, hread⟩ := h.records hinv hd hv
      exact ⟨_, hvl ▸ hread⟩

/-- A container that dangles lists a location that names no blob. -/
theorem Refines.exists_missing (h : Refines calls j s) (hinv : Journal.Inv (protocol calls) j)
    (hno : ¬ NoDangling s.store) :
    ∃ tokens versions,
      KVStore.listedVersions s.store (encodeTokensToBlobName tokens) = .ok versions ∧
      ∃ v ∈ versions, s.store.blobs v.location = none := by
  rw [h.noDangling_iff_dense hinv] at hno
  unfold Journal.Dense at hno
  push Not at hno
  obtain ⟨b, a, ha, hst⟩ := hno
  obtain rfl : (calls.call a).blobName = b := (hinv.mem_log (mem_of_mem_rtake ha)).1
  refine ⟨_, _, h.listedVersions hinv (calls.call a).chunk.tokens, _, List.mem_map_of_mem ha, ?_⟩
  rw [← h.isSome_guidLocation_iff hinv] at hst
  exact Option.not_isSome_iff_eq_none.mp hst

/-- The deletions that go through too early are the early evictions of staged entries. -/
theorem Refines.evictsCurrent_iff (h : Refines calls j s) (hinv : Journal.Inv (protocol calls) j)
    (hd : Journal.Dense (protocol calls) j)
    (hreq : (s.point e.caller).request (calls.call e.caller) = some e.op)
    (he : e.response = (s.store.perform e.op).1) :
    EvictsCurrent calls s e ↔ Journal.EvictsEarly (protocol calls) j e.caller := by
  have hat := h.point e.caller
  constructor
  · rintro ⟨-, retry, l, blob, hpoint, hblob, hetag⟩
    rw [hpoint] at hat
    generalize hp : j.phase e.caller = p at hat
    cases hat with
    | evicting hsnap hv => exact ⟨retry, by rw [hp, (hsnap.current hblob).mp hetag]; rfl⟩
  · rintro ⟨r, hp⟩
    have hsound := hinv.sound e.caller
    rw [hp] at hat hsound
    obtain ⟨-, ⟨c, hc⟩, hk, hw⟩ := hsound
    obtain ⟨etag, -, hblob⟩ := h.base hc
    generalize hpt : s.point e.caller = pt at hat hreq
    cases hat with
    | evicting hsnap hv =>
      obtain ⟨a, ha, hdelete⟩ := request_evict hk hw hv
      obtain hop : e.op = _ := Option.some.inj (hreq.symm.trans hdelete)
      have hview : a ∈ j.view (protocol calls) ((protocol calls).slot e.caller) := by
        obtain ⟨hlt, rfl⟩ := List.getElem?_eq_some_iff.mp ha
        unfold Journal.State.view
        rw [rtake_eq_cons hw (protocol calls).window_pos]
        exact List.mem_cons_self
      obtain ⟨etag', hentry⟩ := h.staged (hd hview)
      refine ⟨?_, r, _, _, hpt, hblob, (hsnap.current hblob).mpr rfl⟩
      rw [he, hop]
      simp only [Container.perform, hentry]

variable [DecidableEq ι] {tr : List (System ι × Event ι)}

/-- The listed locations of all states of a run name blobs that exist exactly when no deletion goes
through while the list that it was computed from is still recorded. -/
theorem noDangling_iff (h : Runs serviceFaults calls Container.empty tr s) :
    (∀ p ∈ tr, NoDangling p.1.store) ∧ NoDangling s.store ↔
      ∀ p ∈ tr, ¬ EvictsCurrent calls p.1 p.2 := by
  have hrun := Refines.run (fun tr j => (∀ p ∈ tr, NoDangling p.1.store) ∧
      Journal.Dense (protocol calls) j ↔ ∀ p ∈ tr, ¬ EvictsCurrent calls p.1 p.2) id
    (Refines.initial calls) (Journal.Inv.initial _) ?_ ?_ h
  · obtain ⟨j, hr, hinv, hiff⟩ := hrun
    rw [hr.noDangling_iff_dense hinv]
    exact hiff
  · simp [Journal.Dense.initial (protocol calls)]
  · intro tr s e s' j j' served hr hinv hiff hs horigin hj hr'
    have hstep : Journal.Dense (protocol calls) j →
        (Journal.Dense (protocol calls) j' ↔ ¬ EvictsCurrent calls s e) := by
      intro hd
      rcases horigin with ⟨rfl, he⟩ | ⟨rfl, status, -, he⟩
      · rw [hr.evictsCurrent_iff hinv hd hs.request he]
        exact ⟨fun hd' hearly => hd'.not_of_evictsEarly hinv hj hearly,
          fun hearly => hd.step hinv hj fun _ => hearly⟩
      · refine iff_of_true (hd.step hinv hj fun hf => by cases hf) ?_
        rintro ⟨hdone, -⟩
        cases he.symm.trans hdone
    simp only [List.mem_append, List.mem_singleton, or_imp, forall_and, forall_eq]
    rw [← hiff, hr.noDangling_iff_dense hinv]
    exact and_congr_right fun hd => hstep hd.2

/-! ## Full lists -/

/-- From here on, one call that nothing interrupts passes a state that dangles. -/
def Dangles (calls : Calls ι) (s : System ι) : Prop :=
  ∃ tr s', Run (Step noFaults calls) s tr s' ∧ ¬ NoDangling s'.store

/-- On its own, call `i` gets to where it deletes the oldest entry of its full window. -/
def ReachesEviction (calls : Calls ι) (i : ι) (s : System ι) (j : Journal.State ι Text) : Prop :=
  ∃ tr s' j' r, Run (Step noFaults calls) s tr s' ∧ Refines calls j' s' ∧
    Journal.Inv (protocol calls) j' ∧
    j'.phase i = .evicting r (j'.log (calls.call i).blobName).length ∧ j'.log = j.log ∧
    ∀ k ≠ i, s'.point k = s.point k

theorem ReachesEviction.step {i : ι} {op : BlobOp} {j₁ : Journal.State ι Text}
    (hreq : (s.point i).request (calls.call i) = some op) (hlog : j₁.log = j.log)
    (h : ReachesEviction calls i
      (s.resume calls i (s.store.perform op).1 (s.store.perform op).2) j₁) :
    ReachesEviction calls i s j := by
  obtain ⟨tr, s', j', r, hrun, hr, hinv, hphase, hlog', hpoint⟩ := h
  refine ⟨_, s', j', r, Run.cons (.served hreq) hrun, hr, hinv, hphase, hlog'.trans hlog, ?_⟩
  intro k hk
  rw [hpoint k hk]
  exact Function.update_of_ne hk ..

/-- The deletion leaves the oldest version listed without a blob. -/
theorem ReachesEviction.dangles {i : ι} (h : ReachesEviction calls i s j) : Dangles calls s := by
  obtain ⟨tr, s', j', r, hrun, hr, hinv, hphase, -, -⟩ := h
  obtain ⟨op, j'', hreq, hj, hr'⟩ := hr.advance hinv hphase (by simp)
  refine ⟨_, _, hrun.snoc (.served hreq), ?_⟩
  rw [hr'.noDangling_iff_dense (hinv.step hj)]
  exact Journal.Dense.not_of_evictsEarly hinv hj ⟨r, hphase⟩

section

variable {i : ι} (h : Refines calls j s) (hinv : Journal.Inv (protocol calls) j)
include h hinv

theorem Refines.reaches_staging
    (hi : j.phase i = .staging (j.log (calls.call i).blobName).length)
    (hw : maxVersions ≤ (j.log (calls.call i).blobName).length) : ReachesEviction calls i s j := by
  obtain ⟨op, j', hreq, hj, hr⟩ := h.advance hinv hi (by simp)
  have hcases := hj.served_cases
  rw [hi] at hcases
  obtain rfl := hcases
  have hattempt : (protocol calls).attempt 0 (j.log (calls.call i).blobName).length =
      .evicting 0 (j.log (calls.call i).blobName).length := if_pos hw
  exact .step hreq rfl ⟨[], _, _, 0, .nil, hr, hinv.step hj,
    (Function.update_self ..).trans hattempt, rfl, fun _ _ => rfl⟩

theorem Refines.reaches_reading {c : ι} (hi : j.phase i = .reading)
    (hc : j.creator (calls.call i).blobName = some c)
    (hk : (protocol calls).key c ≠ (protocol calls).key i)
    (hl : ∀ a ∈ j.view (protocol calls) (calls.call i).blobName,
      (protocol calls).key a ≠ (protocol calls).key i)
    (hw : maxVersions ≤ (j.log (calls.call i).blobName).length) : ReachesEviction calls i s j := by
  obtain ⟨op, j', hreq, hj, hr⟩ := h.advance hinv hi (by simp)
  have hcases := hj.served_cases
  rw [hi] at hcases
  rcases hcases with ⟨hnone, -⟩ | ⟨c', hc', ⟨hown, -⟩ | ⟨-, ⟨a, ha, he⟩, -⟩ | ⟨-, -, rfl⟩⟩
  · cases hc.symm.trans hnone
  · obtain rfl := Option.some.inj (hc.symm.trans hc')
    exact absurd hown hk
  · exact absurd he (hl a ha)
  · exact .step hreq rfl (hr.reaches_staging (hinv.step hj) (Function.update_self ..) hw)

/-- Where the list of a block is full, the call of a further version comes to the eviction. -/
theorem Refines.reaches {c : ι} (hi : j.phase i = .starting)
    (hc : j.creator (calls.call i).blobName = some c)
    (hk : (protocol calls).key c ≠ (protocol calls).key i)
    (hl : ∀ a ∈ j.view (protocol calls) (calls.call i).blobName,
      (protocol calls).key a ≠ (protocol calls).key i)
    (hw : maxVersions ≤ (j.log (calls.call i).blobName).length) : ReachesEviction calls i s j := by
  obtain ⟨op, j', hreq, hj, hr⟩ := h.advance hinv hi (by simp)
  have hcases := hj.served_cases
  rw [hi] at hcases
  rcases hcases with ⟨hnone, -⟩ | ⟨-, rfl⟩
  · cases hc.symm.trans hnone
  · exact .step hreq rfl (hr.reaches_reading (hinv.step hj) (Function.update_self ..) hc hk hl hw)

end

/-- The same for the table of calls that do not overlap. -/
theorem InOrder.reaches {order : List ι} (h : InOrder calls order s j) {i : ι} (hi : i ∉ order)
    {row : Row} (hrow : tableAfter calls order (calls.call i).blobName = some row)
    (hrec : row.records (calls.call i).chunk = false)
    (hfull : row.additional.length = maxVersions) : ReachesEviction calls i s j := by
  rw [← h.table] at hrow
  obtain ⟨c, hc, rfl⟩ := tableOf_eq_some hrow
  have hnew := mt (records_rowOf _).mpr (Bool.eq_false_iff.mp hrec)
  have hlen : (j.view (protocol calls) (calls.call i).blobName).length = maxVersions := by
    rw [← hfull]
    exact (List.length_map _).symm
  rw [Journal.State.view, length_rtake] at hlen
  refine h.refines.reaches h.inv (h.starting i hi) hc (fun he => hnew (Or.inl he))
    (fun a ha he => hnew (Or.inr ⟨a, ha, he⟩)) ?_
  exact hlen ▸ Nat.min_le_right _ _

end

/-! ## One version too many -/

section

attribute [local instance] Base64Url.unpadded

def crowdingCalls : Calls UInt64 :=
  numberedCalls fun i => { tokens := [0], hash := i }

theorem crowdingCalls_dangle :
    ∃ tr s, Runs noFaults crowdingCalls Container.empty tr s ∧ ¬ NoDangling s.store := by
  obtain ⟨s, j, h⟩ := exists_inOrder crowdingCalls
    (show ((List.range 61).map UInt64.ofNat).Nodup by decide +kernel)
  have hany : (tableAfter crowdingCalls ((List.range 61).map UInt64.ofNat)
      (crowdingCalls.call 61).blobName).any (fun row =>
        row.records (crowdingCalls.call 61).chunk = false ∧
          row.additional.length = maxVersions) = true := by decide +kernel
  obtain ⟨row, hrow, hfull⟩ := (Option.any_eq_true _ _).mp hany
  obtain ⟨hrec, hlen⟩ := of_decide_eq_true hfull
  obtain ⟨tr, htr⟩ := h.run
  obtain ⟨tr', s', hrun, hno⟩ := (h.reaches (by decide +kernel) hrow hrec hlen).dangles
  exact ⟨_, s', htr.trans hrun, hno⟩

theorem noDangling_iff_crowding : ∃ tr s, Runs serviceFaults crowdingCalls Container.empty tr s ∧
    ¬ ∀ p ∈ tr, ¬ EvictsCurrent crowdingCalls p.1 p.2 := by
  obtain ⟨tr, s, hrun, hno⟩ := crowdingCalls_dangle
  have hrun' : Runs serviceFaults crowdingCalls Container.empty tr s :=
    hrun.mono (Step.mono fun hf => hf.elim)
  exact ⟨tr, s, hrun', fun hevict => hno ((noDangling_iff hrun').mpr hevict).2⟩

/-- The call of the 61st additional version deletes the GUID blob of the oldest one while it is
still listed. -/
theorem exists_dangling : ∃ tr s, Runs noFaults crowdingCalls Container.empty tr s ∧
    ∃ tokens versions, listedVersions s.store (encodeTokensToBlobName tokens) = .ok versions ∧
      ∃ v ∈ versions, s.store.blobs v.location = none := by
  obtain ⟨tr, s, hrun, hno⟩ := crowdingCalls_dangle
  obtain ⟨j, hr, hinv⟩ := Runs.refines (fun hf => hf.elim) hrun
  exact ⟨tr, s, hrun, hr.exists_missing hinv hno⟩

end

end KVStore
