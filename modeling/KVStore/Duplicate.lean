import KVStore.Append

/-!
# Duplicate versions

The check for the call's own version is made on the properties read first; a retry reads them again
and appends without a check. `noDuplicates_iff`: in all states of a run the recorded versions of
every block are different exactly when no retry goes through whose list holds its version already.
-/

namespace KVStore

open Transition RecentWindow

universe u

section

variable [Base64Url]

/-- No two recorded versions of a block have the same hash and parent hash. -/
def NoDuplicates (c : Container) : Prop :=
  ∀ tokens versions, recordedVersions c (encodeTokensToBlobName tokens) = .ok versions →
    (versions.map fun v => (v.hash, v.parentHash)).Nodup

variable {ι : Type u} {calls : Calls ι} {j : Journal.State ι Text} {s s' : System ι} {e : Event ι}

/-- A retry is about to append a version that its list, read again, holds already, and its
`SetMetadata` goes through. -/
def RepeatsVersion (calls : Calls ι) (s : System ι) (e : Event ι) : Prop :=
  e.response = .done ∧ ∃ retry l, 0 < retry ∧ s.point e.caller = .setMetadata retry l ∧
    ∃ v ∈ l.existingVersions.dropLast, v.hash = (calls.call e.caller).chunk.hash ∧
      v.parentHash = (calls.call e.caller).chunk.parentHash

theorem Refines.noDuplicates_iff_distinct (h : Refines calls j s)
    (hinv : Journal.Inv (protocol calls) j) :
    NoDuplicates s.store ↔ Journal.Distinct (protocol calls) j := by
  have hkeys : ∀ {b c}, j.creator b = some c →
      ((creatorVersion calls c :: versions calls (j.view (protocol calls) b)).map
        fun v => (v.hash, v.parentHash)) =
      (protocol calls).key c :: (j.view (protocol calls) b).map (protocol calls).key := by
    intro b c _
    simp [creatorVersion, versions, Call.newVersion, protocol]
  constructor
  · intro hno b c hc
    have hslot : (calls.call c).blobName = b := hinv.slot_creator hc
    rw [← hkeys hc]
    subst hslot
    exact hno _ _ (h.recordedVersions hinv hc)
  · intro hd tokens vs hvs
    rcases hc : j.creator (encodeTokensToBlobName tokens) with _ | c
    · unfold KVStore.recordedVersions at hvs
      rw [h.blobs_eq_none hc] at hvs
      cases hvs
      exact List.nodup_nil
    · cases hvs.symm.trans (h.recordedVersions hinv hc)
      rw [hkeys hc]
      exact hd _ c hc

/-- What a publishing call keeps of the list it read. -/
theorem dropLast_existingVersions {i : ι} {log : List ι} :
    (∃ v ∈ (versions calls ((log ++ [i]).rtake maxVersions)).dropLast,
      v.hash = (calls.call i).chunk.hash ∧ v.parentHash = (calls.call i).chunk.parentHash) ↔
      (protocol calls).key i ∈
        (log.rtake ((protocol calls).window - 1)).map (protocol calls).key := by
  rw [rtake_append_singleton (by decide)]
  unfold versions
  rw [List.map_append, List.map_singleton, List.dropLast_concat]
  simp [Call.newVersion, protocol]

/-- The retries that repeat a version are the repeated appends. -/
theorem Refines.repeatsVersion_iff (h : Refines calls j s) (hinv : Journal.Inv (protocol calls) j)
    (hreq : (s.point e.caller).request (calls.call e.caller) = some e.op)
    (he : e.response = (s.store.perform e.op).1) :
    RepeatsVersion calls s e ↔ Journal.Repeats (protocol calls) j e.caller := by
  have hpublish := fun r k hp =>
    @Refines.publishes_iff _ _ _ _ _ _ h hinv hreq he r k hp (calls.call e.caller).blobName
  have hat := h.point e.caller
  generalize hp : j.phase e.caller = p at hat
  generalize hpt : s.point e.caller = pt at hat hreq
  constructor
  · rintro ⟨hdone, retry, l, hpos, hpoint, hrep⟩
    obtain rfl := hpt.symm.trans hpoint
    cases hat with
    | publishing hsnap hv =>
      have hop : e.op = .setMetadata _ _ _ := (Option.some.inj hreq).symm
      obtain ⟨-, rfl⟩ := (hpublish _ _ hp).mp (publishesTo_iff.mpr ⟨⟨_, _, hop⟩, hdone⟩)
      rw [hv, List.take_length] at hrep
      exact ⟨retry, hpos, hp, dropLast_existingVersions.mp hrep⟩
  · rintro ⟨r, hpos, hphase, hmem⟩
    obtain rfl := hp.symm.trans hphase
    cases hat with
    | publishing hsnap hv =>
      have hpub := (hpublish _ _ hp).mpr ⟨rfl, rfl⟩
      refine ⟨(publishesTo_iff.mp hpub).2, r, _, hpos, hpt, ?_⟩
      have htake : (j.log (calls.call e.caller).blobName).take
          (j.log ((protocol calls).slot e.caller)).length = _ := List.take_length
      rw [hv, htake]
      exact dropLast_existingVersions.mpr hmem

variable [DecidableEq ι] {tr : List (System ι × Event ι)}

/-- In all states of a run the recorded versions of every block are different exactly when no retry
goes through whose list holds its version already. -/
theorem noDuplicates_iff (h : Runs serviceFaults calls Container.empty tr s) :
    (∀ p ∈ tr, NoDuplicates p.1.store) ∧ NoDuplicates s.store ↔
      ∀ p ∈ tr, ¬ RepeatsVersion calls p.1 p.2 := by
  have hrun := Refines.run (fun tr j => Journal.Fresh (protocol calls) j ∧
      ((∀ p ∈ tr, NoDuplicates p.1.store) ∧ Journal.Distinct (protocol calls) j ↔
        ∀ p ∈ tr, ¬ RepeatsVersion calls p.1 p.2)) id
    (Refines.initial calls) (Journal.Inv.initial _) ?_ ?_ h
  · obtain ⟨j, hr, hinv, -, hiff⟩ := hrun
    rw [hr.noDuplicates_iff_distinct hinv]
    exact hiff
  · refine ⟨Journal.Fresh.initial _, ?_⟩
    simp [Journal.Distinct.initial (protocol calls)]
  · rintro tr s e s' j j' served hr hinv ⟨hf, hiff⟩ hs horigin hj hr'
    refine ⟨hf.step hinv hj, ?_⟩
    have hstep : Journal.Distinct (protocol calls) j →
        (Journal.Distinct (protocol calls) j' ↔ ¬ RepeatsVersion calls s e) := by
      intro hd
      rw [hd.step_iff hinv hf hj]
      rcases horigin with ⟨rfl, he⟩ | ⟨rfl, status, -, he⟩
      · rw [hr.repeatsVersion_iff hinv hs.request he]
        exact ⟨fun hn => hn rfl, fun hn _ => hn⟩
      · refine iff_of_true (fun hf => by cases hf) ?_
        rintro ⟨hdone, -⟩
        cases he.symm.trans hdone
    simp only [List.mem_append, List.mem_singleton, or_imp, forall_and, forall_eq]
    rw [← hiff, hr.noDuplicates_iff_distinct hinv]
    exact and_congr_right fun hd => hstep hd.2

end

/-! ## Two calls that race with one version -/

section

attribute [local instance] Base64Url.unpadded

/-- The first call creates the blob, the other two write one version. -/
def racingCalls : Calls UInt64 :=
  numberedCalls fun i => { tokens := [0], hash := if i = 0 then 1 else 2 }

/-- Both calls check the list before either one publishes; the second one retries. -/
def racingRun : List (System UInt64 × Event UInt64) × System UInt64 :=
  execute racingCalls (served [0, 1, 1, 1, 2, 2, 2, 1, 2, 2, 2])
    (System.initial Container.empty)

theorem racingRun_duplicates : ¬ NoDuplicates racingRun.2.store := by
  have hrecorded : recordedVersions racingRun.2.store (encodeTokensToBlobName [0]) = .ok [
      { hash := 1, parentHash := 0, location := encodeTokensToBlobName [0] },
      (racingCalls.call 1).newVersion, (racingCalls.call 2).newVersion] := by decide +kernel
  intro hno
  exact absurd (hno _ _ hrecorded) (by decide +kernel)

theorem noDuplicates_iff_racing : ¬ ∀ p ∈ racingRun.1, ¬ RepeatsVersion racingCalls p.1 p.2 :=
  fun hno => racingRun_duplicates ((noDuplicates_iff (served_run _ _)).mpr hno).2

theorem exists_duplicates :
    ∃ tr s, Runs noFaults racingCalls Container.empty tr s ∧ ¬ NoDuplicates s.store :=
  ⟨_, _, served_run _ _, racingRun_duplicates⟩

end

end KVStore
