import KVStore.Acknowledge

/-!
# Leaked version blobs

The GUID blob of a call is uploaded before its version is published, and nothing deletes it when the
retry loop is left by an exception. `noLeak_iff`: when no call is in flight, every GUID blob is
listed exactly when no exception has left a retry loop.
-/

namespace KVStore

open Transition RecentWindow

universe u

/-- Any storage error but a failed precondition, and none at a deletion. -/
def noDeleteFaults : Faults := fun op status =>
  status ≠ .PreconditionFailed ∧ ∀ name, op ≠ .delete name

/-- An exception leaves the retry loop of a call. -/
def LeavesLoop {ι : Type u} (s : System ι) (e : Event ι) : Prop :=
  ∃ status, e.response = .storageException status ∧
    (s.point e.caller).leavesLoop status = true

section

variable [Base64Url]

/-- Every blob with a GUID for a name is in the list of a block. -/
def NoLeak (c : Container) : Prop :=
  ∀ part1 part2, (c.blobs (generateGuid part1 part2)).isSome →
    ∃ tokens versions, listedVersions c (encodeTokensToBlobName tokens) = .ok versions ∧
      ∃ v ∈ versions, v.location = generateGuid part1 part2

variable {ι : Type u} {calls : Calls ι} {j : Journal.State ι Text} {s s' : System ι} {e : Event ι}

/-- The GUID blob of a call that has ended in an exception is in no list. -/
theorem Refines.leaks (h : Refines calls j s) (hinv : Journal.Inv (protocol calls) j) {i : ι}
    {status : HttpStatusCode} (hi : s.point i = .finished (.storageException status))
    (hblob : (s.store.blobs (calls.call i).guidLocation).isSome) : ¬ NoLeak s.store := by
  intro hno
  obtain ⟨tokens, listed, hlist, v, hv, he⟩ := hno _ _ hblob
  cases hlist.symm.trans (h.listedVersions hinv tokens)
  obtain ⟨a, ha, rfl⟩ := List.mem_map.mp hv
  obtain rfl : a = i := calls.guid_injective he
  have hat := h.point a
  rw [(hinv.mem_log (mem_of_mem_rtake ha)).2, hi] at hat
  cases hat

/-- At rest, nothing has leaked exactly when no writer has abandoned its entry. -/
theorem Refines.noLeak_iff_abandoned (h : Refines calls j s)
    (hinv : Journal.Inv (protocol calls) j)
    (ht : Journal.Trimmed (protocol calls) j) (hq : Quiescent s) :
    NoLeak s.store ↔ ∀ i, j.phase i ≠ .done .abandoned := by
  constructor
  · intro hno i hi
    have hst : Journal.Sound (protocol calls) j i (.done .abandoned) := hi ▸ hinv.sound i
    have hat := h.point i
    rw [hi] at hat
    generalize hpt : s.point i = pt at hat
    cases hat with
    | abandoned => exact h.leaks hinv hpt ((h.isSome_guidLocation_iff hinv).mpr hst) hno
  · intro hno part1 part2 hsome
    obtain ⟨i, hi, he⟩ := (h.isSome_guid_iff hinv part1 part2).mp hsome
    have hsound := hinv.sound i
    rcases h.phase_of_quiescent hq i with hp | ⟨o, hp⟩
    · rw [hp] at hsound
      exact absurd hi hsound
    · have hview := (ht.mem_view hinv hp hi).resolve_right fun ho => hno i (ho ▸ hp)
      exact ⟨_, _, h.listedVersions hinv (calls.call i).chunk.tokens, _,
        List.mem_map_of_mem hview, he⟩

/-- A call that issues an operation of the retry loop and then fails leaves the loop. -/
theorem leavesLoop_of_resume {call : Call} {point : WritePoint} {op : BlobOp}
    {response : BlobResponse} {status : HttpStatusCode} (hreq : point.request call = some op)
    (hloop : (∃ retry l, point = .refetch retry l) ∨ ∃ retry l, point = .setMetadata retry l)
    (hfin : point.resume call response = .finished (.storageException status)) :
    ∃ status', response = .storageException status' ∧ point.leavesLoop status' = true := by
  have hexception : ∃ status', response = .storageException status' := by
    rcases hloop with ⟨retry, l, rfl⟩ | ⟨retry, l, rfl⟩
    · cases response with
      | storageException status' => exact ⟨_, rfl⟩
      | done => cases hfin
      | properties etag m => exact absurd rfl (onRefetch_finished hfin)
    · cases response with
      | storageException status' => exact ⟨_, rfl⟩
      | done => cases hfin
      | properties etag m => cases hfin
  obtain ⟨status', rfl⟩ := hexception
  refine ⟨status', rfl, ?_⟩
  have hsw := WritePoint.swallows_of_finished hreq hfin
  rcases hloop with ⟨retry, l, rfl⟩ | ⟨retry, l, rfl⟩ <;> exact hsw

omit [Base64Url] in
theorem resume_of_leavesLoop {call : Call} {point : WritePoint} {status : HttpStatusCode}
    (h : point.leavesLoop status = true) :
    point.resume call (.storageException status) = .finished (.storageException status) := by
  have hloop : ∀ {retry l}, (status ≠ .PreconditionFailed ∨ retry = maxRetries - 1) →
      onMetadataException retry l status = .finished (.storageException status) := by
    intro retry l hor
    unfold onMetadataException
    split
    · next heq => rw [if_pos (hor.resolve_left fun hne => hne heq)]
    · rfl
  cases point with
  | refetch retry l => exact hloop (of_decide_eq_true h)
  | setMetadata retry l => exact hloop (of_decide_eq_true h)
  | _ => cases h

variable [DecidableEq ι] {F : Faults} {j' : Journal.State ι Text} {served : Bool}

/-- An exception leaves the retry loop of a call exactly when its writer abandons its entry. -/
theorem Refines.leavesLoop_iff (h : Refines calls j s) (h' : Refines calls j' s')
    (hs : Step F calls s e s') (hj : Journal.Step (protocol calls) j e.caller served j') :
    LeavesLoop s e ↔ j'.phase e.caller = .done .abandoned := by
  have hat := h.point e.caller
  have hat' := h'.point e.caller
  rw [hs.point_caller] at hat'
  constructor
  · rintro ⟨status, he, hleaves⟩
    have hfin : (s.point e.caller).resume (calls.call e.caller) e.response =
        .finished (.storageException status) := by
      rw [he]
      exact resume_of_leavesLoop hleaves
    rw [hfin] at hat'
    generalize hp' : j'.phase e.caller = p' at hat'
    cases hat' with
    | abandoned => rfl
    | rejected =>
      obtain ⟨hre, hpub⟩ := hj.notLoop_of_rejected hp'
      generalize hp : j.phase e.caller = p at hat
      generalize s.point e.caller = pt at hat hleaves
      cases hat with
      | rereading => exact absurd hp (hre _ _)
      | publishing => exact absurd hp (hpub _ _)
      | _ => cases hleaves
  · intro hp'
    rw [hp'] at hat'
    generalize hfin : (s.point e.caller).resume (calls.call e.caller) e.response = pt' at hat'
    cases hat' with
    | abandoned =>
      refine leavesLoop_of_resume hs.request ?_ hfin
      rcases hj.loop_of_abandoned hp' with ⟨r, k, hp⟩ | ⟨r, k, hp⟩
      · rw [hp] at hat
        generalize s.point e.caller = pt at hat
        cases hat
        exact Or.inl ⟨_, _, rfl⟩
      · rw [hp] at hat
        generalize s.point e.caller = pt at hat
        cases hat
        exact Or.inr ⟨_, _, rfl⟩

omit [DecidableEq ι] in
theorem Refines.delete_of_evicting (h : Refines calls j s) (hinv : Journal.Inv (protocol calls) j)
    (hreq : (s.point e.caller).request (calls.call e.caller) = some e.op) {r k : Nat}
    (hp : j.phase e.caller = .evicting r k) : ∃ name, e.op = .delete name := by
  have hat := h.point e.caller
  have hsound := hinv.sound e.caller
  rw [hp] at hat hsound
  obtain ⟨-, -, hk, hw⟩ := hsound
  generalize s.point e.caller = pt at hat hreq
  cases hat with
  | evicting hsnap hv =>
    obtain ⟨a, -, hdelete⟩ := request_evict hk hw hv
    exact ⟨_, Option.some.inj (hreq.symm.trans hdelete)⟩

/-- When no call is in flight, every GUID blob is listed exactly when no exception has left a retry
loop. -/
theorem noLeak_iff {tr : List (System ι × Event ι)}
    (h : Runs noDeleteFaults calls Container.empty tr s) (hq : Quiescent s) :
    NoLeak s.store ↔ ∀ p ∈ tr, ¬ LeavesLoop p.1 p.2 := by
  have hrun := Refines.run (fun tr j => Journal.Trimmed (protocol calls) j ∧
      ((∀ i, j.phase i ≠ .done .abandoned) ↔ ∀ p ∈ tr, ¬ LeavesLoop p.1 p.2)) (fun hf => hf.1)
    (Refines.initial calls) (Journal.Inv.initial _) ?_ ?_ h
  · obtain ⟨j, hr, hinv, ht, hiff⟩ := hrun
    rw [hr.noLeak_iff_abandoned hinv ht hq]
    exact hiff
  · refine ⟨Journal.Trimmed.initial _, iff_of_true (fun i hi => by cases hi) ?_⟩
    simp
  · rintro tr s e s' j j' served hr hinv ⟨ht, hiff⟩ hs horigin hj hr'
    refine ⟨ht.step hinv hj fun hf r k hp => ?_, ?_⟩
    · obtain ⟨hserved, -⟩ | ⟨-, status, hF, -⟩ := horigin
      · cases hf.symm.trans hserved
      · obtain ⟨name, hop⟩ := hr.delete_of_evicting hinv hs.request hp
        exact hF.2 name hop
    · simp only [List.mem_append, List.mem_singleton, or_imp, forall_and, forall_eq]
      rw [← hiff, hr.leavesLoop_iff hr' hs hj]
      refine ⟨fun hall => ⟨fun i hi => ?_, hall e.caller⟩, fun ⟨hall, hcaller⟩ i => ?_⟩
      · by_cases heq : i = e.caller
        · subst heq
          exact hj.phase_ne_done _ hi
        · exact hall i ((hj.phase_of_ne heq).trans hi)
      · by_cases heq : i = e.caller
        · subst heq
          exact hcaller
        · rw [hj.phase_of_ne heq]
          exact hall i

end

/-! ## A call that gives up -/

section

attribute [local instance] Base64Url.unpadded

def crowdedCalls : Calls UInt64 :=
  numberedCalls fun i => { tokens := [0], hash := i }

/-- The second call reads the properties; before each of its five attempts to publish, another call
publishes first. -/
def crowdedRun : List (System UInt64 × Event UInt64) × System UInt64 :=
  execute crowdedCalls (served ([0, 1, 1, 1] ++ [2, 2, 2, 2, 1] ++ [1, 3, 3, 3, 3, 1] ++
    [1, 4, 4, 4, 4, 1] ++ [1, 5, 5, 5, 5, 1] ++ [1, 6, 6, 6, 6, 1]))
    (System.initial Container.empty)

theorem crowdedRun_quiescent : Quiescent crowdedRun.2 :=
  execute_quiescent (by decide +kernel)

theorem crowdedRun_leaks : ¬ NoLeak crowdedRun.2.store := by
  have hrun : Runs noDeleteFaults crowdedCalls Container.empty crowdedRun.1 crowdedRun.2 :=
    served_run _ _
  obtain ⟨j, hr, hinv⟩ := Runs.refines And.left hrun
  have hpoint : crowdedRun.2.point 1 = .finished (.storageException .PreconditionFailed) := by
    decide +kernel
  exact hr.leaks hinv hpoint (by decide +kernel)

theorem noLeak_iff_crowded : ¬ ∀ p ∈ crowdedRun.1, ¬ LeavesLoop p.1 p.2 :=
  fun hno => crowdedRun_leaks ((noLeak_iff (served_run _ _) crowdedRun_quiescent).mpr hno)

theorem exists_leak : ∃ tr s, Runs noFaults crowdedCalls Container.empty tr s ∧ Quiescent s ∧
    ¬ NoLeak s.store :=
  ⟨_, _, served_run _ _, crowdedRun_quiescent, crowdedRun_leaks⟩

end

end KVStore
