import KVStore.Observe
import KVStore.Rpc
import KVStore.Schedule

/-!
# Acknowledged writes

The Write RPC answers `success = true` when `future.get()` returns. `WriteAsync`'s future also
returns when the outermost handler has swallowed a `StorageException`, so an acknowledged write need
not be recorded. `acknowledged_recorded`: from any store, under any storage errors, an acknowledged
write has been recorded if none of its operations met an error that reaches that handler.
-/

namespace KVStore

open Transition

universe u

/-! ## Errors that leave the retry loop -/

/-- A `StorageException` at an operation of the retry loop that its handler throws again. -/
def WritePoint.leavesLoop : WritePoint → HttpStatusCode → Bool
  | .refetch retry _, status => status ≠ .PreconditionFailed ∨ retry = maxRetries - 1
  | .setMetadata retry _, status => status ≠ .PreconditionFailed ∨ retry = maxRetries - 1
  | _, _ => false

/-- A `StorageException` that reaches the outermost handler. -/
def WritePoint.swallows : WritePoint → HttpStatusCode → Bool
  | .upload, status => status ≠ .Conflict
  | .getProperties, _ => true
  | .guidUpload _, _ => true
  | point, status => point.leavesLoop status

/-- The step of call `i` meets an error that the outermost handler swallows. -/
def Swallowed {ι : Type u} (i : ι) (s : System ι) (e : Event ι) : Prop :=
  e.caller = i ∧ ∃ status, e.response = .storageException status ∧
    (s.point i).swallows status = true

theorem swallowed_iff {ι : Type u} {i : ι} {s : System ι} {e : Event ι} :
    Swallowed i s e ↔ e.caller = i ∧
      (match e.response with
      | .storageException status => (s.point i).swallows status
      | _ => false) = true := by
  refine and_congr_right fun _ => ?_
  cases e.response with
  | storageException status =>
    refine ⟨?_, fun hswallows => ⟨status, rfl, hswallows⟩⟩
    rintro ⟨status', hresponse, hswallows⟩
    cases hresponse
    exact hswallows
  | _ => simp

instance {ι : Type u} [DecidableEq ι] {i : ι} {s : System ι} {e : Event ι} :
    Decidable (Swallowed i s e) :=
  decidable_of_iff' _ swallowed_iff

/-! ## The lists that a call writes -/

def PlainVersions (versions : List AdditionalVersion) : Prop :=
  ∀ v ∈ versions, PlainLocation v.location

/-- What holds of the locals of a call: its list can be printed and read back, and ends in the
call's version once that is appended. -/
def WritePoint.Listed (call : Call) : WritePoint → Prop
  | .guidUpload l => PlainVersions l.existingVersions
  | .refetch _ l => PlainVersions l.existingVersions
  | .evict _ l => PlainVersions l.existingVersions ∧ maxVersions < l.existingVersions.length ∧
      [call.newVersion] <:+ l.existingVersions
  | .setMetadata _ l => PlainVersions l.existingVersions ∧ [call.newVersion] <:+ l.existingVersions
  | _ => True

section

variable {call : Call} {retry : Nat} {l : WriteLocals}

theorem listed_evictOrUpdate (hplain : PlainVersions l.existingVersions)
    (hlast : [call.newVersion] <:+ l.existingVersions) : (evictOrUpdate retry l).Listed call := by
  unfold evictOrUpdate
  split
  · next hlen => exact ⟨hplain, hlen, hlast⟩
  · exact ⟨hplain, hlast⟩

theorem listed_appendVersion (hplain : PlainVersions l.existingVersions) :
    (appendVersion call retry l).Listed call := by
  refine listed_evictOrUpdate (fun v hv => ?_) (List.suffix_append _ _)
  rcases List.mem_append.mp hv with hv | hv
  · exact hplain v hv
  · rw [List.mem_singleton] at hv
    rw [hv]
    exact call.plainLocation_newVersion

theorem listed_evicted (h : (WritePoint.evict retry l).Listed call) :
    (evictOrUpdate retry { l with existingVersions := l.existingVersions.tail }).Listed call := by
  obtain ⟨hplain, hlen, hlast⟩ := h
  refine listed_evictOrUpdate (fun v hv => hplain v (List.mem_of_mem_tail hv)) ?_
  cases hl : l.existingVersions with
  | nil =>
    rw [hl] at hlen
    cases hlen
  | cons v versions =>
    rw [hl] at hlen hlast
    rcases List.suffix_cons_iff.mp hlast with he | hlast
    · cases he
      simp [maxVersions] at hlen
    · exact hlast

theorem listed_onProperties {etag : ETag} {metadata : Metadata} :
    (onProperties call etag metadata).Listed call := by
  have hnil : PlainVersions [] := fun v hv => by cases hv
  unfold onProperties
  split
  · trivial
  · split
    · exact hnil
    · split
      · exact hnil
      · split
        · trivial
        · next hparse =>
          split
          · trivial
          · exact plainLocation_of_parse hparse

theorem listed_onRefetch {etag : ETag} {metadata : Metadata}
    (h : PlainVersions l.existingVersions) :
    (onRefetch call retry l etag metadata).Listed call := by
  unfold onRefetch
  split
  · exact listed_appendVersion h
  · split
    · trivial
    · next hparse => exact listed_appendVersion (plainLocation_of_parse hparse)

theorem listed_onMetadataException {status : HttpStatusCode}
    (h : PlainVersions l.existingVersions) : (onMetadataException retry l status).Listed call := by
  unfold onMetadataException
  split
  · split
    · trivial
    · exact h
  · trivial

/-- The code between two operations keeps the list in order. -/
theorem WritePoint.Listed.resume {point : WritePoint} (h : point.Listed call)
    (response : BlobResponse) : (point.resume call response).Listed call := by
  cases point with
  | upload =>
    cases response with
    | storageException status =>
      rw [WritePoint.resume]
      split <;> trivial
    | done => trivial
    | properties => trivial
  | getProperties =>
    cases response with
    | properties etag metadata => exact listed_onProperties
    | storageException status => trivial
    | done => trivial
  | guidUpload l =>
    cases response with
    | storageException status => trivial
    | done => exact listed_appendVersion h
    | properties => exact listed_appendVersion h
  | refetch retry l =>
    cases response with
    | properties etag metadata => exact listed_onRefetch h
    | storageException status => exact listed_onMetadataException h
    | done => exact h
  | evict retry l =>
    rw [WritePoint.resume_evict]
    exact listed_evicted h
  | setMetadata retry l =>
    cases response with
    | storageException status => exact listed_onMetadataException h.1
    | done => trivial
    | properties => trivial
  | finished o => cases response <;> trivial

end

/-! ## What an answer records -/

section

variable {c : Container} {call : Call} {blob : Blob} {name : Text} {retry : Nat}

theorem defaultVersion_of_lookup {m : Metadata} {hash parentHash : Hash}
    (hh : m.lookup "hash".toList = some (toText hash))
    (hp : m.lookup "parenthash".toList = some (toText parentHash)) :
    defaultVersion m name = .ok { hash, parentHash, location := name } := by
  unfold defaultVersion
  rw [hashEntry_hash hh, hashEntry_parenthash hp]
  rfl

theorem lookup_touchEntry_ne (m : Metadata) {name name' : Text} (h : name' ≠ name) :
    (touchEntry m name).lookup name' = m.lookup name' := by
  unfold touchEntry
  split
  · rfl
  · exact lookup_setEntry_ne m [] h

/-- The list that `SetMetadata` sends is read back. -/
theorem additionalVersionsOf_updatedMetadata {l : WriteLocals}
    (h : PlainVersions l.existingVersions) :
    additionalVersionsOf (updatedMetadata l) = .ok l.existingVersions := by
  have hlookup : (updatedMetadata l).lookup "additionalversions".toList =
      some (serializeAdditionalVersions l.existingVersions) := by
    unfold updatedMetadata
    rw [lookup_touchEntry_ne _ (by decide), lookup_touchEntry_ne _ (by decide)]
    exact lookup_setEntry_self ..
  rw [additionalVersionsOf_of_lookup hlookup]
  exact parse_serialize h

/-- The checks after the first `GetProperties` end the call only when its version is recorded. -/
theorem recordsPair_of_onProperties {etag : ETag} {o : WriteOutcome}
    (hblob : c.blobs name = some blob) (ho : onProperties call etag blob.metadata = .finished o)
    (hok : o.future = .ok ()) : RecordsPair c name call.chunk.hash call.chunk.parentHash := by
  unfold onProperties at ho
  split at ho
  · next h => exact ⟨_, Or.inl ⟨blob, hblob, defaultVersion_of_lookup h.1 h.2⟩, rfl, rfl⟩
  · split at ho
    · cases ho
    · next text htext =>
      split at ho
      · cases ho
      · split at ho
        · cases ho
          cases hok
        · next versions hparse =>
          split at ho
          · next hany =>
            obtain ⟨v, hv, he⟩ := List.any_eq_true.mp hany
            have hlist := (additionalVersionsOf_of_lookup htext).trans hparse
            obtain ⟨hh, hp⟩ : v.hash = call.chunk.hash ∧ v.parentHash = call.chunk.parentHash := by
              simpa using he
            exact ⟨v, Or.inr ⟨blob, versions, hblob, hlist, hv⟩, hh, hp⟩
          · cases ho

variable [Base64Url]

/-- The conditional upload of a call that goes through records its version. -/
theorem recordsPair_of_upload (hdone : (c.perform (.uploadIfNoneMatch call.blobName call.content
    (call.uploadMetadata call.blobName))).1 = .done) :
    RecordsPair (c.perform (.uploadIfNoneMatch call.blobName call.content
      (call.uploadMetadata call.blobName))).2 call.blobName call.chunk.hash
      call.chunk.parentHash := by
  unfold Container.perform at hdone ⊢
  rcases hblob : c.blobs call.blobName with _ | blob
  · simp only [hblob]
    have hdefault := @defaultVersion_of_lookup call.blobName _ _ _
      (Call.lookup_hash call call.blobName) (Call.lookup_parenthash call call.blobName)
    exact ⟨_, Or.inl ⟨_, Container.blobs_put_self _, hdefault⟩, rfl, rfl⟩
  · simp only [hblob] at hdone
    cases hdone

/-- A `SetMetadata` that goes through records the versions of its list. -/
theorem recordsPair_of_setMetadata {l : WriteLocals}
    (hl : (WritePoint.setMetadata retry l).Listed call)
    (hdone : (c.perform (.setMetadata call.blobName (updatedMetadata l) l.currentETag)).1 = .done) :
    RecordsPair (c.perform (.setMetadata call.blobName (updatedMetadata l) l.currentETag)).2
      call.blobName call.chunk.hash call.chunk.parentHash := by
  rcases hblob : c.blobs call.blobName with _ | blob
  · simp only [Container.perform, hblob] at hdone
    cases hdone
  · rw [Container.perform_setMetadata _ hblob] at hdone ⊢
    split
    · refine ⟨call.newVersion, Or.inr ⟨_, _, Container.blobs_put_self _,
        additionalVersionsOf_updatedMetadata hl.1, ?_⟩, rfl, rfl⟩
      exact hl.2.subset (List.mem_singleton_self _)
    · next hne =>
      rw [if_neg hne] at hdone
      cases hdone

omit [Base64Url] in
theorem evictOrUpdate_ne_finished {l : WriteLocals} {o : WriteOutcome} :
    evictOrUpdate retry l ≠ .finished o := by
  unfold evictOrUpdate
  split <;> exact fun h => by cases h

omit [Base64Url] in
/-- The code after a retry's `GetProperties` ends the call only by an exception of its future. -/
theorem onRefetch_finished {etag : ETag} {metadata : Metadata} {l : WriteLocals} {o : WriteOutcome}
    (h : onRefetch call retry l etag metadata = .finished o) : o.future ≠ .ok () := by
  unfold onRefetch at h
  split at h
  · exact absurd h evictOrUpdate_ne_finished
  · split at h
    · cases h
      exact fun hok => by cases hok
    · exact absurd h evictOrUpdate_ne_finished

theorem WritePoint.swallows_of_finished {point : WritePoint} {op : BlobOp} {o : WriteOutcome}
    {status : HttpStatusCode} (hreq : point.request call = some op)
    (hfin : point.resume call (.storageException status) = .finished o) :
    point.swallows status = true := by
  have hloop : ∀ {retry l}, onMetadataException retry l status = .finished o →
      status ≠ .PreconditionFailed ∨ retry = maxRetries - 1 := by
    intro retry l h
    unfold onMetadataException at h
    split at h
    · split at h
      · next hr => exact Or.inr hr
      · cases h
    · next hne => exact Or.inl hne
  cases point with
  | upload =>
    rw [WritePoint.resume] at hfin
    split at hfin
    · cases hfin
    · next hne => exact decide_eq_true hne
  | getProperties => rfl
  | guidUpload l => rfl
  | refetch retry l => exact decide_eq_true (hloop hfin)
  | setMetadata retry l => exact decide_eq_true (hloop hfin)
  | evict retry l =>
    rw [WritePoint.resume_evict] at hfin
    exact absurd hfin evictOrUpdate_ne_finished
  | finished o => cases hreq

/-- A call whose future returns has its version recorded, before its last operation or after it,
unless that operation met an error that the outermost handler swallows. -/
theorem WritePoint.Listed.resume_finished {point : WritePoint} {op : BlobOp} {o : WriteOutcome}
    {response : BlobResponse} {c' : Container} (h : point.Listed call)
    (hreq : point.request call = some op)
    (hanswer : response = (c.perform op).1 ∧ c' = (c.perform op).2 ∨
      ∃ status, response = .storageException status)
    (hfin : point.resume call response = .finished o) (hok : o.future = .ok ()) :
    RecordsPair c call.blobName call.chunk.hash call.chunk.parentHash ∨
      RecordsPair c' call.blobName call.chunk.hash call.chunk.parentHash ∨
        ∃ status, response = .storageException status ∧ point.swallows status = true := by
  by_cases hex : ∃ status, response = .storageException status
  · obtain ⟨status, rfl⟩ := hex
    exact Or.inr (Or.inr ⟨status, rfl, WritePoint.swallows_of_finished hreq hfin⟩)
  · obtain ⟨rfl, rfl⟩ := hanswer.resolve_right hex
    cases point with
    | upload =>
      cases hreq
      refine Or.inr (Or.inl (recordsPair_of_upload ?_))
      rcases hblob : c.blobs call.blobName with _ | blob
      · simp only [Container.perform, hblob]
      · refine absurd ⟨HttpStatusCode.Conflict, ?_⟩ hex
        simp only [Container.perform, hblob]
    | getProperties =>
      cases hreq
      rcases hblob : c.blobs call.blobName with _ | blob
      · refine absurd ⟨HttpStatusCode.NotFound, ?_⟩ hex
        simp only [Container.perform, hblob]
      · simp only [Container.perform, hblob] at hfin
        exact Or.inl (recordsPair_of_onProperties hblob hfin hok)
    | guidUpload l =>
      cases hreq
      exact absurd hfin evictOrUpdate_ne_finished
    | refetch retry l =>
      cases hreq
      rcases hblob : c.blobs call.blobName with _ | blob
      · refine absurd ⟨HttpStatusCode.NotFound, ?_⟩ hex
        simp only [Container.perform, hblob]
      · simp only [Container.perform, hblob] at hfin
        exact absurd hok (onRefetch_finished hfin)
    | evict retry l =>
      rw [WritePoint.resume_evict] at hfin
      exact absurd hfin evictOrUpdate_ne_finished
    | setMetadata retry l =>
      cases hreq
      refine Or.inr (Or.inl (recordsPair_of_setMetadata h ?_))
      rcases hblob : c.blobs call.blobName with _ | blob
      · refine absurd ⟨HttpStatusCode.NotFound, ?_⟩ hex
        simp only [Container.perform, hblob]
      · rw [Container.perform_setMetadata _ hblob] at hex ⊢
        split
        · rfl
        · next hne =>
          rw [if_neg hne] at hex
          exact absurd ⟨_, rfl⟩ hex
    | finished o => cases hreq

end

/-! ## Acknowledged writes are recorded -/

section

variable {ι : Type u} [DecidableEq ι] [Base64Url] {calls : Calls ι} {F : Faults} {c : Container}
  {s s' : System ι} {e : Event ι} {tr : List (System ι × Event ι)} {i : ι}

/-- At some state of a run, the version of call `i` is recorded. -/
def RecordedDuring (calls : Calls ι) (tr : List (System ι × Event ι)) (s : System ι) (i : ι) :
    Prop :=
  ∃ s₁ ∈ tr.map Prod.fst ++ [s], RecordsPair s₁.store (calls.call i).blobName
    (calls.call i).chunk.hash (calls.call i).chunk.parentHash

/-- How far call `i` has come in a run. -/
structure Settled (calls : Calls ι) (tr : List (System ι × Event ι)) (s : System ι) (i : ι) :
    Prop where
  listed : (s.point i).Listed (calls.call i)
  finished : ∀ {o}, s.point i = .finished o → o.future = .ok () →
    RecordedDuring calls tr s i ∨ ∃ p ∈ tr, Swallowed i p.1 p.2

omit [DecidableEq ι] in
theorem RecordedDuring.snoc (h : RecordedDuring calls tr s i) (e : Event ι) (s' : System ι) :
    RecordedDuring calls (tr ++ [(s, e)]) s' i := by
  obtain ⟨s₁, hmem, hrec⟩ := h
  refine ⟨s₁, ?_, hrec⟩
  rw [List.map_append, List.map_singleton]
  exact List.mem_append_left _ hmem

omit [DecidableEq ι] in
theorem RecordedDuring.of_records {p : RecordsPair s.store (calls.call i).blobName
    (calls.call i).chunk.hash (calls.call i).chunk.parentHash ∨
      RecordsPair s'.store (calls.call i).blobName
        (calls.call i).chunk.hash (calls.call i).chunk.parentHash} :
    RecordedDuring calls (tr ++ [(s, e)]) s' i := by
  rcases p with h | h
  · exact ⟨s, by simp, h⟩
  · exact ⟨s', by simp, h⟩

theorem Settled.step (h : Settled calls tr s i) (hs : Step F calls s e s') :
    Settled calls (tr ++ [(s, e)]) s' i := by
  by_cases heq : e.caller = i
  · subst heq
    have hpoint := hs.point_caller
    refine ⟨?_, fun {o} ho hok => ?_⟩
    · rw [hpoint]
      exact h.listed.resume _
    · rw [hpoint] at ho
      have hstart := h.listed.resume_finished hs.request hs.answer ho hok
      rcases hstart with hrec | hrec | ⟨status, he, hsw⟩
      · exact Or.inl (RecordedDuring.of_records (p := Or.inl hrec))
      · exact Or.inl (RecordedDuring.of_records (p := Or.inr hrec))
      · exact Or.inr ⟨(s, e), by simp, rfl, status, he, hsw⟩
  · have hpoint := hs.point_of_ne (Ne.symm heq)
    refine ⟨hpoint ▸ h.listed, fun {o} ho hok => ?_⟩
    rcases h.finished (hpoint ▸ ho) hok with hrec | ⟨p, hp, hsw⟩
    · exact Or.inl (hrec.snoc e s')
    · exact Or.inr ⟨p, List.mem_append_left _ hp, hsw⟩

theorem Runs.settled (h : Runs F calls c tr s) (i : ι) : Settled calls tr s i := by
  induction h with
  | nil => exact ⟨trivial, fun ho => by cases ho⟩
  | snoc _ hs ih => exact ih.step hs

/-- A write that is acknowledged has been recorded, if none of its operations met an error that the
outermost handler swallows. -/
theorem acknowledged_recorded {what : StdError → Text} {request : WriteRequest}
    {store : Option (PromptChunk → Except StdError Unit)} {o : WriteOutcome}
    (h : Runs allFaults calls c tr s) (ho : s.point i = .finished o)
    (hcall : ∀ protoChunk ∈ request.chunk, protoChunk.toPromptChunk = (calls.call i).chunk)
    (hstore : ∀ writeAsync ∈ store, writeAsync (calls.call i).chunk = o.future)
    (hack : (startProcessing what request store).2.success = true)
    (hno : ∀ p ∈ tr, ¬ Swallowed i p.1 p.2) : RecordedDuring calls tr s i := by
  have hsettled := Runs.settled h i
  obtain ⟨protoChunk, hchunk, writeAsync, hwrite, hok⟩ := startProcessing_success hack
  rw [hcall protoChunk hchunk, hstore writeAsync hwrite] at hok
  exact (hsettled.finished ho hok).resolve_right fun ⟨p, hp, hsw⟩ => hno p hp hsw

end

section

attribute [local instance] Base64Url.unpadded

/-- Every call writes a version of its own of one block. -/
def contendedWrites : Calls UInt64 :=
  numberedCalls fun i => { tokens := [0], hash := i, parent_hash := 3 }

def contendedRequest : WriteRequest where
  resource_name := "resource".toList
  container_name := "container".toList
  chunk := some ((contendedWrites.call 1).chunk.toProtoChunk)

/-- The block exists when calls 1 and 2 upload it, and call 2 publishes first, so that the
precondition of call 1 fails once. -/
def contendedRun : List (System UInt64 × Event UInt64) × System UInt64 :=
  execute contendedWrites (served [0, 1, 1, 1, 2, 2, 2, 2, 1, 1, 1])
    (System.initial Container.empty)

theorem contendedRun_run :
    Runs allFaults contendedWrites Container.empty contendedRun.1 contendedRun.2 :=
  execute_run fun _ _ _ _ _ => trivial

theorem acknowledged_recorded_contended :
    (∃ p ∈ contendedRun.1, p.2.caller = 1 ∧
      p.2.response = .storageException .PreconditionFailed) ∧
    RecordedDuring contendedWrites contendedRun.1 contendedRun.2 1 := by
  have hfinished : contendedRun.2.point 1 = .finished .updated := by decide +kernel
  have hack : (startProcessing (fun _ => []) contendedRequest
    (some fun _ => WriteOutcome.updated.future)).2.success = true := rfl
  refine ⟨by decide +kernel, acknowledged_recorded contendedRun_run hfinished ?_ ?_ hack
    (by decide +kernel)⟩
  · rintro protoChunk ⟨⟩
    exact toPromptChunk_toProtoChunk _
  · rintro writeAsync ⟨⟩
    rfl

def oneWrite : Calls UInt64 :=
  numberedCalls fun _ => { tokens := [0], hash := 5, parent_hash := 3 }

def oneWriteRequest : WriteRequest where
  resource_name := "resource".toList
  container_name := "container".toList
  chunk := some ((oneWrite.call 0).chunk.toProtoChunk)

/-- The upload meets an error. -/
def oneWriteRun : List (System UInt64 × Event UInt64) × System UInt64 :=
  execute oneWrite [(0, some (.Other 500))] (System.initial Container.empty)

/-- The upload fails with status 500: the write is acknowledged, and nothing was stored. -/
theorem acknowledged_unrecorded : ∃ tr s o, Runs allFaults oneWrite Container.empty tr s ∧
    s.point 0 = .finished o ∧
    (startProcessing (fun _ => []) oneWriteRequest (some fun _ => o.future)).2.success = true ∧
    ¬ RecordedDuring oneWrite tr s 0 := by
  refine ⟨oneWriteRun.1, oneWriteRun.2, .storageException (.Other 500),
    execute_run fun _ _ _ _ _ => trivial, by decide +kernel, rfl, ?_⟩
  have hnone : ∀ s₁ ∈ oneWriteRun.1.map Prod.fst ++ [oneWriteRun.2],
      recordedVersions s₁.store (oneWrite.call 0).blobName = .ok [] := by decide +kernel
  rintro ⟨s₁, hs₁, v, hv, -⟩
  cases (records_iff (hnone s₁ hs₁)).mp hv

end

end KVStore
