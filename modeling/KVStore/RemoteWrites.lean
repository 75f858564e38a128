import KVStore.Client
import KVStore.Linearization
import KVStore.LookupGrowth
import KVStore.Lib.RemoteCalls

/-!
# Clients that write to one container

Any number of clients write through the server, whose calls of `WriteAsync` overlap, while
connections break. A client that is told of a failure does not know what becomes of its write: the
request may still arrive, and the server goes on without the client.

`remote_linearizable`: nevertheless the container records what the writes leave that took effect,
one after the other, in an order that agrees with what the clients could observe; none takes effect
twice, and the acknowledged ones have. `remote_terminates`: the runs are short, and as long as the
connections hold the server answers everybody. `lookup_finds_acknowledged`: what was acknowledged is
found by the lookups of every client.
-/

namespace KVStore

open Transition

universe u

section

variable {ι : Type u} [DecidableEq ι] [Base64Url] {F : Faults} {calls : Calls ι} {c : Container}
  {s s' : System ι} {e : Event ι} {tr : List (System ι × Event ι)} {i : ι} {o : WriteOutcome}

/-! ## Calls that have ended -/

theorem Step.caller_unfinished (hs : Step F calls s e s') : s.point e.caller ≠ .finished o := by
  intro ho
  have hreq := hs.request
  rw [ho] at hreq
  cases hreq

theorem Step.finished (hs : Step F calls s e s') (ho : s.point i = .finished o) :
    s'.point i = .finished o := by
  rw [hs.point_of_ne, ho]
  rintro rfl
  exact hs.caller_unfinished ho

omit [DecidableEq ι] [Base64Url] in
theorem onProperties_ne_storageException {call : Call} {etag : ETag} {metadata : Metadata}
    {status : HttpStatusCode} :
    onProperties call etag metadata ≠ .finished (.storageException status) := by
  unfold onProperties
  repeat' split
  all_goals exact fun h => by cases h

omit [DecidableEq ι] in
/-- Only an exception ends a call as a swallowed one. -/
theorem WritePoint.exception_of_resume {call : Call} {point : WritePoint} {op : BlobOp}
    {response : BlobResponse} {status : HttpStatusCode} (hreq : point.request call = some op)
    (h : point.resume call response = .finished (.storageException status)) :
    ∃ status', response = .storageException status' := by
  cases response with
  | storageException status' => exact ⟨status', rfl⟩
  | done =>
    cases point with
    | guidUpload l | evict retry l => exact absurd h evictOrUpdate_ne_finished
    | upload | getProperties | refetch retry l | setMetadata retry l => cases h
    | finished o => cases hreq
  | properties etag metadata =>
    cases point with
    | getProperties => exact absurd h onProperties_ne_storageException
    | refetch retry l =>
      have hfuture := onRefetch_finished h
      exact absurd rfl hfuture
    | guidUpload l | evict retry l => exact absurd h evictOrUpdate_ne_finished
    | upload | setMetadata retry l => cases h
    | finished o => cases hreq

/-- A call that ends as a swallowed one has met the error. -/
theorem Runs.swallowed (h : Runs F calls c tr s) {status : HttpStatusCode}
    (hi : s.point i = .finished (.storageException status)) : ∃ p ∈ tr, Swallowed i p.1 p.2 := by
  induction h with
  | nil => cases hi
  | @snoc tr s s' e h hs ih =>
    by_cases he : e.caller = i
    · subst he
      rw [hs.point_caller] at hi
      obtain ⟨status', hresponse⟩ := WritePoint.exception_of_resume hs.request hi
      rw [hresponse] at hi
      exact ⟨(s, e), by simp, rfl, status', hresponse,
        WritePoint.swallows_of_finished hs.request hi⟩
    · rw [hs.point_of_ne (Ne.symm he)] at hi
      obtain ⟨p, hp, hsw⟩ := ih hi
      exact ⟨p, List.mem_append_left _ hp, hsw⟩

/-- A call whose future returns has its version recorded, or has met an error that the outermost
handler swallows. -/
theorem Runs.succeeds_or_swallowed (h : Runs F calls c tr s) (ho : s.point i = .finished o)
    (hok : o.future = .ok ()) : o.succeeds = true ∨ ∃ p ∈ tr, Swallowed i p.1 p.2 := by
  cases o with
  | storageException status => exact Or.inr (Runs.swallowed h ho)
  | stdException e => cases hok
  | uploaded | identical | alreadyListed | updated => exact Or.inl rfl

end

/-! ## The Write RPC -/

section

variable {ι : Type u} [DecidableEq ι] [Base64Url] (what : StdError → Text)
  (clients : ι → ClientImpl) (calls : Calls ι)

/-- What `WriteReactor` answers to a client, when `ResolveStore` has found the store. -/
def writeAnswer (i : ι) (store : Option WriteOutcome) : Status × WriteResponse :=
  startProcessing what ((clients i).writeRequest (calls.call i).chunk)
    (store.map fun o _ => o.future)

/-- `WriteReactor` starts `WriteAsync` for a complete request, unless the store cannot be resolved,
and answers when the future is ready. -/
def writeService : RemoteCalls.Service (System ι) (Event ι) ι (Status × WriteResponse) where
  step := Step serviceFaults calls
  party := Event.caller
  ended s i :=
    match s.point i with
    | .finished o => some (writeAnswer what clients calls i (some o))
    | _ => none
  Sends i := (clients i).initialized_ = true
  Admits i := (clients i).resourceName_ ≠ [] ∧ (clients i).containerName_ ≠ []
  Refuses i a := a = writeAnswer what clients calls i none
  ended_step := by
    intro s e s' i a hs ha
    cases hp : s.point i with
    | finished o =>
      rw [hp] at ha
      rw [hs.finished hp]
      exact ha
    | _ =>
      rw [hp] at ha
      cases ha
  ended_party := by
    intro s e s' hs
    cases hp : s.point e.caller with
    | finished o => exact absurd hp hs.caller_unfinished
    | _ => rfl

abbrev RemoteState (ι : Type u) := RemoteCalls.State (System ι) ι (Status × WriteResponse)

abbrev RemoteEvent (ι : Type u) := RemoteCalls.Event (Event ι) ι (Status × WriteResponse)

abbrev RemoteStep : RemoteState ι → RemoteEvent ι → RemoteState ι → Prop :=
  RemoteCalls.Step (writeService what clients calls)

/-- Runs of clients, each of which writes once, from an empty container. -/
abbrev RemoteRuns : List (RemoteState ι × RemoteEvent ι) → RemoteState ι → Prop :=
  RemoteCalls.Runs (writeService what clients calls) (System.initial Container.empty)

/-- The future of a client's `WriteAsync` has returned. -/
def Acknowledged (r : RemoteState ι) (i : ι) : Prop :=
  ∃ a, r.client i = .answered a ∧ (clients i).writeAsync (.ok a) = .ok ()

variable {what clients calls} {r r₁ r₂ : RemoteState ι}
  {tr tr₁ tr₂ : List (RemoteState ι × RemoteEvent ι)} {i k : ι}

theorem RemoteRuns.runs (h : RemoteRuns what clients calls tr r) :
    Runs serviceFaults calls Container.empty (RemoteCalls.works tr) r.inner :=
  RemoteCalls.works_run h

omit [DecidableEq ι] [Base64Url] in
theorem ClientImpl.success_of_writeAsync {client : ClientImpl} {a : Status × WriteResponse}
    (h : client.writeAsync (.ok a) = .ok ()) : a.2.success = true := by
  obtain ⟨status, response⟩ := a
  cases hsuccess : response.success with
  | true => rfl
  | false =>
    simp only [ClientImpl.writeAsync, hsuccess] at h
    repeat' split at h
    · cases h
    · cases h
    · cases h
    · next hne => exact absurd trivial hne

/-- An acknowledged write was started, and its future has returned. -/
theorem RemoteRuns.acknowledged (h : RemoteRuns what clients calls tr r)
    (hi : Acknowledged clients r i) :
    ∃ o, r.inner.point i = .finished o ∧ o.future = .ok () := by
  obtain ⟨a, hanswered, hok⟩ := hi
  have hreply := (RemoteCalls.Runs.sound h i).answered hanswered
  have hsuccess := ClientImpl.success_of_writeAsync hok
  unfold RemoteCalls.State.reply at hreply
  cases hr : r.request i with
  | started =>
    simp only [hr, writeService] at hreply
    cases hp : r.inner.point i with
    | finished o =>
      rw [hp] at hreply
      cases hreply
      obtain ⟨protoChunk, -, writeAsync, hstore, hfuture⟩ := startProcessing_success hsuccess
      cases hstore
      exact ⟨o, rfl, hfuture⟩
    | _ =>
      rw [hp] at hreply
      cases hreply
  | refused a' =>
    rw [hr] at hreply
    cases hreply
    have hrefused : a = writeAnswer what clients calls i none :=
      (RemoteCalls.Runs.sound h i).refused hr
    rw [hrefused] at hsuccess
    obtain ⟨protoChunk, -, writeAsync, hstore, -⟩ := startProcessing_success hsuccess
    cases hstore
  | absent | inFlight =>
    rw [hr] at hreply
    cases hreply

omit [DecidableEq ι] [Base64Url] in
theorem completed_append (tr tr' : List (System ι × Event ι)) :
    completed calls (tr ++ tr') = completed calls tr ++ completed calls tr' := by
  unfold completed
  rw [List.filter_append, List.map_append]

omit [DecidableEq ι] [Base64Url] in
theorem notMem_completed {tr : List (System ι × Event ι)} (h : ∀ p ∈ tr, p.2.caller ≠ i) :
    i ∉ completed calls tr := by
  intro hi
  obtain ⟨p, hp, hcaller⟩ := List.mem_map.mp hi
  exact h p (List.mem_of_mem_filter hp) hcaller

/-- **Lossy connections keep writes linearizable.** Unless a version is published that is recorded
already, the container records what some of the writes leave one after the other: each of them at
most once, among them all that were acknowledged (but for swallowed errors) and none that the server
has not started, and a write that was answered before another one was made comes before it. -/
theorem remote_linearizable (h : RemoteRuns what clients calls tr r)
    (hno : ∀ p ∈ RemoteCalls.works tr, ¬ Republishes calls p.1 p.2) :
    ∃ order : List ι, order.Nodup ∧
      (∀ tokens, recordedVersions r.inner.store (encodeTokensToBlobName tokens) =
        .ok ((tableAfter calls order).recorded (encodeTokensToBlobName tokens))) ∧
      (∀ i ∈ order, r.request i = .started) ∧
      (∀ i, Acknowledged clients r i →
        i ∈ order ∨ ∃ p ∈ RemoteCalls.works tr, Swallowed i p.1 p.2) ∧
      ∀ i k, RemoteCalls.AnsweredBefore tr i k → i ∈ order → k ∈ order →
        [i, k].Sublist order := by
  have hruns := RemoteRuns.runs h
  obtain ⟨j, hr, hinv, htable⟩ := Runs.table hruns hno
  obtain ⟨hnodup, hmem⟩ := completed_iff hruns
  refine ⟨completed calls (RemoteCalls.works tr), hnodup, fun tokens => ?_, fun i hi => ?_,
    fun i hi => ?_, fun i k hik hi hk => ?_⟩
  · rw [← htable]
    exact hr.recorded_tableOf hinv tokens
  · by_contra hne
    exact notMem_completed ((RemoteCalls.Runs.sound h i).unstarted hne) hi
  · obtain ⟨o, ho, hok⟩ := RemoteRuns.acknowledged h hi
    refine (Runs.succeeds_or_swallowed hruns ho hok).imp_left fun hsucc => (hmem i).mpr ?_
    rw [ho]
    exact hsucc
  · obtain ⟨l, l', hworks, hl, hl'⟩ := RemoteCalls.works_of_answeredBefore h hik
    rw [hworks, completed_append] at hi hk ⊢
    have hi' := (List.mem_append.mp hi).resolve_right (notMem_completed hl')
    have hk' := (List.mem_append.mp hk).resolve_left (notMem_completed hl)
    exact (List.singleton_sublist.mpr hi').append (List.singleton_sublist.mpr hk')

/-- **The server answers.** Runs are no longer than what the calls and their messages can do; and
from every state the server can go on, while the connections hold, until every client that waits has
its answer. -/
theorem remote_terminates [Fintype ι] (h : RemoteRuns what clients calls tr r) :
    tr.length ≤ (3 * maxRetries + 5) * Fintype.card ι ∧
      ∃ tr' r', Run (fun r e r' => RemoteStep what clients calls r e r' ∧
          e.IsServed (writeService what clients calls)) r tr' r' ∧
        ∀ i, r.client i = .waiting → ∃ a, r'.client i = .answered a := by
  have hown : ∀ {tr s e s'}, Run (writeService what clients calls).step
      (System.initial Container.empty) tr s → (writeService what clients calls).step s e s' →
        (s'.point ((writeService what clients calls).party e)).rank <
          (s.point ((writeService what clients calls).party e)).rank :=
    fun hrun hs => Runs.rank_lt hrun hs
  have hother : ∀ {s e s' i}, (writeService what clients calls).step s e s' →
      i ≠ (writeService what clients calls).party e →
        (s'.point i).rank ≤ (s.point i).rank :=
    fun hs hi => Step.rank_le hs hi
  refine ⟨?_, ?_⟩
  · have hlen := RemoteCalls.length_le (fun i s => (System.point s i).rank) hown hother h
    have hstart : ∑ i : ι, (((System.initial Container.empty).point i).rank + 3) =
        (3 * maxRetries + 5) * Fintype.card ι := by
      show ∑ _i : ι, (3 * maxRetries + 2 + 3) = _
      rw [Finset.sum_const_nat fun _ _ => rfl, Finset.card_univ, Nat.mul_comm]
    exact hlen.trans_eq hstart
  · refine RemoteCalls.exists_answers (fun i s => (System.point s i).rank) hown hother h
      (fun {tr s i} hrun hi => ?_) fun i => Or.inr ⟨_, rfl⟩
    have hunfinished : ∀ o, s.point i ≠ .finished o := by
      intro o ho
      simp only [writeService, ho] at hi
      cases hi
    obtain ⟨e, s', hs, rfl⟩ := Runs.exists_step hrun hunfinished
    exact ⟨e, s', hs.mono fun hf => hf.elim, rfl⟩

end

/-! ## Lookups after acknowledged writes -/

section

variable {ι : Type u} [DecidableEq ι] [Base64Url] {calls : Calls ι}
  {tr tr' : List (System ι × Event ι)} {s s' : System ι} {i : ι}

/-- With few uploads a version that was recorded at some state of a run is recorded at its end. -/
theorem RecordedDuring.recordsPair (h : RecordedDuring calls tr s i)
    (hrun : Runs serviceFaults calls Container.empty tr s) (hfew : FewUploads calls tr) :
    RecordsPair s.store (calls.call i).blobName (calls.call i).chunk.hash
      (calls.call i).chunk.parentHash := by
  obtain ⟨s₁, hs₁, hrec⟩ := h
  rcases List.mem_append.mp hs₁ with hs₁ | hs₁
  · obtain ⟨p, hp, rfl⟩ := List.mem_map.mp hs₁
    obtain ⟨tr₁, tr₂, rfl, h₁, h₂⟩ := hrun.split_of_mem hp
    obtain ⟨j, hr, hinv⟩ := Runs.refines id h₁
    exact hr.shows_run id hinv h₂ ((hr.recordsPair_iff hinv).mp hrec) fun q hq =>
      no_eviction hrun hfew (List.mem_append_right _ hq) _ _ _
  · rwa [List.mem_singleton.mp hs₁] at hrec

variable (what : StdError → Text) (clients : ι → ClientImpl) (calls) (stdHash : Token → Hash)

/-- A client has written block `n` of the tokens after the block before it, and knows; no operation
of the write met an error that is swallowed. -/
def BlockAcknowledged (tr : List (RemoteState ι × RemoteEvent ι)) (r : RemoteState ι)
    (tokens : List Token) (n : Nat) : Prop :=
  ∃ i, Acknowledged clients r i ∧ (∀ p ∈ RemoteCalls.works tr, ¬ Swallowed i p.1 p.2) ∧
    (calls.call i).chunk.tokens = blockTokens tokens n ∧
    (calls.call i).chunk.parentHash = parentOf stdHash tokens n

variable {what clients calls stdHash} {r r₁ r₂ : RemoteState ι}
  {tr₁ tr₂ : List (RemoteState ι × RemoteEvent ι)} {tokens : List Token} {n : Nat}

/-- So it is recorded, as long as there are few uploads. -/
theorem BlockAcknowledged.recordsPair {tr : List (RemoteState ι × RemoteEvent ι)}
    (h : BlockAcknowledged calls clients stdHash tr r tokens n)
    (hruns : RemoteRuns what clients calls tr r) (hcalls : WritesHashed stdHash calls)
    (hfew : FewUploads calls (RemoteCalls.works tr)) :
    RecordsPair r.inner.store (encodeTokensToBlobName (blockTokens tokens n))
      (combinedHash stdHash (blockTokens tokens n)) (parentOf stdHash tokens n) := by
  obtain ⟨i, hacknowledged, hno, htokens, hparent⟩ := h
  obtain ⟨o, ho, hok⟩ := RemoteRuns.acknowledged hruns hacknowledged
  have hrun := RemoteRuns.runs hruns
  have hrecorded := ((Runs.settled hrun i).finished ho hok).resolve_right
    fun ⟨p, hp, hswallowed⟩ => hno p hp hswallowed
  have hpair := hrecorded.recordsPair hrun hfew
  rwa [hcalls.hash_eq i, hparent, Call.blobName, htokens] at hpair

end

/-! ## Schedules -/

section

variable {ι : Type u} [DecidableEq ι] [Base64Url] {what : StdError → Text} {clients : ι → ClientImpl} {calls : Calls ι}

instance : DecidablePred (writeService what clients calls).Sends := fun i =>
  inferInstanceAs (Decidable ((clients i).initialized_ = true))

instance : DecidablePred (writeService what clients calls).Admits := fun _ =>
  inferInstanceAs (Decidable (_ ∧ _))

instance (i : ι) (a : Status × WriteResponse) :
    Decidable ((writeService what clients calls).Refuses i a) :=
  inferInstanceAs (Decidable (a = _))

variable (what clients calls) in
/-- The run of a schedule in which no operation on the storage meets an error. -/
def executeRemote (schedule : List (RemoteCalls.Action ι (Status × WriteResponse) ι)) :
    RemoteState ι → List (RemoteState ι × RemoteEvent ι) × RemoteState ι :=
  replay (RemoteCalls.State.next (writeService what clients calls)
    fun s i => s.act calls i none) schedule

theorem executeRemote_run (schedule : List (RemoteCalls.Action ι (Status × WriteResponse) ι))
    (r : RemoteState ι) : Run (RemoteStep what clients calls) r
      (executeRemote what clients calls schedule r).1
      (executeRemote what clients calls schedule r).2 :=
  RemoteCalls.replay_runs
    (fun h => System.act_step (fun _ _ hstatus => by cases hstatus) h) schedule r

end

section

attribute [local instance] Base64Url.unpadded

def oneClient : ClientImpl :=
  .afterInitialize "https://account.blob.core.windows.net".toList "container".toList

/-- The connection of client 2 breaks before its request arrives, and its write goes on, together
with that of client 1. -/
def brokenRun : List (RemoteState UInt64 × RemoteEvent UInt64) × RemoteState UInt64 :=
  executeRemote (fun _ => []) (fun _ => oneClient) twoVersions
    ([.invoke 0, .start 0, .work 0, .answer 0, .invoke 1, .invoke 2, .fail 2, .start 2, .start 1] ++
      [1, 2, 1, 2, 1, 2, 1, 2, 2, 2].map .work ++ [.answer 1])
    (.initial (System.initial Container.empty))

theorem remote_linearizable_broken : ∃ order : List UInt64, order.Nodup ∧
    [0, 1].Sublist order ∧ ∀ tokens,
      recordedVersions brokenRun.2.inner.store (encodeTokensToBlobName tokens) =
        .ok ((tableAfter twoVersions order).recorded (encodeTokensToBlobName tokens)) := by
  have hrun : RemoteRuns (fun _ => []) (fun _ => oneClient) twoVersions brokenRun.1 brokenRun.2 :=
    executeRemote_run _ _
  have hnew : ∀ p ∈ RemoteCalls.works brokenRun.1, PublishesNewHash twoVersions p.1 p.2 := by
    decide +kernel
  have hswallowed : ∀ n < 2, ∀ p ∈ RemoteCalls.works brokenRun.1,
      ¬ Swallowed (UInt64.ofNat n) p.1 p.2 := by decide +kernel
  have hanswered : ∀ n < 2, brokenRun.2.client (UInt64.ofNat n) = .answered (writeAnswer
      (fun _ => []) (fun _ => oneClient) twoVersions (UInt64.ofNat n) (some .uploaded)) := by
    decide +kernel
  have hok : ∀ n < 2, oneClient.writeAsync (.ok (writeAnswer (fun _ => []) (fun _ => oneClient)
      twoVersions (UInt64.ofNat n) (some .uploaded))) = .ok () := by decide +kernel
  have hbefore : RemoteCalls.AnsweredBefore brokenRun.1 0 1 := by
    unfold RemoteCalls.AnsweredBefore
    decide +kernel
  obtain ⟨order, hnodup, hrecorded, -, hacknowledged, hsorted⟩ := remote_linearizable hrun
    fun p hp => not_republishes_of_newHash (hnew p hp)
  have hmem : ∀ n < 2, UInt64.ofNat n ∈ order := by
    intro n hn
    refine (hacknowledged _ ⟨_, hanswered n hn, hok n hn⟩).resolve_right ?_
    exact fun ⟨p, hp, hsw⟩ => hswallowed n hn p hp hsw
  exact ⟨order, hnodup, hsorted 0 1 hbefore (hmem 0 (by decide)) (hmem 1 (by decide)), hrecorded⟩

/-- The first client waits, and the second one has not called yet. -/
def waitingRun : List (RemoteState Bool × RemoteEvent Bool) × RemoteState Bool :=
  executeRemote (fun _ => []) (fun _ => oneClient) bothCalls [.invoke false, .start false]
    (.initial (System.initial Container.empty))

theorem remote_terminates_waiting : ∃ tr r, Run (RemoteStep (fun _ => []) (fun _ => oneClient)
    bothCalls) waitingRun.2 tr r ∧ ∃ a, r.client false = .answered a := by
  have hrun : RemoteRuns (fun _ => []) (fun _ => oneClient) bothCalls waitingRun.1 waitingRun.2 :=
    executeRemote_run _ _
  obtain ⟨-, tr, r, htr, hanswers⟩ := remote_terminates hrun
  exact ⟨tr, r, htr.mono fun hs => hs.1, hanswers false (by decide +kernel)⟩

end

end KVStore
