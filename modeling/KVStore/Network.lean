import KVStore.Append
import KVStore.Lib.CompareAndSwap
import Mathlib.Data.List.Perm.Subperm

/-!
# Requests that arrive late

The SDK of the storage sends a request again when it hears no answer, and a request that it has
given up may still be on its way. Here the service performs what a call has sent at any later time,
any number of times, also when the call is over (`NetworkStep`); a call goes on with an answer to
its request, or with a storage error.

`delivered_at_most_once`: from any container and under any storage errors, each `SetMetadata` goes
through at most once nevertheless, and of each call at most `maxRetries` do.
-/

namespace KVStore

open Transition CompareAndSwap

universe u

/-- The ETag that an operation requires. -/
def BlobOp.ifMatch : BlobOp → Option ETag
  | .setMetadata _ _ etag => some etag
  | _ => none

/-! ## The ETags of a container -/

namespace Container

/-- Every ETag in use has been given out. -/
def WellTimed (c : Container) : Prop :=
  ∀ {name blob}, c.blobs name = some blob → blob.etag < c.clock

theorem WellTimed.empty : empty.WellTimed := fun h => by cases h

variable (c : Container) {name : Text}

theorem etag_put {name' : Text} {content : List UInt8} {metadata : Metadata} {etag : ETag}
    (h : etag ∈ ((c.put name' content metadata).blobs name).map Blob.etag) :
    etag ∈ (c.blobs name).map Blob.etag ∨ etag = c.clock ∧ c.clock < c.clock + 1 := by
  rcases eq_or_ne name name' with rfl | hne
  · rw [blobs_put_self] at h
    cases h
    exact Or.inr ⟨rfl, Nat.lt_succ_self _⟩
  · rw [blobs_put_ne _ hne] at h
    exact Or.inl h

theorem etag_remove {name' : Text} {etag : ETag}
    (h : etag ∈ ((c.remove name').blobs name).map Blob.etag) :
    etag ∈ (c.blobs name).map Blob.etag := by
  rcases eq_or_ne name name' with rfl | hne
  · rw [blobs_remove_self] at h
    cases h
  · rwa [blobs_remove_ne _ hne] at h

/-- An operation leaves the ETag of a blob, or takes the next one. -/
theorem etag_perform (op : BlobOp) {etag : ETag}
    (h : etag ∈ ((c.perform op).2.blobs name).map Blob.etag) :
    etag ∈ (c.blobs name).map Blob.etag ∨ etag = c.clock ∧ c.clock < (c.perform op).2.clock := by
  cases op with
  | upload name' content metadata => exact c.etag_put h
  | uploadIfNoneMatch name' content metadata =>
    cases hb : c.blobs name' with
    | none =>
      simp only [perform, hb] at h ⊢
      exact c.etag_put h
    | some blob =>
      simp only [perform, hb] at h
      exact Or.inl h
  | getProperties name' =>
    cases hb : c.blobs name' <;> (simp only [perform, hb] at h; exact Or.inl h)
  | delete name' =>
    rw [perform_delete] at h
    exact Or.inl (c.etag_remove h)
  | setMetadata name' metadata ifMatch =>
    cases hb : c.blobs name' with
    | none =>
      simp only [perform, hb] at h
      exact Or.inl h
    | some blob =>
      rw [perform_setMetadata _ hb] at h ⊢
      split at h
      · next he =>
        rw [if_pos he]
        exact c.etag_put h
      · exact Or.inl h

theorem clock_perform (op : BlobOp) : c.clock ≤ (c.perform op).2.clock := by
  cases op with
  | upload name' content metadata => exact Nat.le_succ _
  | uploadIfNoneMatch name' | getProperties name' | delete name' =>
    cases hb : c.blobs name' <;> simp [perform, hb, put, remove]
  | setMetadata name' metadata ifMatch =>
    cases hb : c.blobs name' with
    | none => simp [perform, hb]
    | some blob =>
      rw [perform_setMetadata _ hb]
      split
      · exact Nat.le_succ _
      · exact le_rfl

/-- A `SetMetadata` that goes through replaces the metadata that it was computed from. -/
theorem perform_setMetadata_done {metadata : Metadata} {ifMatch : ETag}
    (h : (c.perform (.setMetadata name metadata ifMatch)).1 = .done) :
    ∃ blob, c.blobs name = some blob ∧ blob.etag = ifMatch ∧
      (c.perform (.setMetadata name metadata ifMatch)).2 = c.put name blob.content metadata := by
  cases hb : c.blobs name with
  | none => simp [perform, hb] at h
  | some blob =>
    rw [perform_setMetadata _ hb] at h ⊢
    split at h
    · next he =>
      rw [if_pos he]
      exact ⟨blob, rfl, he, rfl⟩
    · cases h

end Container

/-! ## The network -/

/-- The system, and the requests that have been sent, with their callers. -/
structure Network (ι : Type u) where
  system : System ι
  sent : List (ι × BlobOp)

inductive NetworkEvent (ι : Type u)
  | send (i : ι) (op : BlobOp)
  /-- A request is performed, and nobody hears the answer. -/
  | arrive (i : ι) (op : BlobOp)
  | answer (e : Event ι)

def Network.initial {ι : Type u} (store : Container) : Network ι where
  system := System.initial store
  sent := []

def Network.setStore {ι : Type u} (n : Network ι) (store : Container) : Network ι :=
  { n with system := { n.system with store } }

/-- The operation of a step, with the answer to it. -/
def NetworkEvent.performed {ι : Type u} (n : Network ι) : NetworkEvent ι → Option (Event ι)
  | .send _ _ => none
  | .arrive i op => some { caller := i, op, response := (n.system.store.perform op).1 }
  | .answer e => some e

section

variable {ι : Type u}

/-- The operations of a run, in order. -/
def performed (tr : List (Network ι × NetworkEvent ι)) : List (Event ι) :=
  tr.filterMap fun p => p.2.performed p.1

/-- The `SetMetadata` operations on the blob `b` that went through. -/
def publications (b : Text) (tr : List (Network ι × NetworkEvent ι)) : List (Event ι) :=
  (performed tr).filter fun e => e.publishesTo b

/-- The operation of the event creates the blob `name`. -/
def Event.createsBlob (e : Event ι) (name : Text) : Bool :=
  match e.op, e.response with
  | .uploadIfNoneMatch name' _ _, .done => name' = name
  | _, _ => false

/-- The uploads that created the blob `b`. -/
def creations (b : Text) (tr : List (Network ι × NetworkEvent ι)) : List (Event ι) :=
  (performed tr).filter fun e => e.createsBlob b

variable [DecidableEq ι] [Base64Url] (F : Faults) (calls : Calls ι)

inductive NetworkStep : Network ι → NetworkEvent ι → Network ι → Prop
  | send {n : Network ι} {i : ι} {op : BlobOp}
      (h : (n.system.point i).request (calls.call i) = some op) :
      NetworkStep n (.send i op) { n with sent := n.sent ++ [(i, op)] }
  | arrive {n : Network ι} {i : ι} {op : BlobOp} (h : (i, op) ∈ n.sent) :
      NetworkStep n (.arrive i op) (n.setStore (n.system.store.perform op).2)
  | answer {n : Network ι} {e : Event ι} {s' : System ι} (h : Step F calls n.system e s') :
      NetworkStep n (.answer e) { n with system := s' }

abbrev NetworkRuns (store : Container) : List (Network ι × NetworkEvent ι) → Network ι → Prop :=
  Run (NetworkStep F calls) (Network.initial store)

variable {F calls} {store : Container} {tr : List (Network ι × NetworkEvent ι)}
  {n n' : Network ι} {e : NetworkEvent ι} {i : ι} {b : Text}

/-- When nothing is sent but what is answered, the calls run as they do without the network. -/
theorem Runs.network {tr : List (System ι × Event ι)} {s : System ι} (h : Runs F calls store tr s) :
    NetworkRuns F calls store
      (tr.map fun p => ({ system := p.1, sent := [] }, NetworkEvent.answer p.2))
      { system := s, sent := [] } :=
  Run.map (f := fun s : System ι => ({ system := s, sent := [] } : Network ι))
    (g := NetworkEvent.answer) .answer h

omit [DecidableEq ι] [Base64Url] in
theorem performed_snoc : performed (tr ++ [(n, e)]) = performed tr ++ (e.performed n).toList := by
  unfold performed
  rw [List.filterMap_append, List.filterMap_cons, List.filterMap_nil]
  cases e.performed n <;> rfl

/-- A step performs its operation, or fails it. -/
theorem NetworkStep.performs (hs : NetworkStep F calls n e n') :
    n'.system.store = n.system.store ∧
        (∀ p ∈ e.performed n, ∃ status, p.response = .storageException status) ∨
      ∃ p, e.performed n = some p ∧ p.response = (n.system.store.perform p.op).1 ∧
        n'.system.store = (n.system.store.perform p.op).2 := by
  cases hs with
  | send => exact Or.inl ⟨rfl, fun p hp => by cases hp⟩
  | arrive => exact Or.inr ⟨_, rfl, rfl, rfl⟩
  | answer h =>
    cases h with
    | served => exact Or.inr ⟨_, rfl, rfl, rfl⟩
    | @fault i op status =>
      refine Or.inl ⟨rfl, fun p hp => ?_⟩
      cases hp
      exact ⟨status, rfl⟩

/-! ## Each request goes through at most once -/

/-- The ETag of the blob `b` that a step's `SetMetadata` required, if that went through. -/
def NetworkEvent.swapped (b : Text) (n : Network ι) (e : NetworkEvent ι) : Option ETag :=
  ((e.performed n).filter fun p => p.publishesTo b).bind fun p => p.op.ifMatch

theorem NetworkStep.clock (hs : NetworkStep F calls n e n') :
    n.system.store.clock ≤ n'.system.store.clock := by
  rcases hs.performs with ⟨hstore, -⟩ | ⟨p, -, -, hstore⟩
  · rw [hstore]
  · rw [hstore]
    exact Container.clock_perform ..

theorem NetworkStep.etag (hs : NetworkStep F calls n e n') {etag : ETag}
    (h : etag ∈ (n'.system.store.blobs b).map Blob.etag) :
    etag ∈ (n.system.store.blobs b).map Blob.etag ∨
      etag = n.system.store.clock ∧ n.system.store.clock < n'.system.store.clock := by
  rcases hs.performs with ⟨hstore, -⟩ | ⟨p, -, -, hstore⟩
  · rw [hstore] at h
    exact Or.inl h
  · rw [hstore] at h ⊢
    exact Container.etag_perform _ _ h

theorem NetworkStep.swaps (hs : NetworkStep F calls n e n') {etag : ETag}
    (h : etag ∈ e.swapped b n) :
    etag ∈ (n.system.store.blobs b).map Blob.etag ∧
      n.system.store.clock < n'.system.store.clock ∧
      ∀ etag' ∈ (n'.system.store.blobs b).map Blob.etag, etag' = n.system.store.clock := by
  obtain ⟨p, hp, hmatch⟩ := Option.bind_eq_some_iff.mp h
  obtain ⟨hp, hpublishes⟩ := Option.filter_eq_some_iff.mp hp
  obtain ⟨⟨m, etag', hop⟩, hdone⟩ := publishesTo_iff.mp hpublishes
  rw [hop] at hmatch
  cases hmatch
  rcases hs.performs with ⟨-, hfault⟩ | ⟨p', hp', hresponse, hstore⟩
  · obtain ⟨status, he⟩ := hfault p hp
    cases hdone.symm.trans he
  · cases hp.symm.trans hp'
    rw [hop, hdone] at hresponse
    obtain ⟨blob, hblob, rfl, hput⟩ := Container.perform_setMetadata_done _ hresponse.symm
    rw [hstore, hop, hput, hblob, Container.blobs_put_self]
    refine ⟨rfl, Nat.lt_succ_self _, fun etag' he => ?_⟩
    cases he
    rfl

variable (F calls) in
/-- A blob with its ETag. -/
def blobRegister (b : Text) : Register (NetworkStep F calls) where
  tag n := (n.system.store.blobs b).map Blob.etag
  clock n := n.system.store.clock
  swapped n e := e.swapped b n
  step_clock := NetworkStep.clock
  step_tag hs _ := hs.etag
  step_swapped hs _ := hs.swaps

omit [DecidableEq ι] [Base64Url] in
theorem ifMatch_of_mem_publications {p : Event ι} (hp : p ∈ publications b tr) :
    ∃ etag, p.op.ifMatch = some etag := by
  obtain ⟨-, hpublishes⟩ := List.mem_filter.mp hp
  obtain ⟨⟨m, etag, hop⟩, -⟩ := publishesTo_iff.mp hpublishes
  exact ⟨etag, by rw [hop]; rfl⟩

/-- The publications require different ETags, each one a later one. -/
theorem publications_increasing (h : NetworkRuns F calls store tr n) (h₀ : store.WellTimed) :
    ((publications b tr).filterMap fun p => p.op.ifMatch).Pairwise (· < ·) := by
  have htag : ∀ etag ∈ (blobRegister F calls b).tag (Network.initial store),
      etag < (blobRegister F calls b).clock (Network.initial store) := by
    intro etag hetag
    obtain ⟨blob, hblob, rfl⟩ := Option.map_eq_some_iff.mp hetag
    exact h₀ hblob
  have hswaps : (blobRegister F calls b).swaps tr =
      (publications b tr).filterMap fun p => p.op.ifMatch := by
    unfold Register.swaps publications performed
    rw [List.filter_filterMap, List.filterMap_filterMap]
    rfl
  rw [← hswaps]
  exact Register.swaps_increasing htag h

end

/-! ## The attempts of a call -/

namespace WritePoint

/-- How many times the call has issued `SetMetadata`, at most, when it has issued this one. -/
def attempts : WritePoint → Nat
  | .upload | .getProperties | .guidUpload _ => 0
  | .refetch retry _ | .evict retry _ => retry
  | .setMetadata retry _ => retry + 1
  | .finished _ => maxRetries

/-- The ETag that the call is about to require. -/
def required : WritePoint → Option ETag
  | .setMetadata _ l => some l.currentETag
  | _ => none

def Tries : WritePoint → Prop
  | .refetch retry _ | .evict retry _ | .setMetadata retry _ => retry < maxRetries
  | _ => True

/-- The call comes to the point after at most `k` attempts. -/
def After (k : Nat) (point : WritePoint) : Prop :=
  point.Tries ∧ k + point.required.toList.length ≤ point.attempts

variable {call : Call} {point : WritePoint} {retry k : Nat} {l : WriteLocals}

theorem ifMatch_of_request [Base64Url] {op : BlobOp} (hreq : point.request call = some op) :
    op.ifMatch = point.required := by
  cases point with
  | evict retry l =>
    obtain ⟨v, -, rfl⟩ := Option.map_eq_some_iff.mp hreq
    rfl
  | finished o => cases hreq
  | _ =>
    cases hreq
    rfl

theorem After.mono {j : Nat} (h : point.After k) (hle : j ≤ k) : point.After j :=
  ⟨h.1, (Nat.add_le_add_right hle _).trans h.2⟩

theorem after_finished {o : WriteOutcome} (hk : k ≤ maxRetries) : (finished o).After k :=
  ⟨trivial, hk⟩

theorem after_evictOrUpdate (h : retry < maxRetries) : (evictOrUpdate retry l).After retry := by
  unfold evictOrUpdate
  split <;> exact ⟨h, le_rfl⟩

theorem after_onProperties {etag : ETag} {metadata : Metadata} :
    (onProperties call etag metadata).After 0 := by
  unfold onProperties
  repeat' split
  all_goals exact ⟨trivial, Nat.zero_le _⟩

theorem after_onRefetch {etag : ETag} {metadata : Metadata} (h : retry < maxRetries) :
    (onRefetch call retry l etag metadata).After retry := by
  unfold onRefetch
  split
  · exact after_evictOrUpdate h
  · split
    · exact after_finished h.le
    · exact after_evictOrUpdate h

theorem after_onMetadataException {status : HttpStatusCode} (h : retry < maxRetries) :
    (onMetadataException retry l status).After (retry + 1) := by
  unfold onMetadataException
  split
  · split
    · exact after_finished h
    · next hne =>
      have hlt : retry + 1 < maxRetries := by omega
      exact ⟨hlt, le_rfl⟩
  · exact after_finished h

/-- The code between two operations counts the attempts. -/
theorem After.resume (h : point.Tries) (response : BlobResponse) :
    (point.resume call response).After point.attempts := by
  have hpos : 0 < maxRetries := by decide
  cases point with
  | upload =>
    cases response with
    | storageException status =>
      rw [WritePoint.resume]
      split
      · exact ⟨trivial, le_rfl⟩
      · exact after_finished hpos.le
    | done | properties => exact after_finished hpos.le
  | getProperties =>
    cases response with
    | properties etag metadata => exact after_onProperties
    | storageException status => exact after_finished hpos.le
    | done => exact ⟨trivial, le_rfl⟩
  | guidUpload l =>
    cases response with
    | storageException status => exact after_finished hpos.le
    | done | properties => exact after_evictOrUpdate hpos
  | refetch retry l =>
    cases response with
    | properties etag metadata => exact after_onRefetch h
    | storageException status => exact (after_onMetadataException h).mono (Nat.le_succ _)
    | done => exact ⟨h, le_rfl⟩
  | evict retry l =>
    rw [resume_evict]
    exact after_evictOrUpdate h
  | setMetadata retry l =>
    cases response with
    | storageException status => exact after_onMetadataException h
    | done | properties => exact after_finished h
  | finished o => cases response <;> exact after_finished le_rfl

end WritePoint

section

variable {ι : Type u} [DecidableEq ι] [Base64Url] {F : Faults} {calls : Calls ι}
  {store : Container} {tr : List (Network ι × NetworkEvent ι)} {n n' : Network ι}
  {e : NetworkEvent ι} {i : ι} {etags : List ETag}

/-- Call `i` has required no ETags but `etags`, one an attempt. -/
structure Required (tr : List (Network ι × NetworkEvent ι)) (n : Network ι) (i : ι)
    (etags : List ETag) : Prop where
  tries : (n.system.point i).Tries
  length_le : etags.length ≤ (n.system.point i).attempts
  next : ∀ etag ∈ (n.system.point i).required, etag ∈ etags
  sent : ∀ p ∈ n.sent, p.1 = i → ∀ etag ∈ p.2.ifMatch, etag ∈ etags
  performed : ∀ p ∈ performed tr, p.caller = i → ∀ etag ∈ p.op.ifMatch, etag ∈ etags

omit [DecidableEq ι] [Base64Url] in
theorem Required.attempts_le (h : Required tr n i etags) : etags.length ≤ maxRetries := by
  have hlen := h.length_le
  have htries := h.tries
  generalize n.system.point i = point at hlen htries
  cases point with
  | upload | getProperties | guidUpload => exact hlen.trans (Nat.zero_le _)
  | refetch retry l | evict retry l => exact hlen.trans (Nat.le_of_lt htries)
  | setMetadata retry l => exact hlen.trans htries
  | finished o => exact hlen

omit [DecidableEq ι] [Base64Url] in
theorem Required.initial : Required [] (Network.initial store) i [] where
  tries := trivial
  length_le := le_rfl
  next _ h := by cases h
  sent _ h := by cases h
  performed _ h := by cases h

theorem Required.step (h : Required tr n i etags) (hs : NetworkStep F calls n e n') :
    ∃ etags', Required (tr ++ [(n, e)]) n' i etags' := by
  cases hs with
  | @send i' op hreq =>
    refine ⟨etags, h.tries, h.length_le, h.next, ?_, ?_⟩
    · rw [List.forall_mem_append, List.forall_mem_singleton]
      refine ⟨h.sent, ?_⟩
      rintro rfl etag hetag
      rw [WritePoint.ifMatch_of_request hreq] at hetag
      exact h.next etag hetag
    · rw [performed_snoc]
      simpa [NetworkEvent.performed] using h.performed
  | @arrive i' op hsent =>
    refine ⟨etags, h.tries, h.length_le, h.next, h.sent, ?_⟩
    rw [performed_snoc, List.forall_mem_append]
    refine ⟨h.performed, fun p hp => ?_⟩
    obtain rfl := List.mem_singleton.mp hp
    exact h.sent _ hsent
  | @answer p s' hs =>
    have hanswered : ∀ q ∈ KVStore.performed (tr ++ [(n, .answer p)]), q.caller = i →
        ∀ etag ∈ q.op.ifMatch, etag ∈ etags := by
      rw [performed_snoc, List.forall_mem_append]
      refine ⟨h.performed, fun q hq => ?_⟩
      obtain rfl := List.mem_singleton.mp hq
      rintro rfl etag hetag
      rw [WritePoint.ifMatch_of_request hs.request] at hetag
      exact h.next etag hetag
    by_cases hi : i = p.caller
    · subst hi
      have hafter : (s'.point p.caller).After (n.system.point p.caller).attempts := by
        rw [hs.point_caller]
        exact WritePoint.After.resume h.tries p.response
      refine ⟨etags ++ (s'.point p.caller).required.toList, hafter.1, ?_, ?_, ?_, ?_⟩
      · rw [List.length_append]
        exact (Nat.add_le_add_right h.length_le _).trans hafter.2
      · exact fun etag hetag => List.mem_append_right _ (Option.mem_toList.mpr hetag)
      · exact fun q hq hi etag hetag => List.mem_append_left _ (h.sent q hq hi etag hetag)
      · exact fun q hq hi etag hetag => List.mem_append_left _ (hanswered q hq hi etag hetag)
    · have hpoint := hs.point_of_ne hi
      exact ⟨etags, hpoint ▸ h.tries, hpoint ▸ h.length_le, hpoint ▸ h.next, h.sent, hanswered⟩

theorem NetworkRuns.required (h : NetworkRuns F calls store tr n) (i : ι) :
    ∃ etags, Required tr n i etags := by
  induction h with
  | nil => exact ⟨[], .initial⟩
  | snoc _ hs ih =>
    obtain ⟨etags, hrequired⟩ := ih
    exact hrequired.step hs

/-- However often requests are repeated and however late they come, each `SetMetadata` goes through
at most once, and of each call at most `maxRetries` do. -/
theorem delivered_at_most_once (h : NetworkRuns F calls store tr n) (h₀ : store.WellTimed)
    (b : Text) : ((publications b tr).map Event.op).Nodup ∧
      ∀ i, ((publications b tr).countP fun p => p.caller = i) ≤ maxRetries := by
  have hincreasing := publications_increasing (b := b) h h₀
  rw [List.pairwise_filterMap] at hincreasing
  refine ⟨?_, fun i => ?_⟩
  · rw [List.Nodup, List.pairwise_map]
    refine hincreasing.imp_of_mem fun {p q} hp hq hlt hop => ?_
    obtain ⟨etag, hetag⟩ := ifMatch_of_mem_publications hp
    exact Nat.lt_irrefl _ (hlt etag hetag etag (hop ▸ hetag))
  · obtain ⟨etags, hrequired⟩ := NetworkRuns.required h i
    let own := (publications b tr).filter fun p => p.caller = i
    have hsome : ∀ p ∈ own, (p.op.ifMatch).isSome := by
      intro p hp
      obtain ⟨etag, hetag⟩ := ifMatch_of_mem_publications (List.mem_of_mem_filter hp)
      rw [hetag]
      rfl
    have hnodup : (own.filterMap fun p => p.op.ifMatch).Nodup := by
      rw [List.Nodup, List.pairwise_filterMap]
      refine (hincreasing.sublist List.filter_sublist).imp fun hlt etag h etag' h' => ?_
      exact Nat.ne_of_lt (hlt etag h etag' h')
    have hsubset : own.filterMap (fun p => p.op.ifMatch) ⊆ etags := by
      intro etag hetag
      obtain ⟨p, hp, hmatch⟩ := List.mem_filterMap.mp hetag
      obtain ⟨hp, hcaller⟩ := List.mem_filter.mp hp
      have hp := List.mem_of_mem_filter hp
      exact hrequired.performed p hp (of_decide_eq_true hcaller) etag hmatch
    calc (publications b tr).countP (fun p => p.caller = i)
      _ = own.length := List.countP_eq_length_filter ..
      _ = (own.filterMap fun p => p.op.ifMatch).length :=
        (List.filterMap_length_eq_length.mpr hsome).symm
      _ ≤ etags.length := (hnodup.subperm hsubset).length_le
      _ ≤ maxRetries := hrequired.attempts_le

/-! ## Executing schedules -/

/-- What happens next: call `i` sends its request, or hears an answer or a storage error; or a
request arrives that has been sent, by its number. -/
inductive Delivery (ι : Type u)
  | send (i : ι)
  | arrive (number : Nat)
  | answer (i : ι) (fault : Option HttpStatusCode)

variable (calls) in
def Network.act (n : Network ι) : Delivery ι → Option (NetworkEvent ι × Network ι)
  | .send i => ((n.system.point i).request (calls.call i)).map fun op =>
    (.send i op, { n with sent := n.sent ++ [(i, op)] })
  | .arrive number => n.sent[number]?.map fun p =>
    (.arrive p.1 p.2, n.setStore (n.system.store.perform p.2).2)
  | .answer i fault => (n.system.act calls i fault).map fun p =>
    (.answer p.1, { n with system := p.2 })

theorem Network.act_step {d : Delivery ι}
    (hF : ∀ i status, d = .answer i (some status) → ∀ op, F op status)
    (h : n.act calls d = some (e, n')) : NetworkStep F calls n e n' := by
  cases d with
  | send i =>
    obtain ⟨op, hreq, he⟩ := Option.map_eq_some_iff.mp h
    cases he
    exact .send hreq
  | arrive number =>
    obtain ⟨p, hp, he⟩ := Option.map_eq_some_iff.mp h
    cases he
    exact .arrive (List.mem_of_getElem? hp)
  | answer i fault =>
    obtain ⟨p, hact, he⟩ := Option.map_eq_some_iff.mp h
    cases he
    refine .answer (System.act_step (fun op status hstatus => ?_) hact)
    cases hstatus
    exact hF i status rfl op

variable (calls) in
/-- The trace and the last state of a schedule. -/
def executeNetwork (schedule : List (Delivery ι)) (n : Network ι) :
    List (Network ι × NetworkEvent ι) × Network ι :=
  replay (Network.act calls) schedule n

theorem executeNetwork_run {schedule : List (Delivery ι)}
    (hF : ∀ d ∈ schedule, ∀ i status, d = .answer i (some status) → ∀ op, F op status) :
    Run (NetworkStep F calls) n (executeNetwork calls schedule n).1
      (executeNetwork calls schedule n).2 :=
  replay_run fun d hd _ _ _ he => Network.act_step (hF d hd) he

end

/-! ## A call whose answers are lost -/

section

attribute [local instance] Base64Url.unpadded

/-- The `SetMetadata` of the second call goes through, the answer is lost, and when the request is
sent again it fails its precondition. -/
def lostAnswer (number : Nat) : List (Delivery UInt64) :=
  [.send 1, .arrive number, .answer 1 none]

/-- The second call loses the answers to all its `SetMetadata` requests. -/
def lostAnswers : List (Delivery UInt64) :=
  [.answer 0 none, .answer 1 none, .answer 1 none, .answer 1 none] ++
    lostAnswer 0 ++ [.answer 1 none] ++ lostAnswer 1 ++ [.answer 1 none] ++
    lostAnswer 2 ++ [.answer 1 none] ++ lostAnswer 3 ++ [.answer 1 none] ++ lostAnswer 4

def lostAnswersRun : List (Network UInt64 × NetworkEvent UInt64) × Network UInt64 :=
  executeNetwork twoVersions lostAnswers (Network.initial Container.empty)

theorem lostAnswersRun_run {F : Faults} :
    NetworkRuns F twoVersions Container.empty lostAnswersRun.1 lostAnswersRun.2 := by
  refine executeNetwork_run fun d hd i status he => ?_
  subst he
  simp [lostAnswers, lostAnswer] at hd

/-- As many requests of a call go through as it has attempts. -/
theorem delivered_at_most_once_lostAnswers :
    let published := publications (encodeTokensToBlobName [0]) lostAnswersRun.1
    (published.map Event.op).Nodup ∧ (published.countP fun p => p.caller = 1) = maxRetries :=
  ⟨(delivered_at_most_once (lostAnswersRun_run (F := noFaults))
    Container.WellTimed.empty _).1, by decide +kernel⟩

end

end KVStore
