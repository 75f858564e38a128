import KVStore.StreamingRead

/-!
# The order of streamed answers

Answers travel in the order in which they are queued: rejected requests when they are read, the
others when their threads end. The client takes them for the answers to its locations, one by one.
`streamingRead_inOrder_iff`: on a stream without failures its results are right exactly when each
location has the same answer as the one that was answered in its place.
-/

namespace KVStore

open Transition

/-! ## Sending -/

section

variable (r : StreamingReadReactor)

theorem StreamingReadReactor.trySendNextResponse_cases :
    r.trySendNextResponse = (r, []) ∧
      (r.write_in_progress_ = true ∨ r.response_queue_ = []) ∨
    ∃ response queue, r.write_in_progress_ = false ∧ r.response_queue_ = response :: queue ∧
      r.trySendNextResponse = ({ r with
        current_response_ := some response
        response_queue_ := queue
        write_in_progress_ := true
        pending_writes_ := r.pending_writes_ + 1 }, [.startWrite response]) := by
  unfold StreamingReadReactor.trySendNextResponse
  split
  · next response queue hw hq => exact Or.inr ⟨response, queue, hw, hq, rfl⟩
  · next hno =>
    refine Or.inl ⟨rfl, ?_⟩
    rcases hw : r.write_in_progress_ with _ | _
    · rcases hq : r.response_queue_ with _ | ⟨response, queue⟩
      · exact Or.inr rfl
      · exact absurd hq (hno _ _ hw)
    · exact Or.inl rfl

/-- Sending does not look at the number of threads. -/
theorem StreamingReadReactor.trySendNextResponse_active (n : Int) :
    ({ r with active_threads_ := n } : StreamingReadReactor).trySendNextResponse =
      ({ r.trySendNextResponse.1 with active_threads_ := n }, r.trySendNextResponse.2) := by
  unfold StreamingReadReactor.trySendNextResponse
  dsimp only
  split <;> rfl

end

namespace Stream

variable {service : ReadService} {s : Stream} {request : ReadRequest} {response : ReadResponse}

/-- The reactor's answer is queued, and sent if nothing else is on its way. -/
def push (s : Stream) (response : ReadResponse) : Stream :=
  s.run (s.reactor.pushResponse response)

def finishIfDone (s : Stream) : Stream := s.reactor.finishIfDone.foldl start s

theorem afterRequest_thread (hr : s.reading = true) (h : service.StartsThread request) :
    s.afterRequest service request = { s with
      reactor := { s.reactor with active_threads_ := s.reactor.active_threads_ + 1 }
      threads := s.threads ++ [(request, s.received)]
      received := s.received + 1 } := by
  obtain ⟨hcomplete, hstore⟩ := h
  obtain ⟨store, hstore⟩ := Option.isSome_iff_exists.mp hstore
  obtain ⟨reactor, received, reading, writes, threads, delivered, finishes, broken⟩ := s
  subst hr
  unfold afterRequest StreamingReadReactor.onReadDone StreamingReadReactor.processRequest
  simp only [if_neg hcomplete, hstore]
  rfl

theorem afterRequest_reject (hr : s.reading = true) (h : ¬ service.StartsThread request) :
    s.afterRequest service request =
      { s with received := s.received + 1 }.push (service.response request) := by
  have hprocess : s.reactor.processRequest service request =
      s.reactor.pushResponse (service.response request) := by
    unfold StreamingReadReactor.processRequest ReadService.response
    split
    · rfl
    · next hcomplete =>
      split
      · rfl
      · next store hstore => exact absurd ⟨hcomplete, by rw [hstore]; rfl⟩ h
  obtain ⟨reactor, received, reading, writes, threads, delivered, finishes, broken⟩ := s
  subst hr
  unfold afterRequest StreamingReadReactor.onReadDone push
  simp only [hprocess]
  unfold StreamingReadReactor.pushResponse
  generalize hr : ({ reactor with
    response_queue_ := reactor.response_queue_ ++ [service.response request] } :
      StreamingReadReactor) = r
  rcases r.trySendNextResponse_cases with ⟨he, -⟩ | ⟨response, queue, -, -, he⟩ <;>
    simp only [he] <;> rfl

theorem afterWrite_eq (response : ReadResponse) (rest : List ReadResponse) :
    s.afterWrite response rest =
      let r := { s.reactor with
        pending_writes_ := s.reactor.pending_writes_ - 1
        write_in_progress_ := false }
      ({ s with writes := rest, delivered := s.delivered ++ [response], reactor := r }.run
        r.trySendNextResponse).finishIfDone := by
  unfold afterWrite StreamingReadReactor.onWriteDone
  dsimp only
  rw [if_pos rfl]
  generalize ({ s.reactor with
    pending_writes_ := s.reactor.pending_writes_ - 1
    write_in_progress_ := false } : StreamingReadReactor) = r
  rcases r.trySendNextResponse_cases with ⟨he, -⟩ | ⟨response, queue, -, -, he⟩ <;>
    simp only [he] <;> rfl

theorem afterThread_eq (h : s.reactor.shutdown_ = false) (thread : ReadRequest × Nat) :
    s.afterThread service thread =
      ({ s with
        threads := s.threads.erase thread
        reactor := { s.reactor with
          active_threads_ := s.reactor.active_threads_ - 1 } }.push
        (service.response thread.1)).finishIfDone := by
  unfold afterThread StreamingReadReactor.onThreadDone push StreamingReadReactor.pushResponse
  rw [if_neg (by simp [h])]
  dsimp only
  generalize hr : ({ s.reactor with
    response_queue_ := s.reactor.response_queue_ ++ [service.response thread.1] } :
      StreamingReadReactor) = r
  have hactive := r.trySendNextResponse_active (s.reactor.active_threads_ - 1)
  have hpush : ({ s.reactor with
      active_threads_ := s.reactor.active_threads_ - 1
      response_queue_ := s.reactor.response_queue_ ++ [service.response thread.1] } :
        StreamingReadReactor) = { r with active_threads_ := s.reactor.active_threads_ - 1 } := by
    rw [← hr]
  have hthreads : r.active_threads_ = s.reactor.active_threads_ := by rw [← hr]
  rw [hpush, hactive]
  rcases r.trySendNextResponse_cases with ⟨he, -⟩ | ⟨response, queue, -, -, he⟩ <;>
    simp only [he, hthreads] <;> rfl

end Stream

/-! ## The invariant -/

section

variable (service : ReadService) (requests : List ReadRequest)

/-- A stream without failures, between two callbacks or in one; `tickets` are the requests that have
been answered, in the order in which their answers were queued. -/
structure Stream.Ordered (tickets : List (ReadRequest × Nat)) (s : Stream) : Prop where
  writes : s.writes.length = if s.reactor.write_in_progress_ then 1 else 0
  pending : s.reactor.pending_writes_ = s.writes.length
  active : s.reactor.active_threads_ = s.threads.length
  queued : s.delivered ++ (s.writes ++ s.reactor.response_queue_) =
    tickets.map fun ticket => service.response ticket.1
  tickets_perm : (tickets ++ s.threads).Perm (requests.take s.received).zipIdx
  received_le : s.received ≤ requests.length
  client : s.reactor.client_done_ = !s.reading
  ended : s.reactor.client_done_ = true → s.received = requests.length
  finished : s.finishes ≠ [] → s.reactor.client_done_ = true ∧ s.writes = [] ∧ s.threads = []
  shutdown : s.reactor.shutdown_ = true → s.finishes ≠ []
  intact : s.broken = false

/-- Nothing waits while no write is on its way. -/
def Stream.Drained (s : Stream) : Prop :=
  s.reactor.write_in_progress_ = false → s.reactor.response_queue_ = []

variable {service requests} {tickets : List (ReadRequest × Nat)} {s s' : Stream} {e : StreamEvent}

theorem Stream.Ordered.initial : Stream.Ordered service requests [] {} where
  writes := rfl
  pending := rfl
  active := rfl
  queued := rfl
  tickets_perm := by simp
  received_le := Nat.zero_le _
  client := rfl
  ended h := by cases h
  finished h := absurd rfl h
  shutdown h := by cases h
  intact := rfl

theorem Stream.Ordered.idle (h : s.Ordered service requests tickets) (hw : s.writes = []) :
    s.reactor.write_in_progress_ = false := by
  have hlen := h.writes
  rw [hw] at hlen
  cases hprogress : s.reactor.write_in_progress_ with
  | false => rfl
  | true =>
    rw [hprogress] at hlen
    cases hlen

theorem Stream.Ordered.writes_tail {response : ReadResponse} {rest : List ReadResponse}
    (h : s.Ordered service requests tickets) (hw : s.writes = response :: rest) : rest = [] := by
  have hlen := h.writes
  rw [hw, List.length_cons] at hlen
  split at hlen
  · exact List.length_eq_zero_iff.mp (Nat.succ.inj hlen)
  · cases hlen

/-- Sending keeps the order. -/
theorem Stream.Ordered.send (h : s.Ordered service requests tickets) (hf : s.finishes = []) :
    (s.run s.reactor.trySendNextResponse).Ordered service requests tickets ∧
      (s.run s.reactor.trySendNextResponse).Drained ∧
      (s.run s.reactor.trySendNextResponse).finishes = [] := by
  rcases s.reactor.trySendNextResponse_cases with ⟨he, hstop⟩ | ⟨response, queue, hw, hq, he⟩
  · rw [he]
    refine ⟨h, fun hw => hstop.resolve_left ?_, hf⟩
    exact Bool.eq_false_iff.mp hw
  · have hwrites : s.writes = [] := by
      rw [← List.length_eq_zero_iff, h.writes, hw]
      rfl
    have hqueued := h.queued
    rw [hwrites, hq] at hqueued
    rw [he]
    refine ⟨{ h with
      writes := ?_, pending := ?_, queued := ?_, finished := fun hne => absurd hf hne }, ?_, hf⟩
    · show (s.writes ++ [response]).length = 1
      rw [hwrites]
      rfl
    · show s.reactor.pending_writes_ + 1 = ((s.writes ++ [response]).length : Int)
      rw [h.pending, hwrites]
      rfl
    · show s.delivered ++ (s.writes ++ [response] ++ queue) = _
      rw [hwrites]
      exact hqueued
    · intro hw
      cases hw

theorem Stream.Ordered.finishIfDone (h : s.Ordered service requests tickets) (hd : s.Drained) :
    s.finishIfDone.Ordered service requests tickets ∧ s.finishIfDone.Drained := by
  unfold Stream.finishIfDone StreamingReadReactor.finishIfDone
  split
  · next hdone =>
    obtain ⟨hclient, hpending, hactive, -⟩ := hdone
    refine ⟨{ h with finished := fun _ => ⟨hclient, ?_, ?_⟩, shutdown := fun _ => ?_ }, hd⟩
    · rw [h.pending] at hpending
      exact List.length_eq_zero_iff.mp (Int.ofNat.inj hpending)
    · rw [h.active] at hactive
      exact List.length_eq_zero_iff.mp (Int.ofNat.inj hactive)
    · exact List.append_ne_nil_of_right_ne_nil _ (List.cons_ne_nil _ _)
  · exact ⟨h, hd⟩

/-- The request that a callback answers, by itself or as the end of its thread. -/
def answeredBy (service : ReadService) (s : Stream) : StreamEvent → Option (ReadRequest × Nat)
  | .readDone (some request) =>
    if service.StartsThread request then none else some (request, s.received)
  | .threadDone thread => some thread
  | _ => none

/-- A stream that has finished gets no callback but `OnDone`. -/
theorem Stream.Ordered.finishes_eq_nil (h : s.Ordered service requests tickets)
    (hs : StreamStep service requests s e s') (he : e ≠ .done) : s.finishes = [] := by
  by_contra hf
  obtain ⟨hclient, hwrites, hthreads⟩ := h.finished hf
  have hreading : s.reading = false := by
    have hc := h.client
    rw [hclient] at hc
    exact Bool.not_eq_true' _ |>.mp hc.symm
  cases hs with
  | request hr | readEnd hr => cases hreading.symm.trans hr
  | written hw | failed hw => cases hwrites.symm.trans hw
  | threadDone ht =>
    rw [hthreads] at ht
    cases ht
  | done => exact he rfl

theorem zipIdx_take_succ {request : ReadRequest} {n : Nat} (h : requests[n]? = some request) :
    (requests.take (n + 1)).zipIdx = (requests.take n).zipIdx ++ [(request, n)] := by
  obtain ⟨hlt, -⟩ := List.getElem?_eq_some_iff.mp h
  rw [List.take_add_one, h, List.zipIdx_append, List.length_take_of_le hlt.le, Nat.zero_add]
  rfl

theorem Stream.Ordered.thread {request : ReadRequest}
    (h : s.Ordered service requests tickets) (hr : s.reading = true) (hf : s.finishes = [])
    (hreq : requests[s.received]? = some request) (hthread : service.StartsThread request) :
    (s.afterRequest service request).Ordered service requests tickets := by
  obtain ⟨hlt, -⟩ := List.getElem?_eq_some_iff.mp hreq
  rw [Stream.afterRequest_thread hr hthread]
  refine { h with
    active := ?_, tickets_perm := ?_, received_le := hlt, ended := fun hc => ?_,
    finished := fun hne => absurd hf hne }
  · rw [h.active, List.length_append]
    rfl
  · rw [zipIdx_take_succ hreq, ← List.append_assoc]
    exact h.tickets_perm.append_right _
  · cases (h.client.symm.trans hc).symm.trans (congrArg _ hr)

theorem Stream.Ordered.queued_append (h : s.Ordered service requests tickets)
    (ticket : ReadRequest × Nat) :
    s.delivered ++ (s.writes ++ (s.reactor.response_queue_ ++ [service.response ticket.1])) =
      (tickets ++ [ticket]).map fun ticket => service.response ticket.1 := by
  rw [List.map_append, ← h.queued, List.append_assoc, List.append_assoc]
  rfl

theorem Stream.Ordered.reject {request : ReadRequest}
    (h : s.Ordered service requests tickets) (hr : s.reading = true) (hf : s.finishes = [])
    (hreq : requests[s.received]? = some request) (hthread : ¬ service.StartsThread request) :
    (s.afterRequest service request).Ordered service requests
        (tickets ++ [(request, s.received)]) ∧
      (s.afterRequest service request).Drained := by
  obtain ⟨hlt, -⟩ := List.getElem?_eq_some_iff.mp hreq
  rw [Stream.afterRequest_reject hr hthread]
  refine And.imp_right And.left (Stream.Ordered.send (s := { s with
    received := s.received + 1
    reactor := { s.reactor with
      response_queue_ := s.reactor.response_queue_ ++ [service.response request] } })
    { h with
      queued := h.queued_append (request, s.received), tickets_perm := ?_, received_le := hlt,
      ended := fun hc => ?_ } hf)
  · rw [zipIdx_take_succ hreq, List.append_assoc]
    apply (List.perm_append_comm.append_left tickets).trans
    rw [← List.append_assoc]
    exact h.tickets_perm.append_right _
  · cases (h.client.symm.trans hc).symm.trans (congrArg _ hr)

theorem Stream.Ordered.readEnd (h : s.Ordered service requests tickets) (hf : s.finishes = [])
    (hend : s.received = requests.length) :
    (s.afterReadEnd service).Ordered service requests tickets := by
  have hclosed : ({ s with
      reading := false
      reactor := { s.reactor with client_done_ := true } } : Stream).Ordered service requests
        tickets :=
    { h with client := rfl, ended := fun _ => hend, finished := fun hne => absurd hf hne }
  unfold Stream.afterReadEnd StreamingReadReactor.onReadDone
  dsimp only
  split
  · next hdone =>
    refine { hclosed with
      finished := fun _ => ⟨rfl, ?_, ?_⟩
      shutdown := fun _ => List.append_ne_nil_of_right_ne_nil _ (List.cons_ne_nil _ _) }
    · exact List.length_eq_zero_iff.mp (Int.ofNat.inj (h.pending.symm.trans hdone.1))
    · exact List.length_eq_zero_iff.mp (Int.ofNat.inj (h.active.symm.trans hdone.2))
  · exact hclosed

theorem Stream.Ordered.written {response : ReadResponse} {rest : List ReadResponse}
    (h : s.Ordered service requests tickets) (hf : s.finishes = [])
    (hw : s.writes = response :: rest) :
    (s.afterWrite response rest).Ordered service requests tickets ∧
      (s.afterWrite response rest).Drained := by
  have hrest := h.writes_tail hw
  have hpending : s.reactor.pending_writes_ - 1 = (rest.length : Int) := by
    rw [h.pending, hw, List.length_cons]
    omega
  have hqueued : s.delivered ++ [response] ++ (rest ++ s.reactor.response_queue_) =
      tickets.map fun ticket => service.response ticket.1 := by
    rw [← h.queued, hw]
    simp
  rw [Stream.afterWrite_eq]
  obtain ⟨hordered, hdrained, -⟩ := Stream.Ordered.send (s := { s with
    writes := rest
    delivered := s.delivered ++ [response]
    reactor := { s.reactor with
      pending_writes_ := s.reactor.pending_writes_ - 1
      write_in_progress_ := false } })
    { h with
      writes := congrArg List.length hrest, pending := hpending, queued := hqueued,
      finished := fun hne => absurd hf hne } hf
  exact hordered.finishIfDone hdrained

theorem Stream.Ordered.threadDone {thread : ReadRequest × Nat}
    (h : s.Ordered service requests tickets) (hf : s.finishes = []) (ht : thread ∈ s.threads) :
    (s.afterThread service thread).Ordered service requests (tickets ++ [thread]) ∧
      (s.afterThread service thread).Drained := by
  have hrunning : s.reactor.shutdown_ = false := by
    rw [← Bool.not_eq_true]
    exact fun hs => h.shutdown hs hf
  have hactive : s.reactor.active_threads_ - 1 = ((s.threads.erase thread).length : Int) := by
    have hpos := List.length_pos_of_mem ht
    rw [h.active, List.length_erase_of_mem ht]
    omega
  have hperm : (tickets ++ [thread] ++ s.threads.erase thread).Perm
      (requests.take s.received).zipIdx := by
    rw [List.append_assoc]
    exact ((List.perm_cons_erase ht).symm.append_left tickets).trans h.tickets_perm
  rw [Stream.afterThread_eq hrunning]
  obtain ⟨hordered, hdrained, -⟩ := Stream.Ordered.send (s := { s with
    threads := s.threads.erase thread
    reactor := { s.reactor with
      active_threads_ := s.reactor.active_threads_ - 1
      response_queue_ := s.reactor.response_queue_ ++ [service.response thread.1] } })
    { h with
      active := hactive, queued := h.queued_append thread, tickets_perm := hperm,
      finished := fun hne => absurd hf hne } hf
  exact hordered.finishIfDone hdrained

/-- A callback keeps the order. -/
theorem Stream.Ordered.step (h : s.Ordered service requests tickets) (hd : s.Drained)
    (hs : StreamStep service requests s e s') (he : e ≠ .writeDone false) :
    s'.Ordered service requests (tickets ++ (answeredBy service s e).toList) ∧ s'.Drained := by
  have hf := h.finishes_eq_nil hs
  cases hs with
  | @request request hr hreq =>
    replace hf := hf (by simp)
    have hanswer : answeredBy service s (.readDone (some request)) =
      if service.StartsThread request then none else some (request, s.received) := rfl
    rw [hanswer]
    split
    · next hthread =>
      rw [Option.toList_none, List.append_nil]
      refine ⟨h.thread hr hf hreq hthread, ?_⟩
      rw [Stream.afterRequest_thread hr hthread]
      exact hd
    · next hthread => exact h.reject hr hf hreq hthread
  | readEnd hr hend =>
    replace hf := hf (by simp)
    have hnone : answeredBy service s (.readDone none) = none := rfl
    rw [hnone, Option.toList_none, List.append_nil]
    refine ⟨h.readEnd hf (hend.resolve_right ?_), ?_⟩
    · rw [h.intact]
      exact Bool.false_ne_true
    · unfold Stream.afterReadEnd StreamingReadReactor.onReadDone
      dsimp only
      split <;> exact hd
  | written hw =>
    have hnone : answeredBy service s (.writeDone true) = none := rfl
    rw [hnone, Option.toList_none, List.append_nil]
    exact h.written (hf (by simp)) hw
  | failed hw => exact absurd rfl he
  | threadDone ht => exact h.threadDone (hf (by simp)) ht
  | done hfinish hr hw =>
    have hnone : answeredBy service s .done = none := rfl
    rw [hnone, Option.toList_none, List.append_nil]
    exact ⟨{ h with shutdown := fun _ => hfinish }, hd⟩

/-! ## Runs -/

variable {tr : List (Stream × StreamEvent)}

/-- The requests answered in a run, in the order in which their answers were queued. -/
def answered (service : ReadService) (tr : List (Stream × StreamEvent)) :
    List (ReadRequest × Nat) :=
  tr.filterMap fun p => answeredBy service p.1 p.2

/-- No write of the run fails. -/
def AllWritten (tr : List (Stream × StreamEvent)) : Prop := ∀ p ∈ tr, p.2 ≠ .writeDone false

instance (tr : List (Stream × StreamEvent)) : Decidable (AllWritten tr) :=
  inferInstanceAs (Decidable (∀ p ∈ tr, p.2 ≠ .writeDone false))

theorem StreamRuns.ordered (h : StreamRuns service requests tr s) (hok : AllWritten tr) :
    s.Ordered service requests (answered service tr) ∧ s.Drained := by
  revert hok
  refine Run.invariant (P := fun tr s => AllWritten tr →
    s.Ordered service requests (answered service tr) ∧ s.Drained) ?_ ?_ h
  · exact fun _ => ⟨.initial, fun _ => rfl⟩
  · intro tr s e s' _ ih hs hok
    obtain ⟨hordered, hdrained⟩ := ih fun p hp => hok p (List.mem_append_left _ hp)
    have hstep := hordered.step hdrained hs
      (hok _ (List.mem_append_right _ (List.mem_singleton_self _)))
    unfold answered at hstep ⊢
    rw [List.filterMap_append, List.filterMap_cons, List.filterMap_nil]
    cases hticket : answeredBy service s e with
    | none => rwa [hticket] at hstep
    | some ticket => rwa [hticket] at hstep

/-- A stream that has finished has delivered one answer for each request, in the order in which the
answers were queued. -/
theorem StreamRuns.delivered (h : StreamRuns service requests tr s) (hok : AllWritten tr)
    (hf : s.finishes ≠ []) :
    s.delivered = (answered service tr).map (fun ticket => service.response ticket.1) ∧
      (answered service tr).Perm requests.zipIdx := by
  obtain ⟨hordered, hdrained⟩ := StreamRuns.ordered h hok
  obtain ⟨hclient, hwrites, hthreads⟩ := hordered.finished hf
  have hqueued := hordered.queued
  have hperm := hordered.tickets_perm
  rw [hwrites, hdrained (hordered.idle hwrites), List.append_nil, List.append_nil] at hqueued
  rw [hthreads, List.append_nil, hordered.ended hclient, List.take_length] at hperm
  exact ⟨hqueued, hperm⟩

end

/-! ## The client's results -/

section

variable (service : ReadService) (resourceName containerName : Text)

/-- The answer for a location: the found flag and the chunk. -/
def ReadService.answer (location : Text) : Bool × PromptChunk :=
  (service.response {
    resource_name := resourceName
    container_name := containerName
    location }).result

variable {service resourceName containerName}

variable {completionId : Text} {locations : List Text} {tr : List (Stream × StreamEvent)}
  {s : Stream}

theorem streamingResults_eq
    (h : StreamRuns service (streamingRequests resourceName containerName completionId locations)
      tr s) (hok : AllWritten tr) (hf : s.finishes ≠ []) :
    streamingResults locations s.delivered = (answered service tr).map fun ticket =>
      service.answer resourceName containerName ticket.1.location := by
  obtain ⟨hdelivered, hperm⟩ := StreamRuns.delivered h hok hf
  have hlen : s.delivered.length = locations.length := by
    rw [hdelivered, List.length_map, hperm.length_eq, List.length_zipIdx]
    exact List.length_map _
  unfold streamingResults
  rw [hlen, Nat.sub_self, List.replicate_zero, List.append_nil, hdelivered, List.map_map]
  refine List.map_congr_left fun ticket hticket => ?_
  obtain ⟨-, -, hmem⟩ := List.mem_zipIdx (hperm.mem_iff.mp hticket)
  obtain ⟨location, -, he⟩ := List.mem_map.mp (hmem ▸ List.getElem_mem _)
  show (service.response ticket.1).result = service.answer _ _ ticket.1.location
  rw [← he]
  rfl

/-- Every location has the same answer as the one that was answered in its place. -/
def AnsweredAlike (service : ReadService) (resourceName containerName : Text)
    (locations : List Text) (tickets : List (ReadRequest × Nat)) : Prop :=
  ∀ (i : Nat) location ticket, locations[i]? = some location → tickets[i]? = some ticket →
    service.answer resourceName containerName ticket.1.location =
      service.answer resourceName containerName location

/-- On a stream without failures, the results of `StreamingReadAsync` are the answers for its
locations exactly when the threads end in an order that answers every location alike. -/
theorem streamingRead_inOrder_iff
    (h : StreamRuns service (streamingRequests resourceName containerName completionId locations)
      tr s) (hok : AllWritten tr) (hf : s.finishes ≠ []) :
    streamingResults locations s.delivered =
        locations.map (service.answer resourceName containerName) ↔
      AnsweredAlike service resourceName containerName locations (answered service tr) := by
  rw [streamingResults_eq h hok hf]
  obtain ⟨-, hperm⟩ := StreamRuns.delivered h hok hf
  have hlen : (answered service tr).length = locations.length := by
    rw [hperm.length_eq, List.length_zipIdx]
    exact List.length_map _
  constructor
  · intro he i location ticket hl ht
    have hi := congrArg (·[i]?) he
    simp only [List.getElem?_map, hl, ht, Option.map_some, Option.some.injEq] at hi
    exact hi
  · intro hall
    refine List.ext_getElem (by rw [List.length_map, List.length_map, hlen]) fun i hi hi' => ?_
    rw [List.getElem_map, List.getElem_map]
    exact hall i _ _ (List.getElem?_eq_getElem _) (List.getElem?_eq_getElem _)

end

/-! ## Two locations -/

/-- A store with one blob, under the name `a`. -/
def oneBlob : Container :=
  (Container.empty.perform (.upload "a".toList [1, 2]
    [("hash".toList, "5".toList), ("parenthash".toList, "3".toList)])).2

def oneBlobService : ReadService where
  resolveStore _ _ := some oneBlob
  what _ := []

def twoLocations : List Text := ["a".toList, "b".toList]

def twoRequests : List ReadRequest :=
  streamingRequests "resource".toList "container".toList [] twoLocations

/-- Both requests are read; then the threads end in the given order. -/
def twoThreads (first second : ReadRequest × Nat) : List (Stream × StreamEvent) × Stream :=
  replay (Stream.next oneBlobService twoRequests)
    (twoRequests.map (fun request => .readDone (some request)) ++
      [.readDone none, .threadDone first, .threadDone second, .writeDone true, .writeDone true]) {}

theorem twoThreads_run (first second : ReadRequest × Nat) :
    StreamRuns oneBlobService twoRequests (twoThreads first second).1 (twoThreads first second).2 :=
  replay_run fun _ _ _ _ _ he => Stream.next_step he

def requestA : ReadRequest where
  resource_name := "resource".toList
  container_name := "container".toList
  location := "a".toList

def requestB : ReadRequest := { requestA with location := "b".toList }

/-- The first thread ends first. -/
theorem streamingRead_inOrder_twoLocations :
    AnsweredAlike oneBlobService "resource".toList "container".toList twoLocations
      (answered oneBlobService (twoThreads (requestA, 0) (requestB, 1)).1) :=
  (streamingRead_inOrder_iff (twoThreads_run (requestA, 0) (requestB, 1)) (by decide +kernel)
    (by decide +kernel)).mp (by decide +kernel)

/-- The second thread ends first: the client takes the answer for `b`, which is not there, for that
for `a`. -/
theorem streamingRead_outOfOrder : ∃ tr s, StreamRuns oneBlobService twoRequests tr s ∧
    AllWritten tr ∧ s.finishes ≠ [] ∧
    streamingResults twoLocations s.delivered =
      [(false, .empty), (true, { hash := 5, parentHash := 3, buffer := [1, 2] })] ∧
    twoLocations.map (oneBlobService.answer "resource".toList "container".toList) =
      [(true, { hash := 5, parentHash := 3, buffer := [1, 2] }), (false, .empty)] :=
  ⟨_, _, twoThreads_run (requestB, 1) (requestA, 0), by decide +kernel⟩

end KVStore
