import KVStore.StreamOrder

/-!
# The end of a stream

`StreamRuns.answers_once`: while writes succeed, one write at most is outstanding, `Finish` is
called at most once, with `OK` and after every request has been answered, and until then a read, a
write or a thread is outstanding. `obeysProtocol_iff`: a stream whose write fails has been finished
by that; it keeps the rules of gRPC exactly when none of the callbacks that still come tries to
finish or to write again.
-/

namespace KVStore

open Transition

variable {service : ReadService} {requests : List ReadRequest}
  {tickets : List (ReadRequest × Nat)} {s s' : Stream} {e : StreamEvent}
  {tr : List (Stream × StreamEvent)}

/-! ## While writes succeed -/

/-- A stream that ends with `OK`, and has something outstanding until then. -/
structure Stream.Live (s : Stream) : Prop where
  finishes : s.finishes = [] ∨ s.finishes = [(.OK, [])]
  outstanding : s.finishes = [] → s.reading = true ∨ s.writes ≠ [] ∨ s.threads ≠ []

theorem Stream.send_finishes (s : Stream) :
    (s.run s.reactor.trySendNextResponse).finishes = s.finishes := by
  rcases s.reactor.trySendNextResponse_cases with ⟨he, -⟩ | ⟨response, queue, -, -, he⟩ <;>
    rw [he] <;> rfl

theorem Stream.push_finishes (s : Stream) (response : ReadResponse) :
    (s.push response).finishes = s.finishes :=
  Stream.send_finishes { s with
    reactor := { s.reactor with response_queue_ := s.reactor.response_queue_ ++ [response] } }

/-- Where nothing is outstanding, the test succeeds: the queue is empty too. -/
theorem Stream.Ordered.live_finishIfDone (hf : s.finishes = [])
    (h : s.finishIfDone.Ordered service requests tickets) (hd : s.finishIfDone.Drained) :
    s.finishIfDone.Live := by
  unfold Stream.finishIfDone StreamingReadReactor.finishIfDone at h hd ⊢
  split at h
  · next hdone =>
    rw [if_pos hdone]
    refine ⟨Or.inr ?_, fun hne => ?_⟩
    · show s.finishes ++ [_] = _
      rw [hf]
      rfl
    · exact absurd hne (List.append_ne_nil_of_right_ne_nil _ (List.cons_ne_nil _ _))
  · next hdone =>
    rw [List.foldl_nil] at h
    rw [if_neg hdone, List.foldl_nil] at hd ⊢
    refine ⟨Or.inl hf, fun _ => ?_⟩
    by_contra hstuck
    obtain ⟨hreading, hstuck⟩ := not_or.mp hstuck
    obtain ⟨hwrites, hthreads⟩ := not_or.mp hstuck
    replace hwrites := not_not.mp hwrites
    have hclient : s.reactor.client_done_ = true := by
      have hc := h.client
      rwa [Bool.not_eq_true _ |>.mp hreading] at hc
    have hpending : s.reactor.pending_writes_ = 0 := by
      have hp := h.pending
      rwa [hwrites] at hp
    have hactive : s.reactor.active_threads_ = 0 := by
      have ha := h.active
      rwa [not_not.mp hthreads] at ha
    exact hdone ⟨hclient, hpending, hactive, hd (h.idle hwrites)⟩

theorem Stream.Ordered.live_readEnd (h : s.Ordered service requests tickets)
    (hf : s.finishes = []) : (s.afterReadEnd service).Live := by
  unfold Stream.afterReadEnd StreamingReadReactor.onReadDone
  dsimp only
  split
  · refine ⟨Or.inr ?_, fun hne => ?_⟩
    · show s.finishes ++ [_] = _
      rw [hf]
      rfl
    · exact absurd hne (List.append_ne_nil_of_right_ne_nil _ (List.cons_ne_nil _ _))
  · next hdone =>
    refine ⟨Or.inl hf, fun _ => Or.inr ?_⟩
    by_contra hstuck
    obtain ⟨hwrites, hthreads⟩ := not_or.mp hstuck
    replace hwrites : s.writes = [] := not_not.mp hwrites
    replace hthreads : s.threads = [] := not_not.mp hthreads
    have hpending := h.pending
    have hactive := h.active
    rw [hwrites] at hpending
    rw [hthreads] at hactive
    exact hdone ⟨hpending, hactive⟩

theorem Stream.live_request {request : ReadRequest} (hr : s.reading = true)
    (hf : s.finishes = []) : (s.afterRequest service request).Live := by
  by_cases hthread : service.StartsThread request
  · rw [Stream.afterRequest_thread hr hthread]
    exact ⟨Or.inl hf, fun _ => Or.inl hr⟩
  · rw [Stream.afterRequest_reject hr hthread]
    unfold Stream.push StreamingReadReactor.pushResponse
    generalize ({ s.reactor with
      response_queue_ := s.reactor.response_queue_ ++ [service.response request] } :
        StreamingReadReactor) = r
    rcases r.trySendNextResponse_cases with ⟨he, -⟩ | ⟨response, queue, -, -, he⟩ <;> rw [he] <;>
      exact ⟨Or.inl hf, fun _ => Or.inl hr⟩

/-- A callback leaves something outstanding or finishes the stream. -/
theorem Stream.Live.step (hl : s.Live) (h : s.Ordered service requests tickets) (hd : s.Drained)
    (hs : StreamStep service requests s e s') (he : e ≠ .writeDone false) : s'.Live := by
  have hf := h.finishes_eq_nil hs
  obtain ⟨hordered, hdrained⟩ := h.step hd hs he
  cases hs with
  | request hr hreq => exact Stream.live_request hr (hf (by simp))
  | readEnd hr hend => exact h.live_readEnd (hf (by simp))
  | written hw =>
    rw [Stream.afterWrite_eq] at hordered hdrained ⊢
    exact Stream.Ordered.live_finishIfDone ((Stream.send_finishes _).trans (hf (by simp)))
      hordered hdrained
  | failed hw => exact absurd rfl he
  | threadDone ht =>
    have hrunning : s.reactor.shutdown_ = false := by
      rw [← Bool.not_eq_true]
      exact fun hs => h.shutdown hs (hf (by simp))
    rw [Stream.afterThread_eq hrunning] at hordered hdrained ⊢
    exact Stream.Ordered.live_finishIfDone ((Stream.push_finishes _ _).trans (hf (by simp)))
      hordered hdrained
  | done hfinish hr hw => exact ⟨hl.finishes, hl.outstanding⟩

theorem StreamRuns.live (h : StreamRuns service requests tr s) (hok : AllWritten tr) : s.Live := by
  revert hok
  refine Run.invariant (P := fun tr s => AllWritten tr → s.Live) ?_ ?_ h
  · exact fun _ => ⟨Or.inl rfl, fun _ => Or.inl rfl⟩
  · intro tr s e s' hrun ih hs hok
    have hprefix : AllWritten tr := fun p hp => hok p (List.mem_append_left _ hp)
    obtain ⟨hordered, hdrained⟩ := StreamRuns.ordered hrun hprefix
    exact (ih hprefix).step hordered hdrained hs
      (hok _ (List.mem_append_right _ (List.mem_singleton_self _)))

/-- What is outstanding comes to an end: a read, a write or a thread of the stream can be followed
by its callback. -/
theorem Stream.Live.enabled (hl : s.Live) (h : s.Ordered service requests tickets)
    (hf : s.finishes = []) :
    ∃ e s', e ≠ .writeDone false ∧ StreamStep service requests s e s' := by
  rcases hl.outstanding hf with hr | hw | ht
  · rcases h.received_le.lt_or_eq with hlt | heq
    · exact ⟨_, _, by simp, .request hr (List.getElem?_eq_getElem hlt)⟩
    · exact ⟨_, _, by simp, .readEnd hr (Or.inl heq)⟩
  · obtain ⟨response, rest, hw⟩ := List.exists_cons_of_ne_nil hw
    exact ⟨_, _, by simp, .written hw⟩
  · obtain ⟨thread, ht⟩ := List.exists_mem_of_ne_nil _ ht
    exact ⟨_, _, by simp, .threadDone ht⟩

/-- While writes succeed, one write at most is outstanding; `Finish` is called at most once, with
`OK`, and only after the client has ended its side and every request has had one answer written;
and a stream that has not finished has a read, a write or a thread outstanding, whose callback can
come. -/
theorem StreamRuns.answers_once (h : StreamRuns service requests tr s) (hok : AllWritten tr) :
    s.writes.length ≤ 1 ∧
    (s.finishes = [] ∨ s.finishes = [(.OK, [])]) ∧
    (s.finishes ≠ [] →
      s.reactor.client_done_ = true ∧ s.received = requests.length ∧
      s.delivered = (answered service tr).map (fun ticket => service.response ticket.1) ∧
      (answered service tr).Perm requests.zipIdx) ∧
    (s.finishes = [] →
      (s.reading = true ∨ s.writes ≠ [] ∨ s.threads ≠ []) ∧
      ∃ e s', e ≠ .writeDone false ∧ StreamStep service requests s e s') := by
  obtain ⟨hordered, -⟩ := StreamRuns.ordered h hok
  have hlive := StreamRuns.live h hok
  refine ⟨?_, hlive.finishes, fun hf => ?_, fun hf => ?_⟩
  · rw [hordered.writes]
    split
    · exact le_rfl
    · exact Nat.zero_le 1
  · have hclient := (hordered.finished hf).1
    exact ⟨hclient, hordered.ended hclient, StreamRuns.delivered h hok hf⟩
  · exact ⟨hlive.outstanding hf, hlive.enabled hordered hf⟩

/-- Two requests, both answered. -/
theorem answers_once_twoThreads :
    (twoThreads (requestA, 0) (requestB, 1)).2.finishes = [(.OK, [])] ∧
      (twoThreads (requestA, 0) (requestB, 1)).2.writes.length ≤ 1 :=
  ⟨by decide +kernel,
    (StreamRuns.answers_once (twoThreads_run (requestA, 0) (requestB, 1)) (by decide +kernel)).1⟩

/-! ## When a write fails -/

namespace Operation

/-- The status that a `Finish` carries. -/
def finishStatus : Operation → Option Status
  | .finish status => some status
  | _ => none

def isWrite : Operation → Bool
  | .startWrite _ => true
  | _ => false

end Operation

/-- The rules of gRPC: `Finish` is called once at most, and no write is started after it. -/
def ObeysProtocol (operations : List Operation) : Prop :=
  operations.Pairwise fun earlier later =>
    earlier.finishStatus ≠ none → later.finishStatus = none ∧ later.isWrite = false

instance (operations : List Operation) : Decidable (ObeysProtocol operations) :=
  inferInstanceAs (Decidable (operations.Pairwise _))

/-- None of the operations is a `Finish` or a write. -/
def Quiet (operations : List Operation) : Prop :=
  ∀ o ∈ operations, o.finishStatus = none ∧ o.isWrite = false

/-- What the callback of an event starts. -/
def Stream.operations (service : ReadService) (s : Stream) : StreamEvent → List Operation
  | .readDone request => (s.reactor.onReadDone service request).2
  | .writeDone ok => (s.reactor.onWriteDone ok).2
  | .threadDone thread => (s.reactor.onThreadDone (service.response thread.1)).2
  | .done => []

/-- What the callbacks of a run start, in their order. -/
def started (service : ReadService) (tr : List (Stream × StreamEvent)) : List Operation :=
  tr.flatMap fun p => p.1.operations service p.2

/-- A callback that has no need to write or to finish: it starts a thread for its request, it finds
a thread running when the client ends its side, or it is the end of a thread after `OnDone`. -/
def Stream.Harmless (service : ReadService) (s : Stream) : StreamEvent → Prop
  | .readDone (some request) => service.StartsThread request
  | .readDone none => s.threads ≠ []
  | .writeDone _ => True
  | .threadDone _ => s.reactor.shutdown_ = true
  | .done => True

instance (service : ReadService) (s : Stream) : (e : StreamEvent) → Decidable (s.Harmless service e)
  | .readDone (some request) => inferInstanceAs (Decidable (service.StartsThread request))
  | .readDone none => inferInstanceAs (Decidable (s.threads ≠ []))
  | .threadDone _ => inferInstanceAs (Decidable (s.reactor.shutdown_ = true))
  | .writeDone _ | .done => inferInstanceAs (Decidable True)

theorem StreamingReadReactor.trySendNextResponse_finishStatus (r : StreamingReadReactor) :
    ∀ o ∈ r.trySendNextResponse.2, o.finishStatus = none := by
  rcases r.trySendNextResponse_cases with ⟨he, -⟩ | ⟨response, queue, -, -, he⟩ <;> rw [he]
  · exact fun o ho => absurd ho List.not_mem_nil
  · exact fun o ho => List.mem_singleton.mp ho ▸ rfl

theorem StreamingReadReactor.finishIfDone_length (r : StreamingReadReactor) :
    r.finishIfDone.length ≤ 1 := by
  unfold StreamingReadReactor.finishIfDone
  split
  · exact le_rfl
  · exact Nat.zero_le 1

theorem obeysProtocol_of_last {first last : List Operation}
    (hfirst : ∀ o ∈ first, o.finishStatus = none) (hlast : last.length ≤ 1) :
    ObeysProtocol (first ++ last) := by
  refine List.pairwise_append.mpr ⟨?_, ?_, fun o ho _ _ hne => absurd (hfirst o ho) hne⟩
  · exact List.pairwise_of_forall_mem_list fun o ho _ _ hne => absurd (hfirst o ho) hne
  · match last, hlast with
    | [], _ => exact List.Pairwise.nil
    | [o], _ => exact List.pairwise_singleton _ o

/-- One callback by itself keeps to the rules: a `Finish` comes last. -/
theorem Stream.operations_obey (s : Stream) (e : StreamEvent) :
    ObeysProtocol (s.operations service e) := by
  cases e with
  | readDone request =>
    cases request with
    | none =>
      unfold Stream.operations StreamingReadReactor.onReadDone
      dsimp only
      split
      · exact List.pairwise_singleton _ _
      · exact List.Pairwise.nil
    | some request =>
      have hfirst : ∀ o ∈ (s.reactor.processRequest service request).2,
          o.finishStatus = none := by
        unfold StreamingReadReactor.processRequest
        split
        · exact StreamingReadReactor.trySendNextResponse_finishStatus _
        · split
          · exact StreamingReadReactor.trySendNextResponse_finishStatus _
          · exact fun o ho => List.mem_singleton.mp ho ▸ rfl
      exact obeysProtocol_of_last hfirst le_rfl
  | writeDone ok =>
    unfold Stream.operations StreamingReadReactor.onWriteDone
    dsimp only
    split
    · exact obeysProtocol_of_last (StreamingReadReactor.trySendNextResponse_finishStatus _)
        (StreamingReadReactor.finishIfDone_length _)
    · exact List.pairwise_singleton _ _
  | threadDone thread =>
    unfold Stream.operations StreamingReadReactor.onThreadDone
    dsimp only
    split
    · exact List.Pairwise.nil
    · exact obeysProtocol_of_last (StreamingReadReactor.trySendNextResponse_finishStatus _)
        (StreamingReadReactor.finishIfDone_length _)
  | done => exact List.Pairwise.nil

theorem Stream.foldl_start_finishes (operations : List Operation) (s : Stream) :
    (operations.foldl Stream.start s).finishes =
      s.finishes ++ operations.filterMap Operation.finishStatus := by
  induction operations generalizing s with
  | nil => exact (List.append_nil _).symm
  | cons o operations ih =>
    rw [List.foldl_cons, ih]
    cases o with
    | finish status =>
      rw [List.filterMap_cons_some (f := Operation.finishStatus) (b := status) rfl]
      exact List.append_assoc ..
    | startRead | startWrite | startThread => rfl

theorem StreamStep.finishes_eq (hs : StreamStep service requests s e s') :
    s'.finishes = s.finishes ++ (s.operations service e).filterMap Operation.finishStatus := by
  cases hs with
  | request | readEnd | written | failed | threadDone => exact Stream.foldl_start_finishes _ _
  | done => exact (List.append_nil _).symm

theorem started_append (tr : List (Stream × StreamEvent)) (s : Stream) (e : StreamEvent) :
    started service (tr ++ [(s, e)]) = started service tr ++ s.operations service e := by
  unfold started
  rw [List.flatMap_append, List.flatMap_cons, List.flatMap_nil, List.append_nil]

/-- The calls of `Finish` in a run. -/
theorem StreamRuns.finishes_eq (h : StreamRuns service requests tr s) :
    s.finishes = (started service tr).filterMap Operation.finishStatus := by
  refine Run.invariant (P := fun tr s =>
    s.finishes = (started service tr).filterMap Operation.finishStatus) rfl ?_ h
  intro tr s e s' _ ih hs
  rw [hs.finishes_eq, ih, started_append, List.filterMap_append]

/-- After a `Finish`, the rules leave only quiet callbacks. -/
theorem obeysProtocol_append {earlier later : List Operation} (he : ObeysProtocol earlier)
    (hl : ObeysProtocol later) (hf : earlier.filterMap Operation.finishStatus ≠ []) :
    ObeysProtocol (earlier ++ later) ↔ Quiet later := by
  unfold ObeysProtocol at *
  rw [List.pairwise_append]
  constructor
  · rintro ⟨-, -, hcross⟩ o ho
    obtain ⟨status, hstatus⟩ := List.exists_mem_of_ne_nil _ hf
    obtain ⟨finish, hfinish, hsome⟩ := List.mem_filterMap.mp hstatus
    exact hcross finish hfinish o ho (hsome ▸ Option.some_ne_none _)
  · exact fun hquiet => ⟨he, hl, fun _ _ o ho _ => hquiet o ho⟩

/-- A stream that a failed write has finished, as long as nothing is written again. -/
structure Stream.Failed (s : Stream) : Prop where
  broken : s.broken = true
  writes : s.writes = []
  pending : s.reactor.pending_writes_ = 0
  idle : s.reactor.write_in_progress_ = false
  active : s.reactor.active_threads_ = s.threads.length
  finished : s.finishes ≠ []

theorem Stream.Ordered.failed {response : ReadResponse} {rest : List ReadResponse}
    (h : s.Ordered service requests tickets) (hw : s.writes = response :: rest) :
    (s.afterFailedWrite rest).Failed := by
  have hrest := h.writes_tail hw
  refine ⟨rfl, hrest, ?_, rfl, h.active, ?_⟩
  · show s.reactor.pending_writes_ - 1 = 0
    rw [h.pending, hw, hrest]
    rfl
  · exact List.append_ne_nil_of_right_ne_nil _ (List.cons_ne_nil _ _)

/-- With no write on its way, a response that is pushed is written. -/
theorem StreamingReadReactor.pushResponse_writes {r : StreamingReadReactor}
    (h : r.write_in_progress_ = false) (response : ReadResponse) :
    ∃ o ∈ (r.pushResponse response).2, o.isWrite = true := by
  unfold StreamingReadReactor.pushResponse StreamingReadReactor.trySendNextResponse
  rcases hq : r.response_queue_ ++ [response] with _ | ⟨first, queue⟩
  · exact absurd hq (List.append_ne_nil_of_right_ne_nil _ (List.cons_ne_nil _ _))
  · simp only [h]
    exact ⟨_, List.mem_singleton_self _, rfl⟩

theorem not_quiet_of_isWrite {operations : List Operation}
    (h : ∃ o ∈ operations, o.isWrite = true) : ¬ Quiet operations := by
  obtain ⟨o, ho, hwrite⟩ := h
  intro hquiet
  cases hwrite.symm.trans (hquiet o ho).2

/-- Once a write has failed, the harmless callbacks are the quiet ones. -/
theorem Stream.Failed.quiet_iff (h : s.Failed) (hs : StreamStep service requests s e s') :
    Quiet (s.operations service e) ↔ s.Harmless service e := by
  cases hs with
  | @request request hr hreq =>
    show Quiet ((s.reactor.processRequest service request).2 ++ [.startRead]) ↔
      service.StartsThread request
    constructor
    · intro hquiet
      by_contra hthread
      have hwrites : ∃ o ∈ (s.reactor.processRequest service request).2, o.isWrite = true := by
        unfold StreamingReadReactor.processRequest
        split
        · exact StreamingReadReactor.pushResponse_writes h.idle _
        · next hcomplete =>
          split
          · exact StreamingReadReactor.pushResponse_writes h.idle _
          · next store hstore => exact absurd ⟨hcomplete, by rw [hstore]; rfl⟩ hthread
      exact not_quiet_of_isWrite hwrites fun o ho => hquiet o (List.mem_append_left _ ho)
    · rintro ⟨hcomplete, hstore⟩
      obtain ⟨store, hstore⟩ := Option.isSome_iff_exists.mp hstore
      unfold StreamingReadReactor.processRequest
      simp [Quiet, hcomplete, hstore, Operation.finishStatus, Operation.isWrite]
  | readEnd hr hend =>
    unfold Stream.operations StreamingReadReactor.onReadDone Stream.Harmless
    simp [Quiet, h.pending, h.active, Operation.finishStatus]
  | written hw | failed hw => cases h.writes.symm.trans hw
  | @threadDone thread ht =>
    unfold Stream.operations StreamingReadReactor.onThreadDone Stream.Harmless
    dsimp only
    split
    · next hshutdown => simp [Quiet, hshutdown]
    · next hrunning =>
      refine iff_of_false (not_quiet_of_isWrite ?_) hrunning
      obtain ⟨o, ho, hwrite⟩ :=
        StreamingReadReactor.pushResponse_writes h.idle (service.response thread.1)
      exact ⟨o, List.mem_append_left _ ho, hwrite⟩
  | done => exact iff_of_true (fun o ho => absurd ho List.not_mem_nil) trivial

/-- Harmless callbacks leave a failed stream as it is. -/
theorem Stream.Failed.step (h : s.Failed) (hs : StreamStep service requests s e s')
    (hharmless : s.Harmless service e) : s'.Failed := by
  cases hs with
  | @request request hr hreq =>
    rw [Stream.afterRequest_thread hr hharmless]
    refine { h with active := ?_ }
    rw [h.active, List.length_append]
    rfl
  | readEnd hr hend =>
    unfold Stream.afterReadEnd StreamingReadReactor.onReadDone
    dsimp only
    rw [if_neg fun hdone => hharmless ?_]
    · exact { h with }
    · exact List.length_eq_zero_iff.mp (Int.ofNat.inj (h.active.symm.trans hdone.2))
  | written hw | failed hw => cases h.writes.symm.trans hw
  | @threadDone thread ht =>
    unfold Stream.afterThread StreamingReadReactor.onThreadDone
    rw [if_pos (show s.reactor.shutdown_ = true from hharmless)]
    refine { h with active := ?_ }
    show s.reactor.active_threads_ - 1 = ((s.threads.erase thread).length : Int)
    have hpos := List.length_pos_of_mem ht
    rw [h.active, List.length_erase_of_mem ht]
    omega
  | done hfinish hr hw => exact { h with }

/-- Every callback after a failed write is harmless. -/
def HarmlessOnceBroken (service : ReadService) (tr : List (Stream × StreamEvent)) : Prop :=
  ∀ p ∈ tr, p.1.broken = true → p.1.Harmless service p.2

instance (service : ReadService) (tr : List (Stream × StreamEvent)) :
    Decidable (HarmlessOnceBroken service tr) :=
  inferInstanceAs (Decidable (∀ p ∈ tr, _))

theorem StreamRuns.failed (h : StreamRuns service requests tr s)
    (hok : HarmlessOnceBroken service tr) : AllWritten tr ∧ s.broken = false ∨ s.Failed := by
  revert hok
  refine Run.invariant (P := fun tr s => HarmlessOnceBroken service tr →
    AllWritten tr ∧ s.broken = false ∨ s.Failed) ?_ ?_ h
  · exact fun _ => Or.inl ⟨fun p hp => absurd hp List.not_mem_nil, rfl⟩
  · intro tr s e s' hrun ih hs hok
    rcases ih fun p hp => hok p (List.mem_append_left _ hp) with ⟨hwritten, hintact⟩ | hfailed
    · obtain ⟨hordered, hdrained⟩ := StreamRuns.ordered hrun hwritten
      by_cases he : e = .writeDone false
      · subst he
        cases hs with
        | failed hw => exact Or.inr (hordered.failed hw)
      · refine Or.inl ⟨fun p hp => ?_, (hordered.step hdrained hs he).1.intact⟩
        rcases List.mem_append.mp hp with hp | hp
        · exact hwritten p hp
        · rwa [List.mem_singleton.mp hp]
    · exact Or.inr (hfailed.step hs
        (hok _ (List.mem_append_right _ (List.mem_singleton_self _)) hfailed.broken))

/-- A stream keeps the rules of gRPC exactly when every callback that comes after a failed write is
harmless. -/
theorem StreamRuns.obeysProtocol_iff (h : StreamRuns service requests tr s) :
    ObeysProtocol (started service tr) ↔ HarmlessOnceBroken service tr := by
  refine Run.invariant (P := fun tr _ =>
    ObeysProtocol (started service tr) ↔ HarmlessOnceBroken service tr) ?_ ?_ h
  · exact iff_of_true List.Pairwise.nil fun p hp => absurd hp List.not_mem_nil
  · intro tr s e s' hrun ih hs
    have hsnoc : HarmlessOnceBroken service (tr ++ [(s, e)]) ↔
        HarmlessOnceBroken service tr ∧ (s.broken = true → s.Harmless service e) := by
      unfold HarmlessOnceBroken
      rw [List.forall_mem_append, List.forall_mem_singleton]
    rw [started_append, hsnoc]
    by_cases hobeys : ObeysProtocol (started service tr)
    · have hharmless := ih.mp hobeys
      rw [and_iff_right hharmless]
      rcases StreamRuns.failed hrun hharmless with ⟨hwritten, hintact⟩ | hfailed
      · refine iff_of_true ?_ fun hb => absurd (hintact.symm.trans hb) Bool.false_ne_true
        obtain ⟨hordered, -⟩ := StreamRuns.ordered hrun hwritten
        by_cases he : e = .done
        · subst he
          rwa [show s.operations service .done = [] from rfl, List.append_nil]
        · have hfinishes := hordered.finishes_eq_nil hs he
          rw [StreamRuns.finishes_eq hrun] at hfinishes
          refine List.pairwise_append.mpr ⟨hobeys, s.operations_obey e, fun o ho _ _ hne => ?_⟩
          exact absurd (List.filterMap_eq_nil_iff.mp hfinishes o ho) hne
      · have hfinished := hfailed.finished
        rw [StreamRuns.finishes_eq hrun] at hfinished
        rw [obeysProtocol_append hobeys (s.operations_obey e) hfinished, hfailed.quiet_iff hs]
        exact ⟨fun hq _ => hq, fun hq => hq hfailed.broken⟩
    · refine iff_of_false (fun happend => hobeys ?_) fun hharmless => hobeys (ih.mpr hharmless.1)
      exact (List.pairwise_append.mp happend).1

/-- The thread of the first request ends and its write fails; the schedule goes on from there. -/
def failedWrite (rest : List StreamEvent) : List (Stream × StreamEvent) × Stream :=
  replay (Stream.next oneBlobService twoRequests)
    (twoRequests.map (fun request => .readDone (some request)) ++
      [.threadDone (requestA, 0), .writeDone false] ++ rest) {}

theorem failedWrite_run (rest : List StreamEvent) :
    StreamRuns oneBlobService twoRequests (failedWrite rest).1 (failedWrite rest).2 :=
  replay_run fun _ _ _ _ _ he => Stream.next_step he

/-- The read ends while the other thread is running, which ends after `OnDone`. -/
theorem obeysProtocol_harmless : ObeysProtocol (started oneBlobService
    (failedWrite [.readDone none, .done, .threadDone (requestB, 1)]).1) :=
  (StreamRuns.obeysProtocol_iff (failedWrite_run _)).mpr (by decide +kernel)

/-- The other thread ends before `OnDone`: its response is written after `Finish`; and when that
write fails too, the stream is finished once more. -/
theorem obeysProtocol_fails :
    ∃ tr s, StreamRuns oneBlobService twoRequests tr s ∧
      started oneBlobService tr =
        [.startThread requestA, .startRead, .startThread requestB, .startRead,
          .startWrite (oneBlobService.response requestA),
          .finish (.INTERNAL, "Write failed".toList),
          .startWrite (oneBlobService.response requestB),
          .finish (.INTERNAL, "Write failed".toList), .finish (.OK, [])] ∧
      ¬ ObeysProtocol (started oneBlobService tr) :=
  ⟨_, _, failedWrite_run [.threadDone (requestB, 1), .writeDone false, .readDone none],
    by decide +kernel⟩

end KVStore
