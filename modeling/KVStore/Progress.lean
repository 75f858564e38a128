import KVStore.Acknowledge
import KVStore.Append
import KVStore.Lib.JournalProgress
import KVStore.Lib.Ranking

/-!
# Writes come to an end

Whatever the calls do in between and whichever operations meet storage errors, a call of
`WriteAsync` issues at most `3 * maxRetries + 2` operations, and no call waits for another: finitely
many calls come to an end in every run (`writes_terminate`). A call whose operations meet no storage
error has its version recorded, unless `maxRetries` other calls publish theirs for the same block
while it runs (`write_recorded_or_outpaced`).
-/

namespace KVStore

open Transition

universe u

/-- How many operations a call issues at most from a point on. -/
def WritePoint.rank : WritePoint → Nat
  | .upload => 3 * maxRetries + 2
  | .getProperties => 3 * maxRetries + 1
  | .guidUpload _ => 3 * maxRetries
  | .refetch retry _ => 3 * (maxRetries - retry)
  | .evict retry _ => 3 * (maxRetries - retry) - 1
  | .setMetadata retry _ => 3 * (maxRetries - retry) - 2
  | .finished _ => 0

/-- The call ended with its version recorded. -/
def WriteOutcome.succeeds : WriteOutcome → Bool
  | .uploaded | .identical | .alreadyListed | .updated => true
  | .storageException _ | .stdException _ => false

/-- The answer is not the service's. -/
def Event.faulted {ι : Type u} (s : System ι) (e : Event ι) : Prop :=
  e.response ≠ (s.store.perform e.op).1

/-- The calls whose `SetMetadata` on the blob `name` went through in a run, in that order. -/
def publishers {ι : Type u} (name : Text) (tr : List (System ι × Event ι)) : List ι :=
  (tr.filter fun p => p.2.publishesTo name).map fun p => p.2.caller

section

variable {ι : Type u} {tr : List (System ι × Event ι)} {name : Text}

theorem publishers_snoc (s : System ι) (e : Event ι) :
    publishers name (tr ++ [(s, e)]) =
      if e.publishesTo name then publishers name tr ++ [e.caller] else publishers name tr := by
  unfold publishers
  rw [List.filter_append, List.map_append, List.filter_singleton]
  cases e.publishesTo name
  · exact List.append_nil _
  · rfl

/-- An operation that is answered with an error has no effect. -/
theorem Container.perform_of_storageException {c : Container} {op : BlobOp}
    {status : HttpStatusCode} (h : (c.perform op).1 = .storageException status) :
    (c.perform op).2 = c := by
  cases op with
  | upload => cases h
  | uploadIfNoneMatch name | getProperties name | delete name =>
    cases hb : c.blobs name <;> simp [Container.perform, hb] at h ⊢
  | setMetadata name metadata ifMatch =>
    cases hb : c.blobs name with
    | none => simp [Container.perform, hb]
    | some blob =>
      rw [Container.perform_setMetadata _ hb] at h ⊢
      split at h
      · cases h
      · next hne => rw [if_neg hne]

theorem WritePoint.resume_of_swallows {call : Call} {point : WritePoint} {status : HttpStatusCode}
    (h : point.swallows status = true) :
    point.resume call (.storageException status) = .finished (.storageException status) := by
  have hloop : ∀ {retry : Nat} {l : WriteLocals},
      (status ≠ .PreconditionFailed ∨ retry = maxRetries - 1) →
        onMetadataException retry l status = .finished (.storageException status) := by
    intro retry l hleaves
    unfold onMetadataException
    split
    · next hpre => rw [if_pos (hleaves.resolve_left (not_not_intro hpre))]
    · rfl
  cases point with
  | upload => exact if_neg (of_decide_eq_true h)
  | getProperties | guidUpload => rfl
  | refetch retry l => exact hloop (of_decide_eq_true h)
  | setMetadata retry l => exact hloop (of_decide_eq_true h)
  | evict | finished => cases h

variable [DecidableEq ι] [Base64Url] {F : Faults} {calls : Calls ι} {s s' : System ι} {e : Event ι}

/-- A step whose answer is the service's is a step of the service. -/
theorem Step.served_of_response (hs : Step F calls s e s') (he : ¬ e.faulted s) :
    Step noFaults calls s e s' := by
  rw [Event.faulted, not_not] at he
  cases hs with
  | served hreq => exact .served hreq
  | @fault i op status hreq hf =>
    have hstep : Step noFaults calls s _ _ := .served hreq
    rw [← he, Container.perform_of_storageException he.symm] at hstep
    exact hstep

theorem Refines.step_served (hF : ∀ {op status}, F op status → status ≠ .PreconditionFailed)
    {j : Journal.State ι Text} (h : Refines calls j s) (hinv : Journal.Inv (protocol calls) j)
    (hs : Step F calls s e s') :
    ∃ j' served, Journal.Step (protocol calls) j e.caller served j' ∧ Refines calls j' s' ∧
      Origin F s e served ∧ (¬ e.faulted s → served = true) := by
  by_cases he : e.faulted s
  · obtain ⟨j', served, hj, hr, horigin⟩ := h.step hF hinv hs
    exact ⟨j', served, hj, hr, horigin, fun hno => absurd he hno⟩
  · obtain ⟨j', served, hj, hr, horigin⟩ :=
      h.step (fun hf => hf.elim) hinv (hs.served_of_response he)
    rcases horigin with ⟨rfl, hanswer⟩ | ⟨-, status, hf, -⟩
    · exact ⟨j', true, hj, hr, Or.inl ⟨rfl, hanswer⟩, fun _ => rfl⟩
    · exact hf.elim

end

/-! ## Termination -/

section

variable {ι : Type u} [Base64Url] {calls : Calls ι}

theorem attempts_pos : 0 < (protocol calls).attempts :=
  show 0 < maxRetries by decide

theorem At.rank_eq {creator : Text → Option ι} {log : Text → List ι} {store : Container} {i : ι}
    {p : Journal.Phase} {pt : WritePoint} (h : At calls creator log store i p pt) :
    pt.rank = p.rank maxRetries := by
  cases h <;> rfl

variable [DecidableEq ι] {tr : List (System ι × Event ι)} {s s' : System ι} {e : Event ι}

theorem Runs.refines_tries (h : Runs serviceFaults calls Container.empty tr s) :
    ∃ j, Refines calls j s ∧ Journal.Inv (protocol calls) j ∧
      ∀ i, (j.phase i).Tries maxRetries := by
  refine Refines.run (fun _ j => ∀ i, (j.phase i).Tries maxRetries) id (Refines.initial calls)
    (Journal.Inv.initial _) (fun _ => trivial) ?_ h
  intro tr s e s' j j' served _ _ htries _ _ hj _
  exact hj.tries attempts_pos htries

/-- Every operation of a call lowers its rank, also one that meets a storage error. -/
theorem Runs.rank_lt (h : Runs serviceFaults calls Container.empty tr s)
    (hs : Step serviceFaults calls s e s') :
    (s'.point e.caller).rank < (s.point e.caller).rank := by
  obtain ⟨j, hr, hinv, htries⟩ := h.refines_tries
  obtain ⟨j', served, hj, hr', -⟩ := hr.step id hinv hs
  rw [(hr.point _).rank_eq, (hr'.point _).rank_eq]
  exact hj.rank_lt attempts_pos (htries _)

theorem Step.rank_le {F : Faults} (hs : Step F calls s e s') {i : ι} (hi : i ≠ e.caller) :
    (s'.point i).rank ≤ (s.point i).rank := by
  rw [hs.point_of_ne hi]

/-- A call that has not come to its end can issue its next operation. -/
theorem Runs.exists_step (h : Runs serviceFaults calls Container.empty tr s) {i : ι}
    (hi : ∀ o, s.point i ≠ .finished o) : ∃ e s', Step noFaults calls s e s' ∧ e.caller = i := by
  obtain ⟨j, hr, hinv⟩ := Runs.refines id h
  have hp : ∀ o, j.phase i ≠ .done o := by
    intro o ho
    have hat := hr.point i
    rw [ho] at hat
    generalize hpt : s.point i = pt at hat
    cases hat <;> exact hi _ hpt
  obtain ⟨op, hreq⟩ : ∃ op, (s.point i).request (calls.call i) = some op := by
    have hat := hr.point i
    have hsound := hinv.sound i
    generalize j.phase i = p at hat hsound hp
    generalize s.point i = pt at hat
    cases hat with
    | evicting hsnap hv =>
      obtain ⟨-, -, hk, hw⟩ := hsound
      obtain ⟨a, -, hdelete⟩ := request_evict hk hw hv
      exact ⟨_, hdelete⟩
    | created | own | listed | published | rejected | abandoned => exact absurd rfl (hp _)
    | _ => exact ⟨_, rfl⟩
  exact ⟨_, _, .served hreq, rfl⟩

/-- Each call issues a bounded number of operations, so finitely many calls take finitely many
steps; and as long as a call has not come to its end, it can go on without the others. -/
theorem writes_terminate [Fintype ι] (h : Runs serviceFaults calls Container.empty tr s) :
    (∀ i, (tr.countP fun p => p.2.caller = i) ≤ 3 * maxRetries + 2) ∧
    tr.length ≤ (3 * maxRetries + 2) * Fintype.card ι ∧
    (∀ i, (∀ o, s.point i ≠ .finished o) → ∃ e s', Step noFaults calls s e s' ∧ e.caller = i) ∧
    ∃ tr' s', Run (Step noFaults calls) s tr' s' ∧ ∀ i, ∃ o, s'.point i = .finished o := by
  have hsum : ∀ {tr s e s'}, Runs serviceFaults calls Container.empty tr s →
      Step serviceFaults calls s e s' →
        ∑ i, (s'.point i).rank < ∑ i, (s.point i).rank := by
    intro tr s e s' h hs
    exact sum_rank_lt (fun i (s : System ι) => (s.point i).rank) (h.rank_lt hs)
      fun i hi => hs.rank_le hi
  have hlater : ∀ {tr' s'}, Run (Step noFaults calls) s tr' s' →
      Runs serviceFaults calls Container.empty (tr ++ tr') s' :=
    fun hrun => h.trans (hrun.mono fun hs => hs.mono fun hf => hf.elim)
  refine ⟨fun i => ?_, ?_, fun i => h.exists_step, ?_⟩
  · have hcount := Run.countP_add_le (fun i (s : System ι) => (s.point i).rank)
      (fun h hs => Runs.rank_lt h hs) (fun hs hi => hs.rank_le hi) h i
    exact (Nat.le_add_right _ _).trans hcount
  · have hlen := Run.length_add_le (fun s : System ι => ∑ i, (s.point i).rank) hsum h
    have hstart : ∑ i : ι, ((System.initial Container.empty).point i).rank =
        (3 * maxRetries + 2) * Fintype.card ι := by
      show ∑ _i : ι, (3 * maxRetries + 2) = _
      rw [Finset.sum_const_nat fun _ _ => rfl, Finset.card_univ, Nat.mul_comm]
    rw [hstart] at hlen
    omega
  · obtain ⟨tr', s', hrun, hstuck⟩ := Run.exists_stuck
      (fun s : System ι => ∑ i, (s.point i).rank)
      (fun h' hs => hsum (hlater h') (hs.mono fun hf => hf.elim))
      (Run.nil : Run (Step noFaults calls) s [] s)
    refine ⟨tr', s', hrun, fun i => ?_⟩
    by_contra hno
    push Not at hno
    obtain ⟨e, s'', hs, -⟩ := (hlater hrun).exists_step hno
    exact hstuck e s'' hs

end

/-! ## Calls that are outpaced -/

section

variable {ι : Type u} [DecidableEq ι] [Base64Url] {calls : Calls ι}

/-- How call `i` has fared in a run that starts before it, from a journal `j₀`. -/
structure Fares (calls : Calls ι) (i : ι) (j₀ : Journal.State ι Text)
    (tr : List (System ι × Event ι)) (s : System ι) (j : Journal.State ι Text) : Prop where
  refines : Refines calls j s
  inv : Journal.Inv (protocol calls) j
  log : j.log (calls.call i).blobName =
    j₀.log (calls.call i).blobName ++ publishers (calls.call i).blobName tr
  outpaced : Journal.Outpaced (protocol calls) (j₀.log (calls.call i).blobName).length j i
    (j.phase i)
  unhindered : (∀ p ∈ tr, p.2.caller = i → ¬ p.2.faulted p.1) →
    Journal.Unhindered (protocol calls) (j₀.log (calls.call i).blobName).length j i (j.phase i)
  listed : (s.point i).Listed (calls.call i)
  recorded : ∀ {o}, s.point i = .finished o → o.succeeds = true → RecordedDuring calls tr s i

variable {i : ι} {j₀ j : Journal.State ι Text} {tr : List (System ι × Event ι)} {s s' : System ι}
  {e : Event ι}

omit [DecidableEq ι] in
theorem Refines.phase_of_upload (h : Refines calls j s) (hi : s.point i = .upload) :
    j.phase i = .starting := by
  have hat := h.point i
  rw [hi] at hat
  generalize j.phase i = p at hat ⊢
  cases hat
  rfl

omit [DecidableEq ι] in
theorem Fares.start (hr : Refines calls j s) (hinv : Journal.Inv (protocol calls) j)
    (hi : s.point i = .upload) : Fares calls i j [] s j := by
  have hstarting := hr.phase_of_upload hi
  refine ⟨hr, hinv, (List.append_nil _).symm, ?_, fun _ => ?_, ?_, fun {o} ho => ?_⟩
  · rw [hstarting]
    trivial
  · rw [hstarting]
    trivial
  · rw [hi]
    trivial
  · cases hi.symm.trans ho

/-- A call that ends its last operation well has its version recorded then. -/
theorem recordedDuring_step {F : Faults} {o : WriteOutcome} (hs : Step F calls s e s')
    (hlisted : (s.point e.caller).Listed (calls.call e.caller))
    (ho : s'.point e.caller = .finished o) (hok : o.succeeds = true) :
    RecordedDuring calls (tr ++ [(s, e)]) s' e.caller := by
  have hfuture : o.future = .ok () := by cases o <;> first | rfl | cases hok
  rw [hs.point_caller] at ho
  rcases hlisted.resume_finished hs.request hs.answer ho hfuture with
    hrec | hrec | ⟨status, he, hsw⟩
  · exact RecordedDuring.of_records (p := Or.inl hrec)
  · exact RecordedDuring.of_records (p := Or.inr hrec)
  · rw [he, WritePoint.resume_of_swallows hsw] at ho
    cases ho
    cases hok

theorem Fares.step (h : Fares calls i j₀ tr s j) (hs : Step serviceFaults calls s e s') :
    ∃ j', Fares calls i j₀ (tr ++ [(s, e)]) s' j' := by
  obtain ⟨j', served, hj, hr', horigin, hserved⟩ := h.refines.step_served id h.inv hs
  have hle : (j₀.log (calls.call i).blobName).length ≤
      (j.log ((protocol calls).slot i)).length := by
    show _ ≤ (j.log (calls.call i).blobName).length
    rw [h.log, List.length_append]
    omega
  refine ⟨j', hr', h.inv.step hj, ?_, h.outpaced.step h.inv hle hj, fun hno => ?_, ?_, ?_⟩
  · rw [h.refines.log_step h.inv hs horigin hj, publishers_snoc, h.log]
    split
    · exact List.append_assoc ..
    · rfl
  · refine (h.unhindered fun p hp => hno p (List.mem_append_left _ hp)).step h.inv attempts_pos
      h.outpaced hj fun hcaller => hserved ?_
    exact hno (s, e) (by simp) hcaller
  · by_cases hcaller : e.caller = i
    · subst hcaller
      rw [hs.point_caller]
      exact h.listed.resume _
    · rw [hs.point_of_ne (Ne.symm hcaller)]
      exact h.listed
  · intro o ho hok
    by_cases hcaller : e.caller = i
    · subst hcaller
      exact recordedDuring_step hs h.listed ho hok
    · rw [hs.point_of_ne (Ne.symm hcaller)] at ho
      exact (h.recorded ho hok).snoc e s'

theorem Fares.run {s₀ : System ι} (h₀ : Fares calls i j₀ [] s₀ j₀)
    (h : Run (Step serviceFaults calls) s₀ tr s) : ∃ j, Fares calls i j₀ tr s j := by
  induction h with
  | nil => exact ⟨j₀, h₀⟩
  | snoc _ hs ih =>
    obtain ⟨j, hj⟩ := ih
    exact hj.step hs

omit [DecidableEq ι] in
/-- Different calls publish in a run, and only calls that end so. -/
theorem Fares.publishers (h : Fares calls i j₀ tr s j) :
    (publishers (calls.call i).blobName tr).Nodup ∧
      ∀ a ∈ publishers (calls.call i).blobName tr, s.point a = .finished .updated := by
  have hnodup := h.inv.nodup_log (calls.call i).blobName
  rw [h.log] at hnodup
  refine ⟨(List.nodup_append.mp hnodup).2.1, fun a ha => ?_⟩
  apply h.refines.point_of_published
  apply (h.inv.mem_log (b := (calls.call i).blobName) _).2
  rw [h.log]
  exact List.mem_append_right _ ha

/-- Every call that comes to its end has its version recorded while it runs, or one of its
operations was answered by an error that is not the service's, or `maxRetries` other calls published
their versions of the block while it ran. -/
theorem write_recorded_or_outpaced {s₀ : System ι} {tr₀ : List (System ι × Event ι)}
    {o : WriteOutcome} (h₀ : Runs serviceFaults calls Container.empty tr₀ s₀)
    (hi : s₀.point i = .upload) (h : Run (Step serviceFaults calls) s₀ tr s)
    (ho : s.point i = .finished o) :
    o.succeeds = true ∧ RecordedDuring calls tr s i ∨
      (∃ p ∈ tr, p.2.caller = i ∧ p.2.faulted p.1) ∨
        maxRetries ≤ (publishers (calls.call i).blobName tr).length ∧
          (publishers (calls.call i).blobName tr).Nodup ∧
          i ∉ publishers (calls.call i).blobName tr := by
  obtain ⟨j₀, hr₀, hinv₀⟩ := Runs.refines id h₀
  obtain ⟨j, hj⟩ := (Fares.start hr₀ hinv₀ hi).run h
  by_cases hfault : ∃ p ∈ tr, p.2.caller = i ∧ p.2.faulted p.1
  · exact Or.inr (Or.inl hfault)
  · push Not at hfault
    have hun := hj.unhindered hfault
    have hat := hj.refines.point i
    generalize hp : j.phase i = p at hat hun
    generalize hpt : s.point i = pt at hat
    obtain rfl := hpt.symm.trans ho
    cases hat with
    | created | own | listed | published => exact Or.inl ⟨rfl, hj.recorded hpt rfl⟩
    | rejected => exact hun.elim
    | abandoned =>
      refine Or.inr (Or.inr ⟨?_, hj.publishers.1, fun hmem => ?_⟩)
      · have hlen : _ + maxRetries ≤ (j.log (calls.call i).blobName).length := hun
        rw [hj.log, List.length_append] at hlen
        omega
      · cases hpt.symm.trans (hj.publishers.2 i hmem)

end

section

attribute [local instance] Base64Url.unpadded

theorem cond_injective : Function.Injective fun second => (cond second 1 0 : UInt64) := by
  decide

/-- Two calls on one block. -/
def bothCalls : Calls Bool where
  call second := {
    chunk := ProtoChunk.toPromptChunk { hash := cond second 2 1, tokens := [0] }
    part1 := 0
    part2 := cond second 1 0 }
  guid_injective _ _ h := cond_injective (generateGuid_inj h).2

/-- The second call has met the blob of the first one. -/
def bothRun : List (System Bool × Event Bool) × System Bool :=
  execute bothCalls (served [false, true]) (System.initial Container.empty)

theorem writes_terminate_both : ∃ tr s, Run (Step noFaults bothCalls) bothRun.2 tr s ∧
    ∀ i, ∃ o, s.point i = .finished o :=
  (writes_terminate (served_run _ _)).2.2.2

/-- Two calls read the list of a block before either one publishes; the second one retries. -/
def overlappingRun : List (System UInt64 × Event UInt64) × System UInt64 :=
  execute twoVersions (served [0, 1, 2, 1, 2, 1, 2, 1, 2, 2, 2]) (System.initial Container.empty)

theorem write_recorded_or_outpaced_overlapping :
    RecordedDuring twoVersions overlappingRun.1 overlappingRun.2 2 := by
  have hfinished : overlappingRun.2.point 2 = .finished .updated := by decide +kernel
  have hserved : ∀ p ∈ overlappingRun.1, p.2.response = (p.1.store.perform p.2.op).1 := by
    decide +kernel
  have hfew : (publishers (twoVersions.call 2).blobName overlappingRun.1).length < maxRetries := by
    decide +kernel
  rcases write_recorded_or_outpaced .nil rfl (served_run _ _) hfinished with
    ⟨-, hrec⟩ | ⟨p, hp, -, hfault⟩ | ⟨hmany, -⟩
  · exact hrec
  · exact absurd (hserved p hp) hfault
  · exact absurd hmany (Nat.not_le.mpr hfew)

end

end KVStore
