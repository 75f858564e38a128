import KVStore.Observe

/-!
# The history of a run

What the journal at the end of a run says about the run: the states passed through represent earlier
journals, whose slots and logs are still there; every blob in use was uploaded by a step of the run
(`Runs.history`). As long as no deletion goes through, every entry of a log stays staged
(`Runs.kept`).
-/

namespace KVStore

open Transition RecentWindow

universe u

section

variable {ι : Type u} [Base64Url] (calls : Calls ι)

/-- A step of the run uploads this blob. -/
def Uploaded (tr : List (System ι × Event ι)) (name : Text) (content : List UInt8)
    (metadata : Metadata) : Prop :=
  ∃ p ∈ tr, p.2.response = .done ∧
    (p.2.op = .uploadIfNoneMatch name content metadata ∨ p.2.op = .upload name content metadata)

/-- The journal `j₁` is one that `j` has grown from. -/
structure Earlier (j₁ j : Journal.State ι Text) : Prop where
  creator : ∀ {b c}, j₁.creator b = some c → j.creator b = some c
  log : ∀ b, j₁.log b <+: j.log b

structure History (tr : List (System ι × Event ι)) (j : Journal.State ι Text) : Prop where
  past : ∀ p ∈ tr, ∃ j₁, Refines calls j₁ p.1 ∧ Journal.Inv (protocol calls) j₁ ∧ Earlier j₁ j
  created : ∀ {i}, j.phase i = .done .created → j.creator (calls.call i).blobName = some i
  creator : ∀ {b c}, j.creator b = some c → j.phase c = .done .created
  base : ∀ {b c}, j.creator b = some c →
    Uploaded tr b (calls.call c).content ((calls.call c).uploadMetadata b)
  entry : ∀ {i}, i ∈ j.staged →
    Uploaded tr (calls.call i).guidLocation (calls.call i).content
      ((calls.call i).uploadMetadata (calls.call i).guidLocation)

theorem History.initial : History calls [] Journal.State.initial where
  past p hp := by cases hp
  created h := by cases h
  creator h := by cases h
  base h := by cases h
  entry h := absurd h (Set.notMem_empty _)

variable {calls} {j j' : Journal.State ι Text} {s s' : System ι} {e : Event ι}
  {tr : List (System ι × Event ι)} {F : Faults} {served : Bool}

omit [Base64Url] in
theorem Earlier.refl : Earlier j j := ⟨id, fun _ => List.prefix_refl _⟩

theorem Earlier.step [DecidableEq ι] {j₁ : Journal.State ι Text} {i : ι} (h : Earlier j₁ j)
    (hj : Journal.Step (protocol calls) j i served j') : Earlier j₁ j' :=
  ⟨fun hc => hj.creator_mono (h.creator hc), fun b => (h.log b).trans (hj.log_prefix b)⟩

omit [Base64Url] in
theorem Uploaded.mono {name : Text} {content : List UInt8} {metadata : Metadata}
    (h : Uploaded tr name content metadata) (p : System ι × Event ι) :
    Uploaded (tr ++ [p]) name content metadata := by
  obtain ⟨q, hq, huploaded⟩ := h
  exact ⟨q, List.mem_append_left _ hq, huploaded⟩

variable [DecidableEq ι]

/-- A writer that creates its slot has uploaded the blob. -/
theorem Refines.uploads_base (h : Refines calls j s) (hs : Step F calls s e s')
    (horigin : Origin F s e true) (hp : j.phase e.caller = .starting)
    (hc : j.creator (calls.call e.caller).blobName = none) :
    Uploaded (tr ++ [(s, e)]) (calls.call e.caller).blobName (calls.call e.caller).content
      ((calls.call e.caller).uploadMetadata (calls.call e.caller).blobName) := by
  have hreq := hs.request
  rw [h.point_of_starting hp] at hreq
  obtain hop := Option.some.inj hreq
  refine ⟨_, List.mem_append_right _ (List.mem_singleton_self _), ?_, Or.inl hop.symm⟩
  rcases horigin with ⟨-, hresponse⟩ | ⟨hfalse, -⟩
  · rw [hresponse, ← hop]
    have hnone : s.store.blobs (calls.call e.caller).blobName = none := h.blobs_eq_none hc
    simp only [Container.perform, hnone]
  · cases hfalse

/-- A writer that stages its entry has uploaded the GUID blob. -/
theorem Refines.uploads_entry {k : Nat} (h : Refines calls j s) (hs : Step F calls s e s')
    (horigin : Origin F s e true) (hp : j.phase e.caller = .staging k) :
    Uploaded (tr ++ [(s, e)]) (calls.call e.caller).guidLocation (calls.call e.caller).content
      ((calls.call e.caller).uploadMetadata (calls.call e.caller).guidLocation) := by
  have hat := h.point e.caller
  have hreq := hs.request
  rw [hp] at hat
  generalize s.point e.caller = pt at hat hreq
  cases hat with
  | staging hsnap hv =>
    obtain hop := Option.some.inj hreq
    refine ⟨_, List.mem_append_right _ (List.mem_singleton_self _), ?_, Or.inr hop.symm⟩
    rcases horigin with ⟨-, hresponse⟩ | ⟨hfalse, -⟩
    · rw [hresponse, ← hop]
      rfl
    · cases hfalse

theorem History.step (h : History calls tr j) (hr : Refines calls j s)
    (hinv : Journal.Inv (protocol calls) j) (hs : Step F calls s e s')
    (horigin : Origin F s e served) (hj : Journal.Step (protocol calls) j e.caller served j') :
    History calls (tr ++ [(s, e)]) j' where
  past p hp := by
    rcases List.mem_append.mp hp with hp | hp
    · obtain ⟨j₁, hr₁, hinv₁, hearlier⟩ := h.past p hp
      exact ⟨j₁, hr₁, hinv₁, hearlier.step hj⟩
    · obtain rfl := List.mem_singleton.mp hp
      exact ⟨j, hr, hinv, Earlier.refl.step hj⟩
  created {i} hi := by
    by_cases hcaller : i = e.caller
    · subst hcaller
      exact hj.creator_of_created hi
    · rw [hj.phase_of_ne hcaller] at hi
      exact hj.creator_mono (h.created hi)
  creator {b c} hc := by
    rcases hj.creator_cases hc with hc | ⟨rfl, -, -, -, -, hphase⟩
    · have hphase := h.creator hc
      by_cases hcaller : c = e.caller
      · subst hcaller
        exact absurd hphase (hj.phase_ne_done _)
      · rw [hj.phase_of_ne hcaller, hphase]
    · exact hphase
  base {b c} hc := by
    rcases hj.creator_cases hc with hc | ⟨rfl, rfl, rfl, hp, hnone, -⟩
    · exact (h.base hc).mono _
    · exact hr.uploads_base hs horigin hp hnone
  entry {i} hi := by
    cases hj with
    | stage hp =>
      rcases Set.mem_insert_iff.mp hi with rfl | hi
      · exact hr.uploads_entry hs horigin hp
      · exact (h.entry hi).mono _
    | evict hp ha => exact (h.entry hi.1).mono _
    | _ => exact (h.entry hi).mono _

/-- Every run has its history. -/
theorem Runs.history (hF : ∀ {op status}, F op status → status ≠ .PreconditionFailed)
    (h : Runs F calls Container.empty tr s) :
    ∃ j, Refines calls j s ∧ Journal.Inv (protocol calls) j ∧ History calls tr j :=
  Refines.run (History calls) hF (Refines.initial calls) (Journal.Inv.initial _)
    (History.initial calls)
    (fun hr hinv hhistory hs horigin hj _ => hhistory.step hr hinv hs horigin hj) h

/-! ## Runs without deletions -/

/-- A deletion of the eviction loop goes through. -/
def Event.Deletes (e : Event ι) : Prop := e.response = .done ∧ ∃ name, e.op = .delete name

/-- Every entry of a log is staged, behind the window too. -/
def Kept (j : Journal.State ι Text) : Prop := ∀ b, ∀ a ∈ j.log b, a ∈ j.staged

/-- The entry that an eviction removes had no blob, unless the deletion goes through. -/
theorem Refines.notMem_staged_of_evicting {r k : Nat} {a : ι} (h : Refines calls j s)
    (hinv : Journal.Inv (protocol calls) j) (hs : Step F calls s e s')
    (horigin : Origin F s e true) (hp : j.phase e.caller = .evicting r k)
    (ha : (j.log (calls.call e.caller).blobName)[k - maxVersions]? = some a)
    (hdelete : ¬ e.Deletes) : a ∉ j.staged := by
  intro hst
  have hat := h.point e.caller
  have hsound := hinv.sound e.caller
  have hreq := hs.request
  rw [hp] at hat hsound
  obtain ⟨-, -, hk, hw⟩ := hsound
  generalize s.point e.caller = pt at hat hreq
  cases hat with
  | evicting hsnap hv =>
    obtain ⟨a', ha', hop⟩ := request_evict hk hw hv
    obtain rfl := Option.some.inj (ha.symm.trans ha')
    obtain hop := Option.some.inj (hreq.symm.trans hop)
    obtain ⟨etag, hblob⟩ := h.staged hst
    rcases horigin with ⟨-, hresponse⟩ | ⟨hfalse, -⟩
    · refine hdelete ⟨?_, _, hop⟩
      rw [hresponse, hop]
      simp only [Container.perform, hblob]
    · cases hfalse

theorem Kept.step (h : Kept j) (hr : Refines calls j s) (hinv : Journal.Inv (protocol calls) j)
    (hs : Step F calls s e s') (horigin : Origin F s e served)
    (hj : Journal.Step (protocol calls) j e.caller served j') (hdelete : ¬ e.Deletes) :
    Kept j' := by
  have hsound := hinv.sound e.caller
  cases hj with
  | stage => exact fun b a ha => Set.mem_insert_of_mem _ (h b a ha)
  | @evict r k hp a ha =>
    have hst := hr.notMem_staged_of_evicting hinv hs horigin hp ha hdelete
    refine fun b a' ha' => ⟨h b a' ha', ?_⟩
    rintro rfl
    exact hst (h b _ ha')
  | @publish r k hp hk =>
    rw [hp] at hsound
    intro b a ha
    rw [Journal.State.goto_log, Journal.State.append_log] at ha
    by_cases hb : b = (protocol calls).slot e.caller
    · subst hb
      rw [Function.update_self] at ha
      rcases List.mem_append.mp ha with ha | ha
      · exact h _ a ha
      · rw [List.mem_singleton.mp ha]
        exact hsound.1
    · rw [Function.update_of_ne hb] at ha
      exact h b a ha
  | _ => exact h

/-- In a run without deletions all versions stay in place. -/
theorem Runs.kept (hF : ∀ {op status}, F op status → status ≠ .PreconditionFailed)
    (h : Runs F calls Container.empty tr s) (hdelete : ∀ p ∈ tr, ¬ p.2.Deletes) :
    ∃ j, Refines calls j s ∧ Journal.Inv (protocol calls) j ∧ History calls tr j ∧ Kept j := by
  have hrun := Refines.run
    (fun tr j => History calls tr j ∧ ((∀ p ∈ tr, ¬ p.2.Deletes) → Kept j)) hF
    (Refines.initial calls) (Journal.Inv.initial _)
    ⟨History.initial calls, fun _ _ _ ha => absurd ha List.not_mem_nil⟩ ?_ h
  · obtain ⟨j, hr, hinv, hhistory, hkept⟩ := hrun
    exact ⟨j, hr, hinv, hhistory, hkept hdelete⟩
  · intro tr s e s' j j' served hr hinv ⟨hhistory, hkept⟩ hs horigin hj _
    refine ⟨hhistory.step hr hinv hs horigin hj, fun hno => ?_⟩
    rw [List.forall_mem_append, List.forall_mem_singleton] at hno
    exact (hkept hno.1).step hr hinv hs horigin hj hno.2

end

end KVStore
