import KVStore.Observe
import KVStore.Schedule

/-!
# `SetMetadata` is an atomic append

Whatever the calls do in between, a `SetMetadata` that goes through replaces the list of additional
versions by its last `maxVersions` entries after the new version is appended, and leaves the blob
otherwise as it is (`setMetadata_appends`). So no list is longer than `maxVersions`, and a version
stays listed until `maxVersions` later appends to its block.
-/

namespace KVStore

open Transition RecentWindow

universe u

/-- The event is a `SetMetadata` on the blob `name` that went through. -/
def Event.publishesTo {ι : Type u} (e : Event ι) (name : Text) : Bool :=
  match e.op, e.response with
  | .setMetadata name' _ _, .done => name' = name
  | _, _ => false

/-- From `c` to `c'`, the version is appended to the list of the blob `name`, and the oldest one
is dropped when there are too many; nothing else changes. -/
def AppendsVersion (c c' : Container) (name : Text) (version : AdditionalVersion) : Prop :=
  ∃ blob blob' versions,
    c.blobs name = some blob ∧ c'.blobs name = some blob' ∧
    additionalVersionsOf blob.metadata = .ok versions ∧
    additionalVersionsOf blob'.metadata = .ok ((versions ++ [version]).rtake maxVersions) ∧
    blob'.content = blob.content ∧
    (∀ entry ∈ ["hash".toList, "parenthash".toList, "location".toList],
      findMetadata blob'.metadata entry = findMetadata blob.metadata entry) ∧
    ∀ name' ≠ name, c'.blobs name' = c.blobs name'

section

variable {ι : Type u} {e : Event ι}

theorem publishesTo_iff {name : Text} :
    e.publishesTo name = true ↔
      (∃ m etag, e.op = .setMetadata name m etag) ∧ e.response = .done := by
  unfold Event.publishesTo
  split
  · next h hr =>
    rw [h, hr, decide_eq_true_eq]
    constructor
    · rintro rfl
      exact ⟨⟨_, _, rfl⟩, rfl⟩
    · rintro ⟨⟨m, etag, he⟩, -⟩
      cases he
      rfl
  · next hno =>
    apply iff_of_false Bool.false_ne_true
    rintro ⟨⟨m, etag, he⟩, hr⟩
    exact hno _ _ _ he hr

theorem publishesTo_of_fault {status : HttpStatusCode} (he : e.response = .storageException status)
    (name : Text) : e.publishesTo name = false := by
  rw [← Bool.not_eq_true, publishesTo_iff, he]
  rintro ⟨-, hr⟩
  cases hr

variable [Base64Url] {calls : Calls ι} {j : Journal.State ι Text} {s : System ι}

/-- A call that issues `SetMetadata` is publishing. -/
theorem Refines.publishing {i : ι} {name : Text} {m : Metadata} {etag : ETag}
    (h : Refines calls j s)
    (hreq : (s.point i).request (calls.call i) = some (.setMetadata name m etag)) :
    ∃ r k, j.phase i = .publishing r k := by
  have hat := h.point i
  generalize j.phase i = p at hat ⊢
  generalize s.point i = pt at hat hreq
  cases hat with
  | publishing hsnap hv => exact ⟨_, _, rfl⟩
  | evicting hsnap hv =>
    obtain ⟨v, -, hv⟩ := Option.map_eq_some_iff.mp hreq
    cases hv
  | _ => cases hreq

/-- The `SetMetadata` of a publishing writer goes through exactly when the log has not grown. -/
theorem Refines.publishes_iff (h : Refines calls j s) (hinv : Journal.Inv (protocol calls) j)
    (hreq : (s.point e.caller).request (calls.call e.caller) = some e.op)
    (he : e.response = (s.store.perform e.op).1) {r k : Nat}
    (hp : j.phase e.caller = .publishing r k) {b : Text} :
    e.publishesTo b = true ↔
      (calls.call e.caller).blobName = b ∧ k = (j.log (calls.call e.caller).blobName).length := by
  have hat := h.point e.caller
  have hsound := hinv.sound e.caller
  rw [hp] at hat hsound
  obtain ⟨-, ⟨c, hc⟩, -⟩ := hsound
  obtain ⟨etag, -, hblob⟩ := h.base hc
  replace hblob : s.store.blobs (calls.call e.caller).blobName = some _ := hblob
  generalize s.point e.caller = pt at hat hreq
  cases hat with
  | publishing hsnap hv =>
    have hop : e.op = .setMetadata _ _ _ := (Option.some.inj hreq).symm
    rw [hop, Container.perform_setMetadata _ hblob] at he
    rw [← hsnap.current hblob, publishesTo_iff, hop, he]
    split
    · next hcur =>
      refine ⟨?_, ?_⟩
      · rintro ⟨⟨m, etag', hm⟩, -⟩
        cases hm
        exact ⟨rfl, hcur⟩
      · rintro ⟨rfl, -⟩
        exact ⟨⟨_, _, rfl⟩, rfl⟩
    · next hcur => exact iff_of_false (fun hd => by cases hd.2) (fun hd => hcur hd.2)

theorem findMetadata_slotMetadata {c : ι} {log log' : List ι} {name : Text}
    (h : name.map Char.toLower ≠ "additionalversions".toList) :
    findMetadata (slotMetadata calls c log) name =
      findMetadata (slotMetadata calls c log') name := by
  have hupload : ∀ l : List ι, findMetadata (slotMetadata calls c l) name =
      findMetadata ((calls.call c).uploadMetadata (calls.call c).blobName) name := by
    intro l
    unfold slotMetadata findMetadata
    split
    · rfl
    · exact lookup_setEntry_ne _ _ h
  rw [hupload, hupload]

omit [Base64Url] in
theorem versions_append (l : List ι) (i : ι) :
    versions calls ((l ++ [i]).rtake maxVersions) =
      (versions calls (l.rtake maxVersions) ++ [(calls.call i).newVersion]).rtake maxVersions :=
  map_rtake_append ..

variable [DecidableEq ι] {F : Faults} {j' : Journal.State ι Text} {s' : System ι} {served : Bool}

/-- The log of a slot grows by the caller exactly when its `SetMetadata` goes through. -/
theorem Refines.log_step (h : Refines calls j s) (hinv : Journal.Inv (protocol calls) j)
    (hs : Step F calls s e s') (horigin : Origin F s e served)
    (hj : Journal.Step (protocol calls) j e.caller served j') (b : Text) :
    j'.log b = if e.publishesTo b then j.log b ++ [e.caller] else j.log b := by
  rcases horigin with ⟨rfl, he⟩ | ⟨rfl, status, -, he⟩
  · have hother : (∀ r k, j.phase e.caller ≠ .publishing r k) → e.publishesTo b = false := by
      intro hp
      rw [← Bool.not_eq_true, publishesTo_iff]
      rintro ⟨⟨m, etag, hop⟩, -⟩
      obtain ⟨r, k, hpub⟩ := h.publishing (hop ▸ hs.request)
      exact hp r k hpub
    have hiff := fun r k hp => @Refines.publishes_iff _ _ _ _ _ _ h hinv hs.request he r k hp b
    cases hj with
    | publish hp hk =>
      rw [Journal.State.goto_log, Journal.State.append_log]
      rcases eq_or_ne (calls.call e.caller).blobName b with rfl | hne
      · rw [if_pos ((hiff _ _ hp).mpr ⟨rfl, hk⟩)]
        exact Function.update_self ..
      · rw [if_neg (fun hb => hne ((hiff _ _ hp).mp hb).1)]
        exact Function.update_of_ne hne.symm ..
    | retry hp hk | giveUp hp hk =>
      rw [if_neg (fun hb => hk ((hiff _ _ hp).mp hb).2)]
      rfl
    | create hp | occupied hp | missing hp | own hp | listed hp | fresh hp | stage hp | reread hp
    | evict hp =>
      rw [hother (by simp [hp])]
      rfl
  · rw [publishesTo_of_fault he]
    cases hj <;> rfl

/-- A `SetMetadata` that goes through appends the caller's version. -/
theorem Refines.appendsVersion {name : Text} (h : Refines calls j s)
    (hinv : Journal.Inv (protocol calls) j) (hs : Step F calls s e s')
    (horigin : Origin F s e served)
    (hj : Journal.Step (protocol calls) j e.caller served j') (h' : Refines calls j' s')
    (he : e.publishesTo name = true) :
    name = (calls.call e.caller).blobName ∧
      AppendsVersion s.store s'.store name (calls.call e.caller).newVersion := by
  obtain ⟨⟨m, etag, hop⟩, hdone⟩ := publishesTo_iff.mp he
  obtain ⟨r, k, hp⟩ := h.publishing (hop ▸ hs.request)
  obtain ⟨-, ⟨c, hc⟩, -⟩ : Journal.Sound (protocol calls) j e.caller (.publishing r k) :=
    hp ▸ hinv.sound e.caller
  have hlog := h.log_step hinv hs horigin hj name
  have hanswer := hs.store_of_done hdone
  rw [if_pos he] at hlog
  obtain rfl := ((h.publishes_iff hinv hs.request hanswer.1 hp).mp he).1
  obtain ⟨etag₁, -, hblob⟩ := h.base hc
  obtain ⟨etag₂, -, hblob'⟩ := h'.base (hj.creator_mono hc)
  refine ⟨rfl, _, _, _, hblob, hblob', additionalVersionsOf_slotMetadata c _, ?_, rfl, ?_, ?_⟩
  · rw [← versions_append]
    apply (additionalVersionsOf_slotMetadata c _).trans
    rw [show j'.log ((protocol calls).slot e.caller) = _ from hlog]
    rfl
  · have hne : ∀ entry ∈ ["hash".toList, "parenthash".toList, "location".toList],
        entry.map Char.toLower ≠ "additionalversions".toList := by decide
    exact fun entry hentry => findMetadata_slotMetadata (hne entry hentry)
  · intro name hname
    replace hblob : s.store.blobs (calls.call e.caller).blobName = some _ := hblob
    rw [hanswer.2, hop, Container.perform_setMetadata _ hblob]
    split
    · exact Container.blobs_put_ne _ hname
    · rfl

/-- The appends to a slot along a run are the `SetMetadata`s that go through. -/
theorem Refines.log_run {s₀ : System ι} {j₀ : Journal.State ι Text}
    {tr : List (System ι × Event ι)}
    (hF : ∀ {op status}, F op status → status ≠ .PreconditionFailed)
    (h₀ : Refines calls j₀ s₀) (hinv₀ : Journal.Inv (protocol calls) j₀)
    (h : Run (Step F calls) s₀ tr s) (b : Text) :
    ∃ j, Refines calls j s ∧ Journal.Inv (protocol calls) j ∧ ∃ later, j.log b = j₀.log b ++ later ∧
      later.length = tr.countP fun p => p.2.publishesTo b := by
  refine Refines.run (fun tr j => ∃ later, j.log b = j₀.log b ++ later ∧
    later.length = tr.countP fun p => p.2.publishesTo b) hF h₀ hinv₀ ⟨[], by simp⟩ ?_ h
  rintro tr s e s' j j' served hr hinv ⟨later, hlog, hlen⟩ hs horigin hj -
  rw [hr.log_step hinv hs horigin hj, List.countP_append, List.countP_singleton, ← hlen, hlog]
  split
  · exact ⟨later ++ [e.caller], by simp, by simp⟩
  · exact ⟨later, rfl, by simp⟩

/-- In every run, no list of versions exceeds the cap, and every `SetMetadata` that goes through is
an append, whose version stays listed until `maxVersions` later ones. -/
theorem setMetadata_appends {tr : List (System ι × Event ι)}
    (h : Runs serviceFaults calls Container.empty tr s) :
    (∀ tokens, ∃ listed, listedVersions s.store (encodeTokensToBlobName tokens) = .ok listed ∧
      listed.length ≤ maxVersions) ∧
    ∀ {e s' name}, Step serviceFaults calls s e s' → e.publishesTo name = true →
      name = (calls.call e.caller).blobName ∧
      AppendsVersion s.store s'.store name (calls.call e.caller).newVersion ∧
      ∀ {tr' s''}, Run (Step serviceFaults calls) s' tr' s'' →
        (tr'.countP fun p => p.2.publishesTo name) < maxVersions →
          ∃ listed, listedVersions s''.store name = .ok listed ∧
            (calls.call e.caller).newVersion ∈ listed := by
  obtain ⟨j, hr, hinv⟩ := Runs.refines id h
  refine ⟨fun tokens => ⟨_, hr.listedVersions hinv tokens, ?_⟩, ?_⟩
  · rw [length_versions, Journal.State.view, length_rtake]
    exact Nat.min_le_left _ _
  · intro e s' name hs he
    obtain ⟨j', served, hj, hr', horigin⟩ := hr.step id hinv hs
    obtain ⟨rfl, happ⟩ := hr.appendsVersion hinv hs horigin hj hr' he
    refine ⟨rfl, happ, fun {tr' s''} hrun hcount => ?_⟩
    have hlog := hr.log_step hinv hs horigin hj (calls.call e.caller).blobName
    rw [if_pos he] at hlog
    obtain ⟨j'', hr'', hinv'', later, hlater, hlen⟩ :=
      hr'.log_run id (hinv.step hj) hrun (calls.call e.caller).blobName
    refine ⟨_, hr''.listedVersions hinv'' (calls.call e.caller).chunk.tokens, ?_⟩
    have hview : e.caller ∈ j''.view (protocol calls) (calls.call e.caller).blobName := by
      rw [Journal.State.view, hlater, hlog]
      exact mem_rtake_append (hlen ▸ hcount)
    exact List.mem_map_of_mem hview

end

section

attribute [local instance] Base64Url.unpadded

def twoVersions : Calls UInt64 :=
  numberedCalls fun i => { tokens := [0], hash := i }

/-- The second call is about to publish its version. -/
def twoVersionsRun : List (System UInt64 × Event UInt64) × System UInt64 :=
  execute twoVersions (served [0, 1, 1, 1]) (System.initial Container.empty)

theorem setMetadata_appends_second : ∃ e s', Step serviceFaults twoVersions twoVersionsRun.2 e s' ∧
    AppendsVersion twoVersionsRun.2.store s'.store (twoVersions.call 1).blobName
      (twoVersions.call 1).newVersion := by
  have hact : (twoVersionsRun.2.act twoVersions 1 none).isSome = true := by decide +kernel
  have hs : Step serviceFaults twoVersions twoVersionsRun.2 _ _ :=
    System.act_step (fun _ _ hstatus => by cases hstatus) (Option.some_get hact).symm
  have hpub : ((twoVersionsRun.2.act twoVersions 1 none).get hact).1.publishesTo
      (twoVersions.call 1).blobName = true := by decide +kernel +revert
  exact ⟨_, _, hs, ((setMetadata_appends (served_run _ _)).2 hs hpub).2.1⟩

end

end KVStore
