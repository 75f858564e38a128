import KVStore.Acknowledge
import KVStore.Network

/-!
# What late requests leave of the journal

Of the journal's invariant little is left when requests are repeated and come late: a log may hold a
call twice, and calls that are not done, and a GUID blob may be deleted while it is listed, or
uploaded again when it is not. But a request carries the ETag that it was computed from, so what
arrives is the append that was meant, or nothing (`Delayed.perform`).

`Delayed` is what is left, `Delayed.step` that every step keeps it while the logs and the creators
follow what goes through, and `Delayed.run` the rule for whole runs.
-/

namespace KVStore

open Transition RecentWindow

universe u

section

variable {ι : Type u} [Base64Url] (calls : Calls ι) (j : Journal.State ι Text)

/-! ## What is left of the invariant -/

/-- What a call in a phase relies on. -/
def Grounded (i : ι) : Journal.Phase → Prop
  | .staging k | .publishing _ k => (∃ c, j.creator (calls.call i).blobName = some c) ∧
      k ≤ (j.log (calls.call i).blobName).length
  | .rereading _ k => (∃ c, j.creator (calls.call i).blobName = some c) ∧
      k < (j.log (calls.call i).blobName).length
  | .evicting _ k => (∃ c, j.creator (calls.call i).blobName = some c) ∧
      k ≤ (j.log (calls.call i).blobName).length ∧ maxVersions ≤ k
  | _ => True

/-- The blob `name` is what the journal has under that name. -/
structure Holds (store : Container) (name : Text) : Prop where
  base : ∀ {c}, j.creator name = some c → (calls.call c).blobName = name ∧
    ∃ etag < store.clock, store.blobs name = some (slotBlob calls c (j.log name) etag)
  log : ∀ {a}, a ∈ j.log name → (calls.call a).blobName = name ∧ ∃ c, j.creator name = some c
  staged : ∀ {a}, a ∈ j.staged → (calls.call a).guidLocation = name →
    ∃ etag, store.blobs name = some (entryBlob calls a etag)
  absent : j.creator name = none → (∀ a ∈ j.staged, (calls.call a).guidLocation ≠ name) →
    store.blobs name = none

/-- The requests that call `i` can have sent. -/
inductive Issued (store : Container) (i : ι) : BlobOp → Prop
  | create : Issued store i (.uploadIfNoneMatch (calls.call i).blobName (calls.call i).content
      ((calls.call i).uploadMetadata (calls.call i).blobName))
  | fetch : Issued store i (.getProperties (calls.call i).blobName)
  | stage : Issued store i (.upload (calls.call i).guidLocation (calls.call i).content
      ((calls.call i).uploadMetadata (calls.call i).guidLocation))
  | delete (a : ι) : Issued store i (.delete (calls.call a).guidLocation)
  | publish {k : Nat} {l : WriteLocals}
      (hc : ∃ c, j.creator (calls.call i).blobName = some c)
      (hk : k ≤ (j.log (calls.call i).blobName).length)
      (hsnap : Snapshot calls j.creator j.log store i k l)
      (hv : l.existingVersions =
        versions calls (((j.log (calls.call i).blobName).take k ++ [i]).rtake maxVersions)) :
      Issued store i (.setMetadata (calls.call i).blobName (updatedMetadata l) l.currentETag)

/-- The container, the calls and the requests on their way represent a journal. -/
structure Delayed (n : Network ι) : Prop where
  holds : ∀ name, Holds calls j n.system.store name
  point : ∀ i, At calls j.creator j.log n.system.store i (j.phase i) (n.system.point i)
  grounded : ∀ i, Grounded calls j i (j.phase i)
  sent : ∀ p ∈ n.sent, Issued calls j n.system.store p.1 p.2

variable {calls j} {j' : Journal.State ι Text} {store store' : Container} {i : ι}
  {p : Journal.Phase} {pt : WritePoint} {n : Network ι} {op : BlobOp}

theorem Delayed.initial :
    Delayed calls Journal.State.initial (Network.initial Container.empty) where
  holds _ := {
    base := fun h => by cases h
    log := fun h => by cases h
    staged := fun h => absurd h (Set.notMem_empty _)
    absent := fun _ _ => rfl }
  point _ := .starting
  grounded _ := trivial
  sent _ h := by cases h

theorem Delayed.refines (h : Delayed calls j n) : Refines calls j n.system where
  base hc := ((h.holds _).base hc).2
  staged ha := (h.holds _).staged ha rfl
  absent := (h.holds _).absent
  point := h.point

theorem At.issued (h : At calls j.creator j.log store i p pt) (hg : Grounded calls j i p)
    (hreq : pt.request (calls.call i) = some op) : Issued calls j store i op := by
  cases h with
  | starting =>
    cases hreq
    exact .create
  | reading | rereading =>
    cases hreq
    exact .fetch
  | staging =>
    cases hreq
    exact .stage
  | evicting hsnap hv =>
    obtain ⟨-, hk, hw⟩ := hg
    obtain ⟨a, -, hdelete⟩ := request_evict hk hw hv
    obtain rfl := Option.some.inj (hreq.symm.trans hdelete)
    exact .delete a
  | publishing hsnap hv =>
    cases hreq
    exact .publish hg.1 hg.2 hsnap hv
  | created | own | listed | published | rejected | abandoned => cases hreq

/-! ## Later journals and containers -/

/-- What the operations of the service keep. -/
structure Later (j : Journal.State ι Text) (store : Container) (j' : Journal.State ι Text)
    (store' : Container) : Prop where
  creator : ∀ {b c}, j.creator b = some c → j'.creator b = some c
  clock : store.clock ≤ store'.clock
  succeeds : ∀ {b c}, j.creator b = some c → Succeeds store store' j.log j'.log b

section

variable (h : Later j store j' store') {k : Nat} {l : WriteLocals}
include h

omit [Base64Url] in
theorem Later.log {b : Text} {c : ι} (hc : j.creator b = some c) : j.log b <+: j'.log b := by
  rcases h.succeeds hc with ⟨-, hlog⟩ | ⟨-, hprefix, -⟩
  · rw [hlog]
  · exact hprefix

omit [Base64Url] in
theorem Later.take {b : Text} {c : ι} (hc : j.creator b = some c) (hk : k ≤ (j.log b).length) :
    (j'.log b).take k = (j.log b).take k := by
  obtain ⟨rest, hrest⟩ := h.log hc
  rw [← hrest, List.take_append_of_le_length hk]

theorem Later.snapshot {c : ι} (hc : j.creator (calls.call i).blobName = some c)
    (hk : k ≤ (j.log (calls.call i).blobName).length)
    (hsnap : Snapshot calls j.creator j.log store i k l) :
    Snapshot calls j'.creator j'.log store' i k l :=
  hsnap.frame hk ((h.creator hc).trans hc.symm) h.clock (h.succeeds hc)

theorem Later.grounded (hg : Grounded calls j i p) : Grounded calls j' i p := by
  have hslot : (∃ c, j.creator (calls.call i).blobName = some c) →
      (∃ c, j'.creator (calls.call i).blobName = some c) ∧
        (j.log (calls.call i).blobName).length ≤ (j'.log (calls.call i).blobName).length :=
    fun ⟨c, hc⟩ => ⟨⟨c, h.creator hc⟩, (h.log hc).length_le⟩
  cases p with
  | staging k | publishing r k =>
    obtain ⟨hc, hlen⟩ := hslot hg.1
    exact ⟨hc, hg.2.trans hlen⟩
  | rereading r k =>
    obtain ⟨hc, hlen⟩ := hslot hg.1
    exact ⟨hc, hg.2.trans_le hlen⟩
  | evicting r k =>
    obtain ⟨hc, hlen⟩ := hslot hg.1
    exact ⟨hc, hg.2.1.trans hlen, hg.2.2⟩
  | starting | reading | done => trivial

theorem Later.point (hg : Grounded calls j i p) (hat : At calls j.creator j.log store i p pt) :
    At calls j'.creator j'.log store' i p pt := by
  cases hat with
  | staging hsnap hv =>
    obtain ⟨⟨c, hc⟩, hk⟩ := hg
    exact .staging (h.snapshot hc hk hsnap) (by rw [h.take hc hk, hv])
  | evicting hsnap hv =>
    obtain ⟨⟨c, hc⟩, hk, -⟩ := hg
    exact .evicting (h.snapshot hc hk hsnap) (by rw [h.take hc hk, hv])
  | publishing hsnap hv =>
    obtain ⟨⟨c, hc⟩, hk⟩ := hg
    exact .publishing (h.snapshot hc hk hsnap) (by rw [h.take hc hk, hv])
  | starting => exact .starting
  | reading => exact .reading
  | rereading => exact .rereading
  | created => exact .created
  | own => exact .own
  | listed => exact .listed
  | published => exact .published
  | rejected => exact .rejected
  | abandoned => exact .abandoned

theorem Later.issued (hi : Issued calls j store i op) : Issued calls j' store' i op := by
  cases hi with
  | create => exact .create
  | fetch => exact .fetch
  | stage => exact .stage
  | delete a => exact .delete a
  | publish hc hk hsnap hv =>
    obtain ⟨c, hc⟩ := hc
    refine .publish ⟨c, h.creator hc⟩ (hk.trans (h.log hc).length_le) (h.snapshot hc hk hsnap) ?_
    rw [h.take hc hk, hv]

end

/-! ## What the service performs -/

omit [Base64Url] in
theorem Later.refl : Later j store j store := ⟨id, le_rfl, fun _ => Or.inl ⟨rfl, rfl⟩⟩

/-- The blob `name` changes, as the journal does under that name. -/
theorem Delayed.change {name : Text} (h : Delayed calls j n) (hphase : j'.phase = j.phase)
    (hclock : n.system.store.clock ≤ store'.clock)
    (hblobs : ∀ b ≠ name, store'.blobs b = n.system.store.blobs b)
    (hcreator : ∀ b ≠ name, j'.creator b = j.creator b) (hlog : ∀ b ≠ name, j'.log b = j.log b)
    (hstaged : ∀ a, (calls.call a).guidLocation ≠ name → (a ∈ j'.staged ↔ a ∈ j.staged))
    (hname : Holds calls j' store' name)
    (hsucceeds : ∀ c, j.creator name = some c → j'.creator name = some c ∧
      Succeeds n.system.store store' j.log j'.log name) :
    Delayed calls j' (n.setStore store') ∧ Later j n.system.store j' store' := by
  have hlater : Later j n.system.store j' store' := by
    refine ⟨fun {b c} hc => ?_, hclock, fun {b c} hc => ?_⟩
    · by_cases hb : b = name
      · subst hb
        exact (hsucceeds c hc).1
      · rw [hcreator b hb, hc]
    · by_cases hb : b = name
      · subst hb
        exact (hsucceeds c hc).2
      · exact Or.inl ⟨hblobs b hb, hlog b hb⟩
  refine ⟨⟨fun b => ?_, fun i => ?_, fun i => ?_, fun q hq => hlater.issued (h.sent q hq)⟩, hlater⟩
  · by_cases hb : b = name
    · subst hb
      exact hname
    · obtain ⟨hbase, hmem, hentry, habsent⟩ := h.holds b
      refine ⟨fun {c} hc => ?_, fun {a} ha => ?_, fun {a} ha hguid => ?_, fun hc hst => ?_⟩
      · rw [hcreator b hb] at hc
        obtain ⟨hslot, etag, hlt, hblob⟩ := hbase hc
        exact ⟨hslot, etag, hlt.trans_le hclock, by rw [hlog b hb, ← hblob]; exact hblobs b hb⟩
      · rw [hlog b hb] at ha
        rw [hcreator b hb]
        exact hmem ha
      · have ha' := (hstaged a (hguid.trans_ne hb)).mp ha
        obtain ⟨etag, hblob⟩ := hentry ha' hguid
        exact ⟨etag, (hblobs b hb).trans hblob⟩
      · rw [hcreator b hb] at hc
        refine (hblobs b hb).trans (habsent hc fun a ha hguid => ?_)
        exact hst a ((hstaged a (hguid.trans_ne hb)).mpr ha) hguid
  · rw [hphase]
    exact hlater.point (h.grounded i) (h.point i)
  · rw [hphase]
    exact hlater.grounded (h.grounded i)

/-- From `j` to `j'`, the logs and the creators are what the operations of these events leave. -/
structure Follows (j : Journal.State ι Text) (events : List (Event ι)) (j' : Journal.State ι Text) :
    Prop where
  log : ∀ b, j'.log b = j.log b ++ (events.filter fun e => e.publishesTo b).map Event.caller
  creator : ∀ b, (j'.creator b).toList =
    (j.creator b).toList ++ (events.filter fun e => e.createsBlob b).map Event.caller

section

omit [Base64Url]

theorem Follows.refl : Follows j [] j where
  log _ := (List.append_nil _).symm
  creator _ := (List.append_nil _).symm

theorem Follows.trans {j₁ : Journal.State ι Text} {events events' : List (Event ι)}
    (h : Follows j events j₁) (h' : Follows j₁ events' j') : Follows j (events ++ events') j' where
  log b := by
    rw [h'.log, h.log, List.filter_append, List.map_append, List.append_assoc]
  creator b := by
    rw [h'.creator, h.creator, List.filter_append, List.map_append, List.append_assoc]

/-- An operation that leaves the logs and the creators alone. -/
theorem Follows.of_eq {e : Event ι} (hpublishes : ∀ b, e.publishesTo b = false)
    (hcreates : ∀ b, e.createsBlob b = false) (hlog : j'.log = j.log)
    (hcreator : j'.creator = j.creator) : Follows j [e] j' where
  log b := by
    rw [List.filter_singleton, hpublishes b, hlog]
    exact (List.append_nil _).symm
  creator b := by
    rw [List.filter_singleton, hcreates b, hcreator]
    exact (List.append_nil _).symm

theorem createsBlob_of_fault {e : Event ι} {status : HttpStatusCode}
    (he : e.response = .storageException status) (name : Text) : e.createsBlob name = false := by
  unfold Event.createsBlob
  rw [he]
  split
  · next hdone => cases hdone
  · rfl

end

theorem Delayed.log_eq_nil (h : Delayed calls j n) {b : Text} (hc : j.creator b = none) :
    j.log b = [] := by
  rw [List.eq_nil_iff_forall_not_mem]
  intro a ha
  obtain ⟨-, c, hc'⟩ := (h.holds b).log ha
  cases hc.symm.trans hc'

theorem Delayed.create (h : Delayed calls j n)
    (hc : j.creator (calls.call i).blobName = none) :
    let store' := n.system.store.put (calls.call i).blobName (calls.call i).content
      ((calls.call i).uploadMetadata (calls.call i).blobName)
    Delayed calls (j.create (calls.call i).blobName i) (n.setStore store') ∧
      Later j n.system.store (j.create (calls.call i).blobName i) store' := by
  have hcreator : (j.create (calls.call i).blobName i).creator (calls.call i).blobName = some i :=
    Function.update_self ..
  refine h.change rfl (Nat.le_succ _) (fun b hb => Container.blobs_put_ne _ hb)
    (fun b hb => Function.update_of_ne hb ..) (fun _ _ => rfl) (fun _ _ => Iff.rfl) ?_ ?_
  · refine ⟨fun {c} hc' => ?_, fun {a} ha => ?_, fun {a} _ hguid => ?_, fun hc' => ?_⟩
    · cases hcreator.symm.trans hc'
      refine ⟨rfl, n.system.store.clock, Nat.lt_succ_self _, ?_⟩
      rw [Container.blobs_put_self, Journal.State.create_log, h.log_eq_nil hc]
      rfl
    · obtain ⟨-, c, hc'⟩ := (h.holds _).log ha
      cases hc.symm.trans hc'
    · exact absurd hguid (guidLocation_ne_blobName _ _)
    · cases hcreator.symm.trans hc'
  · intro c hc'
    cases hc.symm.trans hc'

theorem Delayed.creator_guidLocation (h : Delayed calls j n) (a : ι) :
    j.creator (calls.call a).guidLocation = none := by
  rw [Option.eq_none_iff_forall_not_mem]
  intro c hc
  exact guidLocation_ne_blobName _ _ ((h.holds _).base hc).1.symm

theorem Delayed.stage (h : Delayed calls j n) (i : ι) :
    let store' := n.system.store.put (calls.call i).guidLocation (calls.call i).content
      ((calls.call i).uploadMetadata (calls.call i).guidLocation)
    Delayed calls (j.stage i) (n.setStore store') ∧
      Later j n.system.store (j.stage i) store' := by
  have hnone := h.creator_guidLocation i
  refine h.change rfl (Nat.le_succ _) (fun b hb => Container.blobs_put_ne _ hb) (fun _ _ => rfl)
    (fun _ _ => rfl) (fun a ha => ?_) ?_ ?_
  · refine Set.mem_insert_iff.trans (or_iff_right ?_)
    rintro rfl
    exact ha rfl
  · refine ⟨fun {c} hc => ?_, (h.holds _).log, fun {a} _ hguid => ?_, fun _ hst => ?_⟩
    · cases hnone.symm.trans hc
    · obtain rfl := calls.guid_injective hguid
      exact ⟨_, Container.blobs_put_self _⟩
    · exact absurd rfl (hst i (Set.mem_insert _ _))
  · intro c hc
    cases hnone.symm.trans hc

theorem Delayed.unstage (h : Delayed calls j n) (a : ι) :
    let store' := n.system.store.remove (calls.call a).guidLocation
    Delayed calls (j.unstage a) (n.setStore store') ∧
      Later j n.system.store (j.unstage a) store' := by
  have hnone := h.creator_guidLocation a
  refine h.change rfl le_rfl (fun b hb => Container.blobs_remove_ne _ hb) (fun _ _ => rfl)
    (fun _ _ => rfl) (fun a' ha' => ?_) ?_ ?_
  · refine and_iff_left ?_
    rintro rfl
    exact ha' rfl
  · refine ⟨fun {c} hc => ?_, (h.holds _).log, fun {a'} ha' hguid => ?_, fun _ _ => ?_⟩
    · cases hnone.symm.trans hc
    · exact absurd (calls.guid_injective hguid) ha'.2
    · exact Container.blobs_remove_self _
  · intro c hc
    cases hnone.symm.trans hc

theorem Delayed.append {c : ι} (h : Delayed calls j n)
    (hc : j.creator (calls.call i).blobName = some c) :
    let store' := n.system.store.put (calls.call i).blobName (calls.call c).content
      (slotMetadata calls c (j.log (calls.call i).blobName ++ [i]))
    Delayed calls (j.append (calls.call i).blobName i) (n.setStore store') ∧
      Later j n.system.store (j.append (calls.call i).blobName i) store' := by
  have hlog : (j.append (calls.call i).blobName i).log (calls.call i).blobName =
      j.log (calls.call i).blobName ++ [i] := Function.update_self ..
  refine h.change rfl (Nat.le_succ _) (fun b hb => Container.blobs_put_ne _ hb) (fun _ _ => rfl)
    (fun b hb => Function.update_of_ne hb ..) (fun _ _ => Iff.rfl) ?_ ?_
  · refine ⟨fun {c'} hc' => ?_, fun {a} ha => ?_, fun {a} _ hguid => ?_, fun hc' => ?_⟩
    · cases hc.symm.trans hc'
      refine ⟨((h.holds _).base hc).1, n.system.store.clock, Nat.lt_succ_self _, ?_⟩
      rw [hlog, Container.blobs_put_self]
      rfl
    · rw [hlog, List.mem_append, List.mem_singleton] at ha
      rcases ha with ha | rfl
      · exact (h.holds _).log ha
      · exact ⟨rfl, c, hc⟩
    · exact absurd hguid (guidLocation_ne_blobName _ _)
    · cases hc.symm.trans hc'
  · intro c' hc'
    refine ⟨hc', Or.inr ⟨⟨_, Container.blobs_put_self _, le_rfl⟩, ?_⟩⟩
    rw [hlog]
    exact ⟨List.prefix_append _ _, by simp⟩

theorem Delayed.unchanged {e : Event ι} (h : Delayed calls j n) (hstore : store' = n.system.store)
    (hpublishes : ∀ b, e.publishesTo b = false) (hcreates : ∀ b, e.createsBlob b = false) :
    ∃ j', Delayed calls j' (n.setStore store') ∧ Later j n.system.store j' store' ∧
      Follows j [e] j' := by
  subst hstore
  exact ⟨j, h, Later.refl, .of_eq hpublishes hcreates rfl rfl⟩

/-- What arrives is what was meant, or nothing. -/
theorem Delayed.perform (h : Delayed calls j n) (hi : Issued calls j n.system.store i op) :
    ∃ j', Delayed calls j' (n.setStore (n.system.store.perform op).2) ∧
      Later j n.system.store j' (n.system.store.perform op).2 ∧
      Follows j [{ caller := i, op, response := (n.system.store.perform op).1 }] j' := by
  cases hi with
  | create =>
    rcases hc : j.creator (calls.call i).blobName with _ | c
    · have hblob : n.system.store.blobs (calls.call i).blobName = none :=
        h.refines.blobs_eq_none hc
      obtain ⟨hdelayed, hlater⟩ := h.create hc
      simp only [Container.perform, hblob]
      refine ⟨_, hdelayed, hlater, fun b => (List.append_nil _).symm, fun b => ?_⟩
      rw [Journal.State.create_creator, List.filter_singleton]
      by_cases hb : b = (calls.call i).blobName
      · subst hb
        simp [Event.createsBlob, hc]
      · simp [Event.createsBlob, hb, Ne.symm hb]
    · obtain ⟨-, etag, -, hblob⟩ := (h.holds _).base hc
      simp only [Container.perform, hblob]
      exact h.unchanged rfl (fun _ => rfl) fun _ => rfl
  | fetch =>
    refine h.unchanged ?_ (fun _ => rfl) fun _ => rfl
    cases hblob : n.system.store.blobs (calls.call i).blobName <;>
      simp only [Container.perform, hblob]
  | stage =>
    obtain ⟨hdelayed, hlater⟩ := h.stage i
    exact ⟨_, hdelayed, hlater, .of_eq (fun _ => rfl) (fun _ => rfl) rfl rfl⟩
  | delete a =>
    obtain ⟨hdelayed, hlater⟩ := h.unstage a
    rw [Container.perform_delete]
    exact ⟨_, hdelayed, hlater, .of_eq (fun _ => rfl) (fun _ => rfl) rfl rfl⟩
  | @publish k l hc hk hsnap hv =>
    obtain ⟨c, hc⟩ := hc
    obtain ⟨-, etag, -, hblob⟩ := (h.holds _).base hc
    have hanswer : n.system.store.perform
        (.setMetadata (calls.call i).blobName (updatedMetadata l) l.currentETag) =
          if etag = l.currentETag then (.done, n.system.store.put (calls.call i).blobName
            (calls.call c).content (updatedMetadata l))
          else (.storageException .PreconditionFailed, n.system.store) :=
      Container.perform_setMetadata _ hblob
    rw [hanswer]
    by_cases he : etag = l.currentETag
    · have hlen := (hsnap.current hblob).mp he
      have hmeta := hsnap.metadata hc
      rw [hlen, List.take_length] at hmeta hv
      obtain ⟨hdelayed, hlater⟩ := h.append hc
      rw [if_pos he, updatedMetadata_slotMetadata hmeta hv]
      refine ⟨_, hdelayed, hlater, fun b => ?_, fun b => (List.append_nil _).symm⟩
      rw [Journal.State.append_log, List.filter_singleton]
      by_cases hb : b = (calls.call i).blobName
      · subst hb
        simp [Event.publishesTo]
      · simp [Event.publishesTo, hb, Ne.symm hb]
    · rw [if_neg he]
      exact h.unchanged rfl (publishesTo_of_fault rfl) (createsBlob_of_fault rfl)

/-! ## What a call makes of an answer -/

/-- What a call can hear, as the container is then. -/
inductive Heard (store : Container) : BlobOp → BlobResponse → Prop
  | fault {op : BlobOp} {status : HttpStatusCode} (h : status ≠ .PreconditionFailed) :
      Heard store op (.storageException status)
  | stale {name : Text} {metadata : Metadata} {etag : ETag} {blob : Blob}
      (hblob : store.blobs name = some blob) (h : blob.etag ≠ etag) :
      Heard store (.setMetadata name metadata etag) (.storageException .PreconditionFailed)
  | done {op : BlobOp} (h : ∀ name, op ≠ .getProperties name) : Heard store op .done
  | properties {name : Text} {blob : Blob} (hblob : store.blobs name = some blob) :
      Heard store (.getProperties name) (.properties blob.etag blob.metadata)

omit [Base64Url] in
theorem heard_perform (c : Container) (op : BlobOp) :
    Heard (c.perform op).2 op (c.perform op).1 := by
  cases op with
  | upload name content metadata => exact .done fun _ h => by cases h
  | uploadIfNoneMatch name content metadata =>
    cases hb : c.blobs name with
    | none =>
      simp only [Container.perform, hb]
      exact .done fun _ h => by cases h
    | some blob =>
      simp only [Container.perform, hb]
      exact .fault fun h => by cases h
  | getProperties name =>
    cases hb : c.blobs name with
    | none =>
      simp only [Container.perform, hb]
      exact .fault fun h => by cases h
    | some blob =>
      simp only [Container.perform, hb]
      exact .properties hb
  | delete name =>
    cases hb : c.blobs name with
    | none =>
      simp only [Container.perform, hb]
      exact .fault fun h => by cases h
    | some blob =>
      simp only [Container.perform, hb]
      exact .done fun _ h => by cases h
  | setMetadata name metadata etag =>
    cases hb : c.blobs name with
    | none =>
      simp only [Container.perform, hb]
      exact .fault fun h => by cases h
    | some blob =>
      rw [Container.perform_setMetadata _ hb]
      split
      · exact .done fun _ h => by cases h
      · next hne => exact .stale hb hne

theorem grounded_attempt {r k : Nat} (hc : ∃ c, j.creator (calls.call i).blobName = some c)
    (hk : k ≤ (j.log (calls.call i).blobName).length) :
    Grounded calls j i ((protocol calls).attempt r k) := by
  unfold Journal.Protocol.attempt
  split
  · next hw => exact ⟨hc, hk, hw⟩
  · exact ⟨hc, hk⟩

section

variable {c : ι} {blob : Blob} (h : Delayed calls j n)
  (hc : j.creator (calls.call i).blobName = some c)
include h hc

theorem Delayed.onProperties (hblob : n.system.store.blobs (calls.call i).blobName = some blob) :
    ∃ p, At calls j.creator j.log n.system.store i p
      (onProperties (calls.call i) blob.etag blob.metadata) ∧ Grounded calls j i p := by
  obtain ⟨-, etag, hlt, hslot⟩ := (h.holds _).base hc
  cases hblob.symm.trans hslot
  show ∃ p, At calls j.creator j.log n.system.store i p
    (KVStore.onProperties (calls.call i) etag (slotMetadata calls c _)) ∧ _
  by_cases hk : (protocol calls).key c = (protocol calls).key i
  · rw [onProperties_own hk]
    exact ⟨_, .own, trivial⟩
  · rw [onProperties_other hk]
    split
    · exact ⟨_, .listed, trivial⟩
    · exact ⟨_, .staging (Snapshot.whole hc hslot hlt) (by rw [List.take_length]), ⟨c, hc⟩, le_rfl⟩

theorem Delayed.onRefetch {r : Nat} {l : WriteLocals}
    (hne : j.log (calls.call i).blobName ≠ [])
    (hblob : n.system.store.blobs (calls.call i).blobName = some blob) :
    ∃ p, At calls j.creator j.log n.system.store i p
      (onRefetch (calls.call i) r l blob.etag blob.metadata) ∧ Grounded calls j i p := by
  obtain ⟨-, etag, hlt, hslot⟩ := (h.holds _).base hc
  cases hblob.symm.trans hslot
  show ∃ p, At calls j.creator j.log n.system.store i p
    (KVStore.onRefetch (calls.call i) r l etag (slotMetadata calls c _)) ∧ _
  rw [onRefetch_slotMetadata hne]
  refine ⟨_, .attempt (Snapshot.whole hc hslot hlt) le_rfl ?_, grounded_attempt ⟨c, hc⟩ le_rfl⟩
  rw [List.take_length]

end

theorem Delayed.resume {response : BlobResponse} (h : Delayed calls j n)
    (hreq : (n.system.point i).request (calls.call i) = some op)
    (hheard : Heard n.system.store op response) :
    ∃ p, At calls j.creator j.log n.system.store i p
      ((n.system.point i).resume (calls.call i) response) ∧ Grounded calls j i p := by
  have hat := h.point i
  have hg := h.grounded i
  generalize j.phase i = p at hat hg
  generalize n.system.point i = pt at hat hreq ⊢
  cases hat with
  | starting =>
    cases hreq
    cases hheard with
    | fault hne =>
      rw [WritePoint.resume]
      split
      · exact ⟨_, .reading, trivial⟩
      · exact ⟨_, .rejected, trivial⟩
    | done => exact ⟨_, .created, trivial⟩
  | reading =>
    cases hreq
    cases hheard with
    | fault hne => exact ⟨_, .rejected, trivial⟩
    | done hop => exact absurd rfl (hop _)
    | properties hblob =>
      rcases hc : j.creator (calls.call i).blobName with _ | c
      · cases (h.refines.blobs_eq_none hc).symm.trans hblob
      · exact h.onProperties hc hblob
  | staging hsnap hv =>
    cases hreq
    cases hheard with
    | fault hne => exact ⟨_, .rejected, trivial⟩
    | done => exact ⟨_, .attempt hsnap hg.2 hv, grounded_attempt hg.1 hg.2⟩
  | rereading =>
    cases hreq
    cases hheard with
    | fault hne =>
      rw [WritePoint.resume, onMetadataException, if_neg hne]
      exact ⟨_, .abandoned, trivial⟩
    | done hop => exact absurd rfl (hop _)
    | properties hblob =>
      obtain ⟨⟨c, hc⟩, hk⟩ := hg
      exact h.onRefetch hc (List.ne_nil_of_length_pos (Nat.zero_lt_of_lt hk)) hblob
  | evicting hsnap hv =>
    rw [WritePoint.resume_evict]
    exact ⟨_, .evicted hsnap hg.2.1 hg.2.2 hv, hg.1, hg.2.1⟩
  | publishing hsnap hv =>
    cases hreq
    cases hheard with
    | fault hne =>
      rw [WritePoint.resume, onMetadataException, if_neg hne]
      exact ⟨_, .abandoned, trivial⟩
    | done => exact ⟨_, .published, trivial⟩
    | stale hblob hne =>
      obtain ⟨hc, hk⟩ := hg
      have hlt := lt_of_le_of_ne hk (mt (hsnap.current hblob).mpr hne)
      simp only [WritePoint.resume, onMetadataException, if_true]
      split
      · exact ⟨_, .abandoned, trivial⟩
      · exact ⟨_, .rereading, hc, hlt⟩
  | created | own | listed | published | rejected | abandoned => cases hreq

/-! ## Steps and runs -/

section

variable [DecidableEq ι] {n' : Network ι} {e : NetworkEvent ι}
  {tr : List (Network ι × NetworkEvent ι)}

/-- Call `i` goes on, and nothing else changes. -/
theorem Delayed.goto (h : Delayed calls j n) (hp : At calls j.creator j.log n.system.store i p pt)
    (hg : Grounded calls j i p) :
    Delayed calls (j.goto i p)
      { n with system := { n.system with point := Function.update n.system.point i pt } } := by
  have hlater : Later j n.system.store (j.goto i p) n.system.store :=
    ⟨id, le_rfl, fun _ => Or.inl ⟨rfl, rfl⟩⟩
  refine ⟨fun name => ?_, fun i' => ?_, fun i' => ?_, fun q hq => hlater.issued (h.sent q hq)⟩
  · obtain ⟨hbase, hlog, hstaged, habsent⟩ := h.holds name
    exact ⟨hbase, hlog, hstaged, habsent⟩
  · show At calls j.creator j.log n.system.store i' ((j.goto i p).phase i')
      (Function.update n.system.point i pt i')
    rw [Journal.State.goto_phase]
    by_cases heq : i' = i
    · subst heq
      rw [Function.update_self, Function.update_self]
      exact hp
    · rw [Function.update_of_ne heq, Function.update_of_ne heq]
      exact h.point i'
  · rw [Journal.State.goto_phase]
    by_cases heq : i' = i
    · subst heq
      rw [Function.update_self]
      exact hlater.grounded hg
    · rw [Function.update_of_ne heq]
      exact hlater.grounded (h.grounded i')

/-- Call `i` goes on with an answer. -/
theorem Delayed.heard {response : BlobResponse} (h : Delayed calls j n)
    (hreq : (n.system.point i).request (calls.call i) = some op)
    (hheard : Heard n.system.store op response) :
    ∃ j', Delayed calls j'
        { n with system := n.system.resume calls i response n.system.store } ∧
      j'.log = j.log ∧ j'.creator = j.creator := by
  obtain ⟨p, hat, hg⟩ := h.resume hreq hheard
  exact ⟨_, h.goto hat hg, rfl, rfl⟩

/-- What is left of the invariant is kept, and the logs grow by what goes through. -/
theorem Delayed.step (h : Delayed calls j n) (hs : NetworkStep serviceFaults calls n e n') :
    ∃ j', Delayed calls j' n' ∧ Later j n.system.store j' n'.system.store ∧
      Follows j (e.performed n).toList j' := by
  cases hs with
  | @send i op hreq =>
    refine ⟨j, ⟨h.holds, h.point, h.grounded, ?_⟩, Later.refl, Follows.refl⟩
    rw [List.forall_mem_append, List.forall_mem_singleton]
    exact ⟨h.sent, (h.point i).issued (h.grounded i) hreq⟩
  | @arrive i op hsent => exact h.perform (h.sent _ hsent)
  | answer hs =>
    cases hs with
    | @served i op hreq =>
      obtain ⟨j₁, h₁, hlater, hfollows⟩ :=
        h.perform ((h.point i).issued (h.grounded i) hreq)
      obtain ⟨j', h', hlog, hcreator⟩ := h₁.heard hreq (heard_perform _ _)
      refine ⟨j', h', ⟨fun hc => ?_, hlater.clock, fun hc => ?_⟩, ⟨fun b => ?_, fun b => ?_⟩⟩
      · rw [hcreator]
        exact hlater.creator hc
      · rw [hlog]
        exact hlater.succeeds hc
      · rw [hlog]
        exact hfollows.log b
      · rw [hcreator]
        exact hfollows.creator b
    | @fault i op status hreq hne =>
      obtain ⟨j', h', hlog, hcreator⟩ := h.heard hreq (.fault hne)
      refine ⟨j', h', ⟨fun hc => hcreator ▸ hc, le_rfl, fun _ => Or.inl ⟨rfl, ?_⟩⟩, ?_⟩
      · rw [hlog]
      · exact .of_eq (publishesTo_of_fault rfl) (createsBlob_of_fault rfl) hlog hcreator

/-- A property of runs and journals that the steps preserve holds at the end of a run. -/
theorem Delayed.run
    (Q : List (Network ι × NetworkEvent ι) → Network ι → Journal.State ι Text → Prop)
    (hQ₀ : Q [] (Network.initial Container.empty) Journal.State.initial)
    (hQ : ∀ {tr n e n' j j'}, Delayed calls j n → Q tr n j →
      NetworkStep serviceFaults calls n e n' → Delayed calls j' n' →
      Later j n.system.store j' n'.system.store → Q (tr ++ [(n, e)]) n' j')
    (h : NetworkRuns serviceFaults calls Container.empty tr n) :
    ∃ j, Delayed calls j n ∧ Follows Journal.State.initial (performed tr) j ∧ Q tr n j := by
  induction h with
  | nil => exact ⟨_, Delayed.initial, Follows.refl, hQ₀⟩
  | snoc _ hs ih =>
    obtain ⟨j, hdelayed, hfollows, hq⟩ := ih
    obtain ⟨j', hdelayed', hlater, hstep⟩ := hdelayed.step hs
    refine ⟨j', hdelayed', ?_, hQ hdelayed hq hs hdelayed' hlater⟩
    rw [performed_snoc]
    exact hfollows.trans hstep

end

end

end KVStore
