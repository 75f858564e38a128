import KVStore.DelayedRequests
import KVStore.LookupRead
import KVStore.Progress

/-!
# Writes whose requests come late

What the store makes of requests that are repeated and come late, in every run over the network.

`delayed_appends`: the list of a block is what the `SetMetadata` operations that went through have
appended, in that order, and its default version is that of the only upload that did.
`delayed_lookup`: a location that a lookup returns is a call's on that block, and reads as its chunk
or is not found, whatever arrives in between. `delayed_acknowledged`: an acknowledged write is
recorded at the end, unless an error was swallowed or its block got more versions than fit.
-/

namespace KVStore

open Transition RecentWindow

universe u

section

variable {ι : Type u} [Base64Url] {calls : Calls ι} {j j' : Journal.State ι Text}
  {n n' : Network ι} {tokens : List Token} {v : AdditionalVersion} {i : ι}

/-! ## What readers see -/

theorem Delayed.listedVersions (h : Delayed calls j n) (tokens : List Token) :
    listedVersions n.system.store (encodeTokensToBlobName tokens) =
      .ok (versions calls ((j.log (encodeTokensToBlobName tokens)).rtake maxVersions)) := by
  unfold KVStore.listedVersions
  rcases hc : j.creator (encodeTokensToBlobName tokens) with _ | c
  · rw [h.refines.blobs_eq_none hc, h.log_eq_nil hc, List.rtake_nil]
    rfl
  · obtain ⟨-, etag, -, hblob⟩ := (h.holds _).base hc
    rw [hblob]
    exact additionalVersionsOf_slotMetadata c _

theorem Delayed.recordsDefault_iff (h : Delayed calls j n) :
    RecordsDefault n.system.store (encodeTokensToBlobName tokens) v ↔
      ∃ c, j.creator (encodeTokensToBlobName tokens) = some c ∧ v = creatorVersion calls c := by
  constructor
  · rintro ⟨blob, hblob, hv⟩
    rcases hc : j.creator (encodeTokensToBlobName tokens) with _ | c
    · cases (h.refines.blobs_eq_none hc).symm.trans hblob
    · obtain ⟨hslot, etag, -, hblob'⟩ := (h.holds _).base hc
      cases hblob'.symm.trans hblob
      cases hv.symm.trans (defaultVersion_slotMetadata hslot _)
      exact ⟨c, rfl, rfl⟩
  · rintro ⟨c, hc, rfl⟩
    obtain ⟨hslot, etag, -, hblob⟩ := (h.holds _).base hc
    exact ⟨_, hblob, defaultVersion_slotMetadata hslot _⟩

theorem Delayed.recordsAdditional_iff (h : Delayed calls j n) :
    RecordsAdditional n.system.store (encodeTokensToBlobName tokens) v ↔
      ∃ a ∈ (j.log (encodeTokensToBlobName tokens)).rtake maxVersions,
        v = (calls.call a).newVersion := by
  constructor
  · rintro ⟨blob, listed, hblob, hlist, hv⟩
    rcases hc : j.creator (encodeTokensToBlobName tokens) with _ | c
    · cases (h.refines.blobs_eq_none hc).symm.trans hblob
    · obtain ⟨-, etag, -, hblob'⟩ := (h.holds _).base hc
      cases hblob'.symm.trans hblob
      cases hlist.symm.trans (additionalVersionsOf_slotMetadata c _)
      obtain ⟨a, ha, rfl⟩ := List.mem_map.mp hv
      exact ⟨a, ha, rfl⟩
  · rintro ⟨a, ha, rfl⟩
    obtain ⟨-, c, hc⟩ := (h.holds _).log (mem_of_mem_rtake ha)
    obtain ⟨-, etag, -, hblob⟩ := (h.holds _).base hc
    exact ⟨_, _, hblob, additionalVersionsOf_slotMetadata c _, List.mem_map_of_mem ha⟩

/-- The GUID blob of a call reads as its chunk, or is not found. -/
theorem Delayed.readAsync_guidLocation (h : Delayed calls j n) (a : ι) :
    readAsync n.system.store (calls.call a).guidLocation =
        .ok (true, (calls.call a).chunk.persisted) ∨
      readAsync n.system.store (calls.call a).guidLocation = .ok (false, .empty) := by
  by_cases ha : a ∈ j.staged
  · exact Or.inl (h.refines.readAsync_staged ha)
  · refine Or.inr ?_
    have hnone : n.system.store.blobs (calls.call a).guidLocation = none := by
      refine h.refines.absent (h.creator_guidLocation a) fun a' ha' hguid => ?_
      exact ha (calls.guid_injective hguid ▸ ha')
    unfold readAsync
    rw [hnone]

/-- A version that was recorded earlier is a call's, and reads as its chunk or is not found. -/
theorem Delayed.read (h : Delayed calls j n) (h' : Delayed calls j' n')
    (hcreator : ∀ {b c}, j.creator b = some c → j'.creator b = some c)
    (hv : Records n.system.store (encodeTokensToBlobName tokens) v) :
    ∃ i, (calls.call i).blobName = encodeTokensToBlobName tokens ∧
      v.hash = (calls.call i).chunk.hash ∧ v.parentHash = (calls.call i).chunk.parentHash ∧
      (readAsync n'.system.store v.location = .ok (true, (calls.call i).chunk.persisted) ∨
        readAsync n'.system.store v.location = .ok (false, .empty)) := by
  rcases hv with hv | hv
  · obtain ⟨c, hc, rfl⟩ := h.recordsDefault_iff.mp hv
    have hslot := ((h.holds _).base hc).1
    have hc' := hcreator hc
    rw [← hslot] at hc'
    exact ⟨c, hslot, rfl, rfl, Or.inl (h'.refines.readAsync_creator hc')⟩
  · obtain ⟨a, ha, rfl⟩ := h.recordsAdditional_iff.mp hv
    exact ⟨a, ((h.holds _).log (mem_of_mem_rtake ha)).1, rfl, rfl, h'.readAsync_guidLocation a⟩

variable [DecidableEq ι] {tr : List (Network ι × NetworkEvent ι)}

/-- Requests are repeated and come late, and nevertheless the list of a block is what the
`SetMetadata` operations that went through have appended, in that order, cut to the last
`maxVersions`; at most one upload created the block, and its default version is that call's. -/
theorem delayed_appends (h : NetworkRuns serviceFaults calls Container.empty tr n)
    (tokens : List Token) :
    let b := encodeTokensToBlobName tokens
    listedVersions n.system.store b =
        .ok (((publications b tr).map fun e => (calls.call e.caller).newVersion).rtake
          maxVersions) ∧
      (creations b tr).length ≤ 1 ∧
      ∀ v, RecordsDefault n.system.store b v ↔
        ∃ e ∈ creations b tr, v = creatorVersion calls e.caller := by
  obtain ⟨j, hdelayed, hfollows, -⟩ :=
    Delayed.run (fun _ _ _ => True) trivial (fun _ _ _ _ _ => trivial) h
  have hlog := hfollows.log (encodeTokensToBlobName tokens)
  have hcreator := hfollows.creator (encodeTokensToBlobName tokens)
  rw [Journal.State.initial, List.nil_append] at hlog
  rw [Journal.State.initial, Option.toList_none, List.nil_append] at hcreator
  refine ⟨?_, ?_, fun v => ?_⟩
  · rw [hdelayed.listedVersions, hlog, versions, ← map_rtake, List.map_map]
    rfl
  · have hlen := congrArg List.length hcreator
    rw [List.length_map] at hlen
    exact hlen.symm.le.trans Option.length_toList_le
  · have hmem : ∀ c, j.creator (encodeTokensToBlobName tokens) = some c ↔
        ∃ e ∈ creations (encodeTokensToBlobName tokens) tr, e.caller = c := by
      intro c
      rw [← Option.mem_toList, hcreator]
      exact List.mem_map
    rw [hdelayed.recordsDefault_iff]
    constructor
    · rintro ⟨c, hc, rfl⟩
      obtain ⟨e, he, rfl⟩ := (hmem c).mp hc
      exact ⟨e, he, rfl⟩
    · rintro ⟨e, he, rfl⟩
      exact ⟨_, (hmem _).mpr ⟨e, he, rfl⟩, rfl⟩

/-! ## Lookups -/

omit [DecidableEq ι] in
/-- The locations of a lookup are recorded versions of the states that its properties come from. -/
theorem lookupWith_recordedAt {P : Container → Prop} {precomputedHashes : List Hash}
    {fetched : Nat → Except StdError BlockProperties} {result : LookupResult}
    (hfetched : ∀ k, (∃ c, P c ∧ fetched k = fetchedAt c tokens k) ∨
      ∃ status, fetched k = blockProperties (.storageException status))
    (hlookup : lookupWith fetched tokens precomputedHashes = .ok result) {k : Nat}
    {loc : BlockLocation} (hk : result.locations[k]? = some loc) :
    ∃ c v, P c ∧ Records c (encodeTokensToBlobName (blockTokens tokens k)) v ∧
      v.hash = loc.hash ∧ v.location = loc.location ∧
      ∀ previous, 0 < k → result.locations[k - 1]? = some previous →
        v.parentHash = previous.hash := by
  obtain ⟨blocks, hblocks, hchosen⟩ := lookupWith_chosen hlookup
  obtain ⟨block, p, expected, hblock, hfound, hexpected, hchoose⟩ := hchosen.each k loc hk
  obtain ⟨hname, hp⟩ := hblocks k block _ hblock
  -- a storage error counts as a missing block
  obtain ⟨c, hc, hprops⟩ : ∃ c, P c ∧ fetched k = fetchedAt c tokens k := by
    rcases hfetched k with hserved | ⟨status, herror⟩
    · exact hserved
    · cases hp.trans herror
      cases hfound
  rw [fetchedAt, ← hname] at hprops
  obtain ⟨v, hhash, hlocation, hcase⟩ :=
    chooseVersion_takes (hp.trans hprops).symm hfound hchoose
  rw [hname] at hcase
  refine ⟨c, v, hc, ?_, hhash, hlocation, fun previous hpos hprevious => ?_⟩
  · rcases hcase with ⟨-, hdefault⟩ | ⟨-, htakes⟩
    · exact Or.inl hdefault
    · exact htakes.records
  · obtain ⟨k, rfl⟩ := Nat.exists_eq_succ_of_ne_zero (Nat.ne_of_gt hpos)
    have hparent : v.parentHash = expected := by
      rcases hcase with ⟨h0, -⟩ | ⟨-, htakes⟩
      · omega
      · exact htakes.parentHash
    rw [Nat.succ_sub_one] at hprevious
    rw [List.getElem?_cons_succ, List.getElem?_map, hprevious] at hexpected
    exact hparent.trans (Option.some.inj hexpected).symm

/-- The properties of the blocks are fetched at states of the run, each block's at one of its own,
or not at all. -/
def NetworkFetches (tr : List (Network ι × NetworkEvent ι)) (n : Network ι) (tokens : List Token)
    (fetched : Nat → Except StdError BlockProperties) : Prop :=
  ∀ k, (∃ n₁ ∈ tr.map Prod.fst ++ [n], fetched k = fetchedAt n₁.system.store tokens k) ∨
    ∃ status, fetched k = blockProperties (.storageException status)

/-- Every location that a lookup returned belongs to a call that wrote the block as the child of the
block before; at any later time it reads as the chunk of that call, or is not found. -/
theorem delayed_lookup {precomputedHashes : List Hash}
    {fetched : Nat → Except StdError BlockProperties} {result : LookupResult}
    (h : NetworkRuns serviceFaults calls Container.empty tr n)
    (hfetched : NetworkFetches tr n tokens fetched)
    (hlookup : lookupWith fetched tokens precomputedHashes = .ok result) :
    ∀ k loc, result.locations[k]? = some loc →
      ∃ i, (calls.call i).blobName = encodeTokensToBlobName (blockTokens tokens k) ∧
        (calls.call i).chunk.hash = loc.hash ∧
        (∀ previous, 0 < k → result.locations[k - 1]? = some previous →
          (calls.call i).chunk.parentHash = previous.hash) ∧
        (readAsync n.system.store loc.location = .ok (true, (calls.call i).chunk.persisted) ∨
          readAsync n.system.store loc.location = .ok (false, .empty)) := by
  have hrun := Delayed.run
    (fun tr _ j => ∀ p ∈ tr, ∃ j₁, Delayed calls j₁ p.1 ∧
      ∀ {b c}, j₁.creator b = some c → j.creator b = some c)
    (fun _ hp => by cases hp) ?_ h
  · obtain ⟨j, hdelayed, -, hpast⟩ := hrun
    intro k loc hk
    obtain ⟨_, v, ⟨n₁, hn₁, rfl⟩, hv, hhash, hlocation, hparent⟩ :=
      lookupWith_recordedAt (P := fun c => ∃ n₁ ∈ tr.map Prod.fst ++ [n], n₁.system.store = c)
        (fun k => (hfetched k).imp_left fun ⟨n₁, hn₁, he⟩ => ⟨_, ⟨n₁, hn₁, rfl⟩, he⟩) hlookup hk
    obtain ⟨j₁, h₁, hcreator⟩ : ∃ j₁, Delayed calls j₁ n₁ ∧
        ∀ {b c}, j₁.creator b = some c → j.creator b = some c := by
      rcases List.mem_append.mp hn₁ with hn₁ | hn₁
      · obtain ⟨p, hp, rfl⟩ := List.mem_map.mp hn₁
        exact hpast p hp
      · obtain rfl := List.mem_singleton.mp hn₁
        exact ⟨j, hdelayed, id⟩
    obtain ⟨i, hname, hvhash, hvparent, hread⟩ := h₁.read hdelayed hcreator hv
    rw [hlocation] at hread
    refine ⟨i, hname, hvhash.symm.trans hhash, fun previous hpos hprevious => ?_, hread⟩
    exact hvparent.symm.trans (hparent previous hpos hprevious)
  · intro tr n e n' j j' hdelayed hpast _ _ hlater
    rw [List.forall_mem_append, List.forall_mem_singleton]
    refine ⟨fun p hp => ?_, j, hdelayed, hlater.creator⟩
    obtain ⟨j₁, h₁, hcreator⟩ := hpast p hp
    exact ⟨j₁, h₁, fun hc => hlater.creator (hcreator hc)⟩

/-! ## Acknowledged writes -/

/-- The version of call `i` is in the journal. -/
def Journaled (calls : Calls ι) (j : Journal.State ι Text) (i : ι) : Prop :=
  (∃ c, j.creator (calls.call i).blobName = some c ∧
    (protocol calls).key c = (protocol calls).key i) ∨
  ∃ a ∈ j.log (calls.call i).blobName, (protocol calls).key a = (protocol calls).key i

section

omit [DecidableEq ι]

theorem Journaled.later {store store' : Container} (h : Journaled calls j i)
    (hlater : Later j store j' store')
    (hlog : ∀ {b a}, a ∈ j.log b → ∃ c, j.creator b = some c) : Journaled calls j' i := by
  rcases h with ⟨c, hc, hkey⟩ | ⟨a, ha, hkey⟩
  · exact Or.inl ⟨c, hlater.creator hc, hkey⟩
  · obtain ⟨c, hc⟩ := hlog ha
    exact Or.inr ⟨a, (hlater.log hc).subset ha, hkey⟩

theorem Delayed.journaled (h : Delayed calls j n) (hrecords : RecordsPair n.system.store
    (calls.call i).blobName (calls.call i).chunk.hash (calls.call i).chunk.parentHash) :
    Journaled calls j i := by
  obtain ⟨v, hv | hv, hhash, hparent⟩ := hrecords
  · obtain ⟨c, hc, rfl⟩ := h.recordsDefault_iff.mp hv
    exact Or.inl ⟨c, hc, Prod.ext hhash hparent⟩
  · obtain ⟨a, ha, rfl⟩ := h.recordsAdditional_iff.mp hv
    exact Or.inr ⟨a, mem_of_mem_rtake ha, Prod.ext hhash hparent⟩

/-- A version in the journal is recorded, while the log of its block fits. -/
theorem Delayed.recordsPair (h : Delayed calls j n) (hi : Journaled calls j i)
    (hfits : (j.log (calls.call i).blobName).length ≤ maxVersions) :
    RecordsPair n.system.store (calls.call i).blobName (calls.call i).chunk.hash
      (calls.call i).chunk.parentHash := by
  rcases hi with ⟨c, hc, hkey⟩ | ⟨a, ha, hkey⟩
  · obtain ⟨hhash, hparent⟩ := Prod.ext_iff.mp hkey
    exact ⟨_, Or.inl (h.recordsDefault_iff.mpr ⟨c, hc, rfl⟩), hhash, hparent⟩
  · obtain ⟨hhash, hparent⟩ := Prod.ext_iff.mp hkey
    rw [← rtake_of_length_le hfits] at ha
    exact ⟨_, Or.inr (h.recordsAdditional_iff.mpr ⟨a, ha, rfl⟩), hhash, hparent⟩

end

/-- Call `i` has met an error that the outermost handler swallows. -/
def NetworkSwallowed (tr : List (Network ι × NetworkEvent ι)) (i : ι) : Prop :=
  ∃ p ∈ tr, ∃ e, p.2 = .answer e ∧ Swallowed i p.1.system e

/-- How far call `i` has come. -/
structure NetworkSettled (calls : Calls ι) (tr : List (Network ι × NetworkEvent ι)) (n : Network ι)
    (j : Journal.State ι Text) (i : ι) : Prop where
  listed : (n.system.point i).Listed (calls.call i)
  finished : ∀ {o}, n.system.point i = .finished o → o.future = .ok () →
    Journaled calls j i ∨ NetworkSwallowed tr i

theorem NetworkSettled.step {e : NetworkEvent ι} (h : NetworkSettled calls tr n j i)
    (hdelayed : Delayed calls j n) (hs : NetworkStep serviceFaults calls n e n')
    (hdelayed' : Delayed calls j' n') (hlater : Later j n.system.store j' n'.system.store) :
    NetworkSettled calls (tr ++ [(n, e)]) n' j' i := by
  have hjournaled : Journaled calls j i → Journaled calls j' i := fun hi =>
    hi.later hlater fun {b a} ha => ((hdelayed.holds b).log ha).2
  have hkept : ∀ {o}, n.system.point i = .finished o → o.future = .ok () →
      Journaled calls j' i ∨ NetworkSwallowed (tr ++ [(n, e)]) i := by
    intro o ho hok
    refine (h.finished ho hok).imp hjournaled fun ⟨p, hp, hsw⟩ => ?_
    exact ⟨p, List.mem_append_left _ hp, hsw⟩
  cases hs with
  | send => exact ⟨h.listed, hkept⟩
  | arrive => exact ⟨h.listed, hkept⟩
  | @answer e s' hs =>
    by_cases hi : i = e.caller
    · subst hi
      have hpoint := hs.point_caller
      refine ⟨hpoint ▸ h.listed.resume _, fun {o} ho hok => ?_⟩
      rcases h.listed.resume_finished hs.request hs.answer (hpoint.symm.trans ho) hok with
        hrecords | hrecords | ⟨status, he, hsw⟩
      · exact Or.inl (hjournaled (hdelayed.journaled hrecords))
      · exact Or.inl (hdelayed'.journaled hrecords)
      · exact Or.inr ⟨(n, .answer e), by simp, e, rfl, rfl, status, he, hsw⟩
    · have hpoint := hs.point_of_ne hi
      exact ⟨hpoint ▸ h.listed, fun ho hok => hkept (hpoint ▸ ho) hok⟩

/-- A write whose future returns is recorded at the end of the run, unless one of its operations met
an error that the outermost handler swallows, or its block got more versions than fit. -/
theorem delayed_acknowledged {o : WriteOutcome}
    (h : NetworkRuns serviceFaults calls Container.empty tr n)
    (ho : n.system.point i = .finished o) (hok : o.future = .ok ())
    (hfits : (publications (calls.call i).blobName tr).length ≤ maxVersions)
    (hno : ¬ NetworkSwallowed tr i) :
    RecordsPair n.system.store (calls.call i).blobName (calls.call i).chunk.hash
      (calls.call i).chunk.parentHash := by
  obtain ⟨j, hdelayed, hfollows, hsettled⟩ := Delayed.run
    (fun tr n j => NetworkSettled calls tr n j i) ⟨trivial, fun ho => by cases ho⟩
    (fun hdelayed hq hs hdelayed' hlater => hq.step hdelayed hs hdelayed' hlater) h
  refine hdelayed.recordsPair ((hsettled.finished ho hok).resolve_right hno) ?_
  have hlog := hfollows.log (calls.call i).blobName
  rw [Journal.State.initial, List.nil_append] at hlog
  rw [hlog, List.length_map]
  exact hfits

end

/-! ## A version that is listed twice -/

section

attribute [local instance] Base64Url.unpadded

/-- The second call loses one answer, and its retry goes through. -/
def oneLostAnswer : List (Delivery UInt64) :=
  [.answer 0 none, .answer 1 none, .answer 1 none, .answer 1 none] ++
    lostAnswer 0 ++ [.answer 1 none, .answer 1 none]

def oneLostAnswerRun : List (Network UInt64 × NetworkEvent UInt64) × Network UInt64 :=
  executeNetwork twoVersions oneLostAnswer (Network.initial Container.empty)

theorem oneLostAnswerRun_run {F : Faults} :
    NetworkRuns F twoVersions Container.empty oneLostAnswerRun.1 oneLostAnswerRun.2 := by
  refine executeNetwork_run fun d hd i status he => ?_
  subst he
  simp [oneLostAnswer, lostAnswer] at hd

theorem oneLostAnswerRun_publications :
    (publications (encodeTokensToBlobName [0]) oneLostAnswerRun.1).map
      (fun e => (twoVersions.call e.caller).newVersion) =
        [(twoVersions.call 1).newVersion, (twoVersions.call 1).newVersion] := by
  decide +kernel

theorem delayed_appends_oneLostAnswer :
    listedVersions oneLostAnswerRun.2.system.store (encodeTokensToBlobName [0]) =
      .ok [(twoVersions.call 1).newVersion, (twoVersions.call 1).newVersion] := by
  have happends := (delayed_appends oneLostAnswerRun_run [0]).1
  rw [oneLostAnswerRun_publications] at happends
  exact happends

theorem delayed_acknowledged_oneLostAnswer :
    RecordsPair oneLostAnswerRun.2.system.store (twoVersions.call 1).blobName
      (twoVersions.call 1).chunk.hash (twoVersions.call 1).chunk.parentHash := by
  have hfits : (publications (twoVersions.call 1).blobName oneLostAnswerRun.1).length ≤
      maxVersions := by decide +kernel
  have hgoes : ∀ p ∈ oneLostAnswerRun.1, ∀ e ∈ p.2.performed p.1, e.response ≠ .done →
      ((p.1.system.point 1).resume (twoVersions.call 1) e.response).atRest = false := by
    decide +kernel
  refine delayed_acknowledged (o := .updated) oneLostAnswerRun_run (by decide +kernel) rfl hfits ?_
  rintro ⟨p, hp, e, he, -, status, hresponse, hsw⟩
  have hrest := hgoes p hp e (by rw [he]; rfl) fun hdone => by cases hresponse.symm.trans hdone
  rw [hresponse, WritePoint.resume_of_swallows hsw] at hrest
  cases hrest

/-- The upload of a block is sent, arrives, and arrives again when its child has been written. -/
def repeatedUpload : List (Delivery UInt64) :=
  [.send 0, .arrive 0, .answer 0 none, .answer 1 none, .arrive 0]

def repeatedUploadRun : List (Network UInt64 × NetworkEvent UInt64) × Network UInt64 :=
  executeNetwork middleBlock repeatedUpload (Network.initial Container.empty)

theorem repeatedUploadRun_run {F : Faults} :
    NetworkRuns F middleBlock Container.empty repeatedUploadRun.1 repeatedUploadRun.2 := by
  refine executeNetwork_run fun d hd i status he => ?_
  subst he
  simp [repeatedUpload] at hd

/-- The properties of the first block are fetched before its child is written, those of the child
when it has been. -/
def repeatedUploadFetched (k : Nat) : Except StdError BlockProperties :=
  fetchedAt ((repeatedUploadRun.1.map Prod.fst ++ [repeatedUploadRun.2]).getD (k + 3)
    repeatedUploadRun.2).system.store (zeroBlock ++ nextBlock) k

theorem repeatedUploadFetched_fetches : NetworkFetches repeatedUploadRun.1 repeatedUploadRun.2
    (zeroBlock ++ nextBlock) repeatedUploadFetched := by
  intro k
  refine Or.inl ⟨_, ?_, rfl⟩
  rw [List.getD_eq_getElem?_getD]
  cases hk : (repeatedUploadRun.1.map Prod.fst ++ [repeatedUploadRun.2])[k + 3]? with
  | none => exact List.mem_append_right _ (List.mem_singleton_self _)
  | some n => exact List.mem_of_getElem? hk

theorem lookupWith_repeatedUpload :
    lookupWith repeatedUploadFetched (zeroBlock ++ nextBlock) [] = .ok {
      cachedBlocks := 2
      lastHash := 6
      locations := [{ hash := 5, location := encodeTokensToBlobName zeroBlock },
        { hash := 6, location := encodeTokensToBlobName nextBlock }] } := by
  decide +kernel

theorem delayed_lookup_repeatedUpload :
    (∃ i, (middleBlock.call i).chunk.hash = 5 ∧
      (readAsync repeatedUploadRun.2.system.store (encodeTokensToBlobName zeroBlock) =
          .ok (true, (middleBlock.call i).chunk.persisted) ∨
        readAsync repeatedUploadRun.2.system.store (encodeTokensToBlobName zeroBlock) =
          .ok (false, .empty))) ∧
    ∃ i, (middleBlock.call i).chunk.hash = 6 ∧ (middleBlock.call i).chunk.parentHash = 5 ∧
      (readAsync repeatedUploadRun.2.system.store (encodeTokensToBlobName nextBlock) =
          .ok (true, (middleBlock.call i).chunk.persisted) ∨
        readAsync repeatedUploadRun.2.system.store (encodeTokensToBlobName nextBlock) =
          .ok (false, .empty)) := by
  have hfound := delayed_lookup repeatedUploadRun_run repeatedUploadFetched_fetches
    lookupWith_repeatedUpload
  obtain ⟨i, -, hhash, -, hread⟩ := hfound 0 _ rfl
  obtain ⟨i', -, hhash', hparent', hread'⟩ := hfound 1 _ rfl
  exact ⟨⟨i, hhash, hread⟩, i', hhash', hparent' _ Nat.one_pos rfl, hread'⟩

end

end KVStore
