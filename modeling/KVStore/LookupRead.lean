import KVStore.Append
import KVStore.Dangling
import KVStore.History
import KVStore.ReadBack
import KVStore.Retrieval
import Mathlib.Data.List.Perm.Subperm

/-!
# Lookup and Read without a snapshot

The properties of the blocks are fetched at different moments while calls go on (`Fetches`,
`lookupWith`). Blobs stay as they were uploaded and versions stay recorded, so a location that was
recorded at any moment can be read at every later one, as long as no deletion goes through
(`History.read`, `lookupWith_read`). With at most `maxVersions` uploads of additional versions to a
block none does (`no_deletion`); but the call of a further one deletes before it publishes, and when
it fails in between, a location of the full list is gone (`lookupWith_loses`).
-/

namespace KVStore

open Transition RecentWindow

universe u

section

variable [Base64Url]

/-- `Lookup` with what the futures of the blocks delivered. -/
def lookupWith (fetched : Nat → Except StdError BlockProperties) (tokens : List Token)
    (precomputedHashes : List Hash) : Except StdError LookupResult :=
  let numFullBlocks := tokens.length / blockSize
  if numFullBlocks = 0 then .ok {}
  else
    lookupLoop ((List.range numFullBlocks).map fun i =>
      (blockInfo tokens precomputedHashes i, fetched i)) 0 0 {}

/-- What the futures deliver when all properties are fetched on one state. -/
def fetchedAt (c : Container) (tokens : List Token) (i : Nat) : Except StdError BlockProperties :=
  blockProperties (c.perform (.getProperties (encodeTokensToBlobName (blockTokens tokens i)))).1

theorem lookup_eq_lookupWith (c : Container) (tokens : List Token) (precomputedHashes : List Hash) :
    lookup c tokens precomputedHashes = lookupWith (fetchedAt c tokens) tokens precomputedHashes :=
  rfl

theorem lookupWith_chosen {fetched : Nat → Except StdError BlockProperties} {tokens : List Token}
    {precomputedHashes : List Hash} {result : LookupResult}
    (h : lookupWith fetched tokens precomputedHashes = .ok result) :
    ∃ blocks, (∀ i block future, blocks[i]? = some (block, future) →
        block.blobName = encodeTokensToBlobName (blockTokens tokens i) ∧ future = fetched i) ∧
      Chosen blocks 0 0 result.locations := by
  unfold lookupWith at h
  dsimp only at h
  split at h
  · cases h
    exact ⟨[], fun _ _ _ hb => (by cases hb), .stop⟩
  · obtain ⟨locs, hl, -, hc⟩ := lookupLoop_chosen h
    rw [List.nil_append] at hl
    refine ⟨_, ?_, hl ▸ hc⟩
    intro i block future hb
    rw [List.getElem?_map] at hb
    obtain ⟨k, hk, hpair⟩ := Option.map_eq_some_iff.mp hb
    obtain ⟨hlt, hrange⟩ := List.getElem?_eq_some_iff.mp hk
    rw [List.getElem_range] at hrange
    subst hrange
    obtain ⟨rfl, rfl⟩ := Prod.mk.inj hpair
    exact ⟨rfl, rfl⟩

variable {ι : Type u}

omit [Base64Url] in
/-- The states that a run has passed. -/
def passed (tr : List (System ι × Event ι)) (s : System ι) : List (System ι) :=
  tr.map Prod.fst ++ [s]

omit [Base64Url] in
theorem mem_passed_end (tr : List (System ι × Event ι)) (s : System ι) : s ∈ passed tr s :=
  List.mem_append_right _ (List.mem_singleton_self s)

omit [Base64Url] in
/-- What the future of a blob delivers, when the service answers it at one of the states that the
run has passed, or with a storage error. -/
def Fetches (tr : List (System ι × Event ι)) (s : System ι) (blobName : Text)
    (future : Except StdError BlockProperties) : Prop :=
  (∃ s₁ ∈ passed tr s,
    future = blockProperties (s₁.store.perform (.getProperties blobName)).1) ∨
  ∃ status, future = blockProperties (.storageException status)

variable {calls : Calls ι} {j : Journal.State ι Text} {s : System ι}
  {tr : List (System ι × Event ι)}

/-- A `Lookup` on a state that the run has passed. -/
theorem fetchedAt_fetches {s₁ : System ι} (hs₁ : s₁ ∈ passed tr s)
    (tokens : List Token) (i : Nat) :
    Fetches tr s (encodeTokensToBlobName (blockTokens tokens i)) (fetchedAt s₁.store tokens i) :=
  Or.inl ⟨s₁, hs₁, rfl⟩

/-- Every state that the run has passed represents an earlier journal. -/
theorem History.reaches (h : History calls tr j) (hr : Refines calls j s)
    (hinv : Journal.Inv (protocol calls) j) {s₁ : System ι} (hs₁ : s₁ ∈ passed tr s) :
    ∃ j₁, Refines calls j₁ s₁ ∧ Journal.Inv (protocol calls) j₁ ∧ Earlier j₁ j := by
  rcases List.mem_append.mp hs₁ with hp | hp
  · obtain ⟨q, hq, rfl⟩ := List.mem_map.mp hp
    exact h.past q hq
  · obtain rfl := List.mem_singleton.mp hp
    exact ⟨j, hr, hinv, Earlier.refl⟩

/-- A version that was recorded at some state can still be read, as it was uploaded. -/
theorem History.read (h : History calls tr j) (hr : Refines calls j s)
    (hinv : Journal.Inv (protocol calls) j) (hkept : Kept j) {s₁ : System ι}
    (hs₁ : s₁ ∈ passed tr s) {tokens : List Token} {v : AdditionalVersion}
    (hv : Records s₁.store (encodeTokensToBlobName tokens) v) :
    ∃ i, readAsync s.store v.location = .ok (true, (calls.call i).chunk.persisted) ∧
      v.hash = (calls.call i).chunk.hash ∧ v.parentHash = (calls.call i).chunk.parentHash ∧
      Uploaded tr v.location (calls.call i).content
        ((calls.call i).uploadMetadata v.location) := by
  obtain ⟨j₁, hr₁, hinv₁, hearlier⟩ := h.reaches hr hinv hs₁
  rcases hv with hv | hv
  · obtain ⟨c, hc, rfl⟩ := (hr₁.recordsDefault_iff hinv₁).mp hv
    have hname : (calls.call c).blobName = _ := hinv₁.slot_creator hc
    have hcreator := hearlier.creator hc
    rw [← hname] at hcreator
    exact ⟨c, hr.readAsync_creator hcreator, rfl, rfl, h.base hcreator⟩
  · obtain ⟨a, ha, rfl⟩ := (hr₁.recordsAdditional_iff hinv₁).mp hv
    have hstaged : a ∈ j.staged := hkept _ a ((hearlier.log _).subset (mem_of_mem_rtake ha))
    exact ⟨a, hr.readAsync_staged hstaged, rfl, rfl, h.entry hstaged⟩

variable [DecidableEq ι]

/-- In a run without deletions, every location that a `Lookup` returned, whenever it fetched the
properties of each block, reads as the version that it was returned for: with the hash of the
location, the hash of the location before it as parent, and the buffer of the version's upload. -/
theorem lookupWith_read {tokens : List Token} {precomputedHashes : List Hash}
    {fetched : Nat → Except StdError BlockProperties} {result : LookupResult}
    (h : Runs serviceFaults calls Container.empty tr s) (hdelete : ∀ p ∈ tr, ¬ p.2.Deletes)
    (hfetched : ∀ i, Fetches tr s (encodeTokensToBlobName (blockTokens tokens i)) (fetched i))
    (hlookup : lookupWith fetched tokens precomputedHashes = .ok result) :
    ∀ i loc, result.locations[i]? = some loc →
      ∃ chunk metadata, readAsync s.store loc.location = .ok (true, chunk) ∧
        chunk.hash = loc.hash ∧
        (∀ previous, 0 < i → result.locations[i - 1]? = some previous →
          chunk.parentHash = previous.hash) ∧
        Uploaded tr loc.location chunk.buffer metadata ∧
        hashEntry metadata "hash".toList = .ok chunk.hash ∧
        hashEntry metadata "parenthash".toList = .ok chunk.parentHash := by
  obtain ⟨j, hr, hinv, hhistory, hkept⟩ := Runs.kept id h hdelete
  obtain ⟨blocks, hblocks, hchosen⟩ := lookupWith_chosen hlookup
  intro i loc hi
  obtain ⟨block, p, expected, hblock, hfound, hexpected, hchoose⟩ := hchosen.each i loc hi
  obtain ⟨hname, hp⟩ := hblocks i block _ hblock
  -- a storage error counts as a missing block
  obtain ⟨s₁, hs₁, hprops⟩ : ∃ s₁ ∈ passed tr s, fetched i =
      blockProperties (s₁.store.perform (.getProperties block.blobName)).1 := by
    rcases hfetched i with hserved | ⟨status, herror⟩
    · exact hname ▸ hserved
    · cases hp.trans herror
      cases hfound
  obtain ⟨v, hhash, hlocation, hcase⟩ :=
    chooseVersion_takes (hp.trans hprops).symm hfound hchoose
  rw [hname] at hcase
  have hv : Records s₁.store (encodeTokensToBlobName (blockTokens tokens i)) v := by
    rcases hcase with ⟨-, hdefault⟩ | ⟨-, htakes⟩
    · exact Or.inl hdefault
    · exact htakes.records
  obtain ⟨a, hread, hvhash, hvparent, huploaded⟩ := hhistory.read hr hinv hkept hs₁ hv
  rw [hlocation] at hread huploaded
  refine ⟨_, (calls.call a).uploadMetadata loc.location, hread, hvhash.symm.trans hhash, ?_, ?_,
    hashEntry_hash (Call.lookup_hash _ _), hashEntry_parenthash (Call.lookup_parenthash _ _)⟩
  · intro previous hpos hprevious
    obtain ⟨k, rfl⟩ := Nat.exists_eq_succ_of_ne_zero (Nat.ne_of_gt hpos)
    rw [Nat.succ_sub_one] at hprevious
    have hparent : v.parentHash = expected := by
      rcases hcase with ⟨h0, -⟩ | ⟨-, htakes⟩
      · omega
      · exact htakes.parentHash
    rw [List.getElem?_cons_succ, List.getElem?_map, hprevious] at hexpected
    exact (hvparent.symm.trans hparent).trans (Option.some.inj hexpected).symm
  · exact Call.content_eq (calls.call a) ▸ huploaded

/-! ## When nothing is deleted -/

/-- At most `maxVersions` calls upload an additional version of a block. -/
def FewUploads (calls : Calls ι) (tr : List (System ι × Event ι)) : Prop :=
  ∀ b, ∃ uploaders : List ι, uploaders.length ≤ maxVersions ∧
    ∀ i content metadata, (calls.call i).blobName = b →
      Uploaded tr (calls.call i).guidLocation content metadata → i ∈ uploaders

omit [DecidableEq ι] in
theorem Refines.evicting_of_deletes {e : Event ι} (h : Refines calls j s)
    (hreq : (s.point e.caller).request (calls.call e.caller) = some e.op) (he : e.Deletes) :
    ∃ r k, j.phase e.caller = .evicting r k := by
  obtain ⟨-, name, hop⟩ := he
  have hat := h.point e.caller
  rw [hop] at hreq
  generalize j.phase e.caller = p at hat ⊢
  generalize s.point e.caller = pt at hat hreq
  cases hat with
  | evicting => exact ⟨_, _, rfl⟩
  | _ => cases hreq

omit [DecidableEq ι] in
/-- With few uploads no call comes to the eviction. -/
theorem History.not_evicting (h : History calls tr j) (hinv : Journal.Inv (protocol calls) j)
    (hkept : Kept j) (hfew : FewUploads calls tr) (i : ι) (r k : Nat) :
    j.phase i ≠ .evicting r k := by
  intro hp
  obtain ⟨hst, -, hk, hw⟩ : Journal.Sound (protocol calls) j i (.evicting r k) := hp ▸ hinv.sound i
  obtain ⟨uploaders, hlen, huploaders⟩ := hfew (calls.call i).blobName
  have hnodup : (i :: j.log (calls.call i).blobName).Nodup :=
    List.nodup_cons.mpr ⟨hinv.notMem_log (by simp [hp]) _, hinv.nodup_log _⟩
  have hsub : i :: j.log (calls.call i).blobName ⊆ uploaders := by
    intro a ha
    rcases List.mem_cons.mp ha with rfl | ha
    · exact huploaders a _ _ rfl (h.entry hst)
    · exact huploaders a _ _ (hinv.mem_log ha).1 (h.entry (hkept _ a ha))
  have hle := (hnodup.subperm hsub).length_le
  rw [List.length_cons] at hle
  have hlog : maxVersions ≤ (j.log (calls.call i).blobName).length := hw.trans hk
  omega

/-- As long as at most `maxVersions` additional versions of each block are uploaded, no deletion
goes through. -/
theorem no_deletion (h : Runs serviceFaults calls Container.empty tr s)
    (hfew : FewUploads calls tr) : ∀ p ∈ tr, ¬ p.2.Deletes := by
  have hrun := Refines.run (fun tr j => History calls tr j ∧
    (FewUploads calls tr → (∀ p ∈ tr, ¬ p.2.Deletes) ∧ Kept j)) id
    (Refines.initial calls) (Journal.Inv.initial _)
    ⟨History.initial calls, fun _ => ⟨fun _ hp => absurd hp List.not_mem_nil,
      fun _ _ ha => absurd ha List.not_mem_nil⟩⟩ ?_ h
  · obtain ⟨j, -, -, -, hno⟩ := hrun
    exact (hno hfew).1
  · intro tr s e s' j j' served hr hinv ⟨hhistory, hno⟩ hs horigin hj _
    refine ⟨hhistory.step hr hinv hs horigin hj, fun hfew => ?_⟩
    have hfew' : FewUploads calls tr := by
      intro b
      obtain ⟨uploaders, hlen, huploaders⟩ := hfew b
      exact ⟨uploaders, hlen, fun i content metadata hi hup =>
        huploaders i content metadata hi (hup.mono _)⟩
    obtain ⟨hbefore, hkept⟩ := hno hfew'
    have hdelete : ¬ e.Deletes := by
      intro he
      obtain ⟨r, k, hp⟩ := hr.evicting_of_deletes hs.request he
      exact hhistory.not_evicting hinv hkept hfew' e.caller r k hp
    refine ⟨?_, hkept.step hr hinv hs horigin hj hdelete⟩
    rw [List.forall_mem_append, List.forall_mem_singleton]
    exact ⟨hbefore, hdelete⟩

/-! ## A version too many that is not published -/

omit [DecidableEq ι] [Base64Url] in
theorem mem_passed_of_run {step : System ι → Event ι → System ι → Prop} {s₁ : System ι}
    (h : Run step s₁ tr s) : s₁ ∈ passed tr s := by
  induction h with
  | nil => exact List.mem_singleton_self _
  | @snoc tr s s' e _ _ ih =>
    unfold passed at ih ⊢
    rw [List.map_append]
    exact List.mem_append_left _ ih

/-- The oldest version is deleted, and then `SetMetadata` fails. -/
theorem ReachesEviction.loses {i a : ι} (h : ReachesEviction calls i s j)
    (ha : (j.view (protocol calls) (calls.call i).blobName).head? = some a) :
    ∃ tr s' status, Run (Step serviceFaults calls) s tr s' ∧
      s'.store.blobs (calls.call a).guidLocation = none ∧
      s'.point i = .finished (.storageException status) ∧ ∀ k ≠ i, s'.point k = s.point k := by
  obtain ⟨tr, s₁, j₁, r, hrun, hr, hinv, hphase, hlog, hpoint⟩ := h
  obtain ⟨-, -, -, hw⟩ : Journal.Sound (protocol calls) j₁ i (.evicting r _) :=
    hphase ▸ hinv.sound i
  replace hw : maxVersions ≤ (j₁.log (calls.call i).blobName).length := hw
  obtain ⟨op, j₂, hreq, hj, hr₂⟩ := hr.advance hinv hphase (by simp)
  have hinv₂ := hinv.step hj
  have hcases := hj.served_cases
  rw [hphase] at hcases
  obtain ⟨a', ha', rfl⟩ := hcases
  obtain rfl : a' = a := by
    obtain ⟨hlt, rfl⟩ := List.getElem?_eq_some_iff.mp ha'
    unfold Journal.State.view at ha
    rw [← hlog, rtake_eq_cons (n := (protocol calls).window) hw (protocol calls).window_pos] at ha
    exact Option.some.inj ha
  have hgone : (s₁.resume calls i (s₁.store.perform op).1 (s₁.store.perform op).2).store.blobs
      (calls.call a').guidLocation = none := by
    rw [← Option.not_isSome_iff_eq_none, hr₂.isSome_guidLocation_iff hinv₂]
    exact fun hmem => hmem.2 rfl
  obtain ⟨op', -, hreq', -⟩ := hr₂.advance hinv₂ (Function.update_self ..) (by simp)
  have hfault : serviceFaults op' (.Other 500) := fun hstatus => by cases hstatus
  refine ⟨_, _, .Other 500, ((hrun.mono (Step.mono fun hf => hf.elim)).snoc (.served hreq)).snoc
    (.fault hreq' hfault), hgone, ?_, ?_⟩
  · have hat := hr₂.point i
    rw [Journal.State.goto_phase, Function.update_self] at hat
    refine (Function.update_self ..).trans ?_
    generalize (s₁.resume calls i _ _).point i = pt at hat
    cases hat with
    | publishing => rfl
  · intro k hk
    exact ((Function.update_of_ne hk ..).trans (Function.update_of_ne hk ..)).trans (hpoint k hk)

theorem InOrder.mem_of_finished {order : List ι} (h : InOrder calls order s j) {i : ι}
    {o : WriteOutcome} (hi : s.point i = .finished o) : i ∈ order := by
  by_contra hno
  cases (h.refines.point_of_starting (h.starting i hno)).symm.trans hi

/-- A run that has left a blob behind has a call that uploaded it as the first version. -/
theorem exists_uploaded (h : Runs serviceFaults calls Container.empty tr s) {tokens : List Token}
    {blob : Blob} (hblob : s.store.blobs (encodeTokensToBlobName tokens) = some blob) :
    ∃ c, s.point c = .finished .uploaded := by
  obtain ⟨j, hr, -, hhistory⟩ := Runs.history id h
  rcases hc : j.creator (encodeTokensToBlobName tokens) with _ | c
  · cases (hr.blobs_eq_none hc).symm.trans hblob
  · exact ⟨c, hr.point_of_created (hhistory.creator hc)⟩

/-- Calls one after the other, and a further one that does not publish: one of them uploaded the
block, so at most the others published a version. -/
theorem InOrder.publishes_le {order : List ι} {i : ι} {tr' : List (System ι × Event ι)}
    {s' : System ι} (h : InOrder calls order s j)
    (hrun : Runs serviceFaults calls Container.empty tr s)
    (hrun' : Run (Step serviceFaults calls) s tr' s') {tokens : List Token} {blob : Blob}
    (hblob : s.store.blobs (encodeTokensToBlobName tokens) = some blob)
    (hi : s'.point i ≠ .finished .updated) (hpoint : ∀ k ≠ i, s'.point k = s.point k)
    (name : Text) :
    (tr ++ tr').countP (fun p => p.2.publishesTo name) ≤ order.length - 1 := by
  obtain ⟨j₁, hr₁, hinv₁, later, hlog, hcount⟩ := Refines.log_run id (Refines.initial calls)
    (Journal.Inv.initial _) (hrun.trans hrun') name
  obtain ⟨c, hc⟩ := exists_uploaded hrun hblob
  have hlater : j₁.log name = later := hlog
  have hnodup : later.Nodup := hlater ▸ hinv₁.nodup_log name
  have hsub : later ⊆ order.erase c := by
    intro a ha
    obtain ⟨-, hphase⟩ := hinv₁.mem_log (hlater ▸ ha)
    have hlast := hr₁.point_of_published hphase
    have hai : a ≠ i := by
      rintro rfl
      exact hi hlast
    rw [hpoint a hai] at hlast
    have hac : a ≠ c := by
      rintro rfl
      cases hc.symm.trans hlast
    exact (List.mem_erase_of_ne hac).mpr (h.mem_of_finished hlast)
  calc (tr ++ tr').countP (fun p => p.2.publishesTo name)
      = later.length := hcount.symm
    _ ≤ (order.erase c).length := (hnodup.subperm hsub).length_le
    _ = order.length - 1 := List.length_erase_of_mem (h.mem_of_finished hc)

end

section

attribute [local instance] Base64Url.unpadded

theorem lookupWith_read_repeated :
    ∃ chunk, readAsync repeatedBlockRun.2.store (repeatedBlock.call 1).guidLocation =
      .ok (true, chunk) ∧ chunk.hash = 7 ∧ chunk.parentHash = 7 := by
  have hdelete : ∀ p ∈ repeatedBlockRun.1, ¬ p.2.Deletes := by
    have hops : ∀ p ∈ repeatedBlockRun.1, (match p.2.op with
        | .delete _ => false
        | _ => true) = true := List.all_eq_true.mp (by decide +kernel)
    rintro p hp ⟨-, name, hop⟩
    have hp' := hops p hp
    rw [hop] at hp'
    cases hp'
  have hlookup : lookupWith (fetchedAt repeatedBlockRun.2.store (zeroBlock ++ zeroBlock))
      (zeroBlock ++ zeroBlock) [] = .ok {
      cachedBlocks := 2
      lastHash := 7
      locations := [{ hash := 7, location := encodeTokensToBlobName zeroBlock },
        { hash := 7, location := (repeatedBlock.call 1).guidLocation }] } := by
    decide +kernel
  obtain ⟨chunk, metadata, hread, hhash, hparent, -⟩ := lookupWith_read repeatedBlockRun_run hdelete
    (fetchedAt_fetches (mem_passed_end _ _) _) hlookup 1 _ rfl
  exact ⟨chunk, hread, hhash, hparent _ Nat.one_pos rfl⟩

/-- Versions of one block with different parents; the second one is the block's own child. -/
def lostCalls : Calls UInt64 :=
  numberedCalls fun i =>
    { tokens := zeroBlock, hash := 7, parent_hash := if i = 0 then 0 else i + 6 }

def lostOrder : List UInt64 := (List.range 61).map UInt64.ofNat

/-- After the first calls the list of the block is full, and starts with the child. -/
theorem lostOrder_full : (tableAfter lostCalls lostOrder (lostCalls.call 61).blobName).any
    (fun row => row.records (lostCalls.call 61).chunk = false ∧
      row.additional.length = maxVersions ∧ row.default.parentHash = 0 ∧
      row.additional.head?.map Version.parentHash = some 7) = true := by
  decide +kernel

theorem lostCalls_parent {i : UInt64}
    (hi : (lostCalls.call i).chunk.parentHash = 7) : i = 1 := by
  have hparent : (if i = 0 then 0 else i + 6 : UInt64) = 7 := hi
  split at hparent
  · cases hparent
  · exact (UInt64.add_left_inj 6).mp hparent

/-- The walk over the block twice returns the child for the second block. -/
theorem InOrder.lookup_lost {s : System UInt64} {j : Journal.State UInt64 Text}
    (h : InOrder lostCalls lostOrder s j) {c : UInt64}
    (hc : j.creator (encodeTokensToBlobName zeroBlock) = some c)
    (hcreator : (lostCalls.call c).chunk.parentHash = 0)
    (hchild : 1 ∈ j.view (protocol lostCalls) (encodeTokensToBlobName zeroBlock)) :
    ∃ result loc, lookup s.store ([zeroBlock, zeroBlock].flatten ++ []) [] = .ok result ∧
      result.locations[1]? = some loc ∧ loc.location = (lostCalls.call 1).guidLocation := by
  have hlen : ∀ B ∈ [zeroBlock, zeroBlock], B.length = blockSize := by
    simp [zeroBlock]
  have hblock : ∀ k hash, [(7 : Hash), 7][k]? = some hash →
      blockTokens ([zeroBlock, zeroBlock].flatten ++ []) k = zeroBlock ∧ hash = 7 ∧
        (0 < k → (0 :: [(7 : Hash), 7])[k]? = some 7) := by
    intro k hash hk
    rcases k with _ | _ | k
    · exact ⟨blockTokens_flatten hlen [] rfl, (Option.some.inj hk).symm, fun h0 => by cases h0⟩
    · exact ⟨blockTokens_flatten hlen [] rfl, (Option.some.inj hk).symm, fun _ => rfl⟩
    · cases hk
  have hlinks : Links lostCalls j ([zeroBlock, zeroBlock].flatten ++ []) 0 0 [7, 7] := by
    intro k hash hk
    obtain ⟨htokens, rfl, hparent⟩ := hblock k hash hk
    rw [Nat.zero_add, htokens]
    exact ⟨c, hc, fun _ _ => rfl, fun hpos => ⟨1, List.mem_cons_of_mem _ hchild, hparent hpos⟩⟩
  have hblocks : [(7 : Hash), 7].length ≤
      ([zeroBlock, zeroBlock].flatten ++ []).length / blockSize := by
    rw [List.append_nil, length_flatten hlen]
    decide
  obtain ⟨result, hlookup, rest, hrest⟩ := h.refines.lookup_links [] hblocks hlinks
  obtain ⟨loc₀, locs, hlocs, hhash₀, hmap⟩ := List.map_eq_cons_iff.mp hrest.symm
  obtain ⟨loc₁, locs, rfl, -, -⟩ := List.map_eq_cons_iff.mp hmap
  have hloc₁ : result.locations[1]? = some loc₁ := by
    rw [hlocs]
    rfl
  refine ⟨result, loc₁, hlookup, hloc₁, ?_⟩
  obtain ⟨v, -, hlocation, hcase⟩ := lookup_takes hlookup 1 loc₁ hloc₁
  obtain ⟨previous, -, hprevious, htakes⟩ := hcase.resolve_left fun h0 => by cases h0.1
  rw [hlocs] at hprevious
  obtain rfl := Option.some.inj hprevious
  rw [hhash₀, (hblock 1 7 rfl).1] at htakes
  have hparent := htakes.parentHash
  -- the default version has parent 0, and only one call has parent 7
  rcases htakes.records with hv | hv
  · obtain ⟨c', hc', rfl⟩ := (h.refines.recordsDefault_iff h.inv).mp hv
    obtain rfl := Option.some.inj (hc.symm.trans hc')
    cases hcreator.symm.trans hparent
  · obtain ⟨a, -, rfl⟩ := (h.refines.recordsAdditional_iff h.inv).mp hv
    obtain rfl := lostCalls_parent hparent
    exact hlocation.symm

/-- A call that deletes the oldest version and then meets a storage error leaves the block with its
`maxVersions` versions, of which `Lookup` has returned one that can not be read any more. -/
theorem lookupWith_loses : ∃ tr s tokens fetched result loc,
    Runs serviceFaults lostCalls Container.empty tr s ∧
    (∀ name, tr.countP (fun p => p.2.publishesTo name) ≤ maxVersions) ∧
    (∀ i, Fetches tr s (encodeTokensToBlobName (blockTokens tokens i)) (fetched i)) ∧
    lookupWith fetched tokens [] = .ok result ∧ loc ∈ result.locations ∧
    readAsync s.store loc.location = .ok (false, .empty) := by
  have hnodup : lostOrder.Nodup := by decide +kernel
  obtain ⟨s, j, h⟩ := exists_inOrder lostCalls hnodup
  obtain ⟨row, hrow, hfull⟩ := (Option.any_eq_true _ _).mp lostOrder_full
  obtain ⟨hrec, hlen, hdefault, hhead⟩ := of_decide_eq_true hfull
  have hreach : ReachesEviction lostCalls 61 s j := h.reaches (by decide +kernel) hrow hrec hlen
  rw [← h.table] at hrow
  obtain ⟨c, hc, rfl⟩ := tableOf_eq_some hrow
  obtain ⟨a, ha, hparent⟩ : ∃ a, (j.view (protocol lostCalls) (lostCalls.call 61).blobName).head? =
      some a ∧ (lostCalls.call a).chunk.parentHash = 7 := by
    obtain ⟨version, hversion, hparent⟩ := Option.map_eq_some_iff.mp hhead
    have hview := List.head?_map.symm.trans hversion
    obtain ⟨a, ha, rfl⟩ := Option.map_eq_some_iff.mp hview
    exact ⟨a, ha, hparent⟩
  obtain rfl := lostCalls_parent hparent
  obtain ⟨result, loc, hlookup, hloc, hlocation⟩ :=
    h.lookup_lost hc hdefault (List.mem_of_head? ha)
  obtain ⟨tr, hrun⟩ := h.run
  replace hrun : Runs serviceFaults lostCalls Container.empty tr s :=
    hrun.mono (Step.mono fun hf => hf.elim)
  obtain ⟨tr', s', status, hrun', hgone, hpoint, hframe⟩ := hreach.loses ha
  obtain ⟨etag, -, hblob⟩ := h.refines.base hc
  have hpassed : s ∈ passed (tr ++ tr') s' := by
    have hmem := mem_passed_of_run hrun'
    unfold passed at hmem ⊢
    rw [List.map_append, List.append_assoc]
    exact List.mem_append_right _ hmem
  rw [lookup_eq_lookupWith] at hlookup
  refine ⟨tr ++ tr', s', [zeroBlock, zeroBlock].flatten ++ [], fetchedAt s.store _, result, loc,
    hrun.trans hrun', ?_, fetchedAt_fetches hpassed _, hlookup, List.mem_of_getElem? hloc, ?_⟩
  · exact fun name => h.publishes_le hrun hrun' hblob (by simp [hpoint]) hframe name
  · unfold readAsync
    rw [hlocation, hgone]

end

end KVStore
