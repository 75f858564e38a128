import KVStore.Retrieval

/-!
# The longest recorded chain

`Lookup` walks forward only: from the default version of the first block it takes one child after
the other (`WalkedChain`). `lookup_maximal`: it goes as far as this chain does. That is the longest
chain of recorded versions when a block has one hash for each parent, and the first block one hash
at all; where hashes differ, a longer chain can be hidden (`lookup_hides`).
-/

namespace KVStore

open Transition

universe u

section

variable [Base64Url] {c : Container} {tokens : List Token} {precomputedHashes : List Hash}

/-- Recorded versions of the first `k` full blocks, each one a child of the version before. -/
structure RecordedChain (c : Container) (tokens : List Token) (v : Nat → AdditionalVersion)
    (k : Nat) : Prop where
  le : k ≤ tokens.length / blockSize
  records : ∀ i < k, Records c (encodeTokensToBlobName (blockTokens tokens i)) (v i)
  child : ∀ i, i + 1 < k → (v (i + 1)).parentHash = (v i).hash

/-- The chain that the walk commits to. -/
structure WalkedChain (c : Container) (tokens : List Token) (v : Nat → AdditionalVersion)
    (k : Nat) : Prop where
  le : k ≤ tokens.length / blockSize
  default : 0 < k → RecordsDefault c (encodeTokensToBlobName (blockTokens tokens 0)) (v 0)
  child : ∀ i, i + 1 < k →
    TakesChild c (encodeTokensToBlobName (blockTokens tokens (i + 1))) (v i).hash (v (i + 1))

/-- `k` is the largest number of blocks with a chain of recorded versions. -/
def LongestChain (c : Container) (tokens : List Token) (k : Nat) : Prop :=
  (∃ v, RecordedChain c tokens v k) ∧ ∀ k' v, RecordedChain c tokens v k' → k' ≤ k

/-- The versions of the first block have one hash, and those of every later block one for each
parent. -/
structure OneChild (c : Container) (tokens : List Token) : Prop where
  first : ∀ {v w}, Records c (encodeTokensToBlobName (blockTokens tokens 0)) v →
    Records c (encodeTokensToBlobName (blockTokens tokens 0)) w → v.hash = w.hash
  child : ∀ {i v w}, Records c (encodeTokensToBlobName (blockTokens tokens i)) v →
    Records c (encodeTokensToBlobName (blockTokens tokens i)) w → v.parentHash = w.parentHash →
      v.hash = w.hash

/-- No version of the block after the chain is a child of its last version; where the chain is
empty, the first block has no version. -/
def Inextensible (c : Container) (tokens : List Token) (v : Nat → AdditionalVersion)
    (k : Nat) : Prop :=
  k < tokens.length / blockSize →
    ∀ w, Records c (encodeTokensToBlobName (blockTokens tokens k)) w →
      ∃ i, k = i + 1 ∧ w.parentHash ≠ (v i).hash

/-! ## Where the walk stops -/

omit [Base64Url] in
/-- A walk that can choose no version of a blob is past the first block, and the blob records no
child. -/
theorem chooseVersion_none {blobName : Text} {n : Nat} {parent : Hash} {p : BlockProperties}
    (hp : blockProperties (c.perform (.getProperties blobName)).1 = .ok p)
    (hfound : p.found = true) (h : chooseVersion n blobName p parent = .ok none) :
    0 < n ∧ ∀ w, Records c blobName w → w.parentHash ≠ parent := by
  obtain ⟨blob, hblob, hdefault, hadditional⟩ := blockProperties_found hp hfound
  -- what the two kinds of versions have to avoid
  have hrecords : p.parentHash ≠ parent →
      (∀ versions, parseAdditionalVersions p.additionalVersions = .ok versions →
        ∀ w ∈ versions, w.parentHash ≠ parent) →
      ∀ w, Records c blobName w → w.parentHash ≠ parent := by
    rintro hne hlist w (⟨blob', hblob', hw⟩ | ⟨blob', versions, hblob', hparse, hw⟩)
    · obtain rfl := Option.some.inj (hblob.symm.trans hblob')
      cases hdefault.symm.trans hw
      exact hne
    · obtain rfl := Option.some.inj (hblob.symm.trans hblob')
      exact hlist versions (hadditional.symm.trans hparse) w hw
  unfold chooseVersion at h
  split at h
  · split at h
    · cases h
    · next hn =>
      obtain ⟨hn0, hne⟩ := not_or.mp hn
      obtain ⟨versions, hparse, hnone⟩ := bind_eq_ok h
      have hfind := Option.map_eq_none_iff.mp (Except.ok.inj hnone)
      refine ⟨Nat.pos_of_ne_zero hn0, hrecords hne fun versions' hparse' w hw => ?_⟩
      obtain rfl := Except.ok.inj (hparse.symm.trans hparse')
      simpa using List.find?_eq_none.mp hfind w hw
  · next hempty =>
    split at h
    · next hn =>
      refine ⟨hn.1, hrecords hn.2 fun versions hparse w hw => ?_⟩
      rw [not_not.mp hempty] at hparse
      cases hparse
      cases hw
    · cases h

omit [Base64Url] in
/-- A blob that was not found records nothing. -/
theorem not_records_of_notFound {blobName : Text} {p : BlockProperties}
    (hp : blockProperties (c.perform (.getProperties blobName)).1 = .ok p)
    (hfound : ¬ p.found = true) (w : AdditionalVersion) : ¬ Records c blobName w := by
  have hnone : c.blobs blobName = none := by
    rcases hblob : c.blobs blobName with _ | blob
    · rfl
    · simp only [Container.perform, hblob] at hp
      obtain ⟨hash, -, hp⟩ := bind_eq_ok hp
      obtain ⟨parentHash, -, hp⟩ := bind_eq_ok hp
      cases hp
      exact absurd rfl hfound
  rintro (⟨blob, hblob, -⟩ | ⟨blob, versions, hblob, -⟩)
  · cases hnone.symm.trans hblob
  · cases hnone.symm.trans hblob

theorem lookup_stops {result : LookupResult} (h : lookup c tokens precomputedHashes = .ok result) :
    Stops (lookupBlocks c tokens precomputedHashes (tokens.length / blockSize)) 0 0
      result.locations := by
  unfold lookup at h
  dsimp only at h
  split at h
  · next h0 =>
    intro block future hblock
    unfold lookupBlocks at hblock
    rw [h0] at hblock
    cases hblock
  · obtain ⟨locs, hl, -, -, hs⟩ := lookupLoop_walk h
    rw [List.nil_append] at hl
    exact hl ▸ hs

theorem lookup_length_le {result : LookupResult}
    (h : lookup c tokens precomputedHashes = .ok result) :
    result.locations.length ≤ tokens.length / blockSize := by
  obtain ⟨-, hchosen⟩ := lookup_chosen h
  by_contra hlt
  obtain ⟨block, p, expected, hblock, -⟩ :=
    hchosen.each (tokens.length / blockSize) _ (List.getElem?_eq_getElem (Nat.lt_of_not_le hlt))
  have hlen := (List.getElem?_eq_some_iff.mp hblock).1
  unfold lookupBlocks at hlen
  rw [List.length_map, List.length_range] at hlen
  exact Nat.lt_irrefl _ hlen

/-- The block after the locations has no version that the walk could take. -/
theorem lookup_inextensible {result : LookupResult}
    (h : lookup c tokens precomputedHashes = .ok result)
    (hlt : result.locations.length < tokens.length / blockSize) {w : AdditionalVersion}
    (hw : Records c (encodeTokensToBlobName (blockTokens tokens result.locations.length)) w) :
    ∃ i last, result.locations.length = i + 1 ∧ result.locations[i]? = some last ∧
      w.parentHash ≠ last.hash := by
  have hblock : (lookupBlocks c tokens precomputedHashes (tokens.length / blockSize))[
      result.locations.length]? = some (blockInfo tokens precomputedHashes result.locations.length,
        blockProperties (c.perform (.getProperties
          (encodeTokensToBlobName (blockTokens tokens result.locations.length)))).1) := by
    unfold lookupBlocks
    rw [List.getElem?_map, List.getElem?_range hlt]
    rfl
  obtain ⟨p, expected, hp, hexpected, hnone⟩ := lookup_stops h _ _ hblock
  rw [Nat.zero_add] at hnone
  by_cases hfound : p.found = true
  · obtain ⟨hpos, hchild⟩ := chooseVersion_none hp hfound (hnone hfound)
    obtain ⟨i, hi⟩ := Nat.exists_eq_succ_of_ne_zero (Nat.ne_of_gt hpos)
    rw [hi, List.getElem?_cons_succ, List.getElem?_map] at hexpected
    obtain ⟨last, hlast, rfl⟩ := Option.map_eq_some_iff.mp hexpected
    exact ⟨i, last, hi, hlast, hchild w hw⟩
  · exact absurd hw (not_records_of_notFound hp hfound w)

theorem WalkedChain.recorded {v : Nat → AdditionalVersion} {k : Nat}
    (h : WalkedChain c tokens v k) : RecordedChain c tokens v k where
  le := h.le
  records i hi := by
    cases i with
    | zero => exact Or.inl (h.default hi)
    | succ i => exact (h.child i hi).records
  child i hi := (h.child i hi).parentHash

/-- The locations that `Lookup` returns are the chain that it walked, which can not be extended. -/
theorem lookup_walked {result : LookupResult} (h : lookup c tokens precomputedHashes = .ok result) :
    ∃ v, WalkedChain c tokens v result.cachedBlocks ∧
      (∀ i loc, result.locations[i]? = some loc →
        (v i).hash = loc.hash ∧ (v i).location = loc.location) ∧
      Inextensible c tokens v result.cachedBlocks := by
  have htakes : ∀ i, ∃ v : AdditionalVersion, ∀ loc, result.locations[i]? = some loc →
      v.hash = loc.hash ∧ v.location = loc.location ∧
        (i = 0 ∧ RecordsDefault c (encodeTokensToBlobName (blockTokens tokens i)) v ∨
          ∃ previous, 0 < i ∧ result.locations[i - 1]? = some previous ∧
            TakesChild c (encodeTokensToBlobName (blockTokens tokens i)) previous.hash v) := by
    intro i
    rcases hi : result.locations[i]? with _ | loc
    · exact ⟨{ hash := 0, parentHash := 0, location := [] }, fun loc hloc => by cases hloc⟩
    · obtain ⟨v, hv⟩ := lookup_takes h i loc hi
      refine ⟨v, fun loc' hloc' => ?_⟩
      obtain rfl := Option.some.inj hloc'
      exact hv
  choose v hv using htakes
  have hget : ∀ i < result.locations.length, ∃ loc, result.locations[i]? = some loc := fun i hi =>
    ⟨_, List.getElem?_eq_getElem hi⟩
  rw [(lookup_chosen h).1]
  refine ⟨v, ⟨lookup_length_le h, ?_, ?_⟩, ?_, ?_⟩
  · intro hpos
    obtain ⟨loc, hloc⟩ := hget 0 hpos
    obtain ⟨-, -, ⟨-, hdefault⟩ | ⟨previous, hlt, -⟩⟩ := hv 0 loc hloc
    · exact hdefault
    · exact absurd hlt (Nat.lt_irrefl 0)
  · intro i hi
    obtain ⟨loc, hloc⟩ := hget (i + 1) hi
    obtain ⟨-, -, ⟨h0, -⟩ | ⟨previous, -, hprevious, hchild⟩⟩ := hv (i + 1) loc hloc
    · cases h0
    · rw [(hv i previous hprevious).1]
      exact hchild
  · exact fun i loc hloc => ⟨(hv i loc hloc).1, (hv i loc hloc).2.1⟩
  · intro hlt w hw
    obtain ⟨i, last, hi, hlast, hne⟩ := lookup_inextensible h hlt hw
    refine ⟨i, hi, ?_⟩
    rw [(hv i last hlast).1]
    exact hne

/-! ## The longest chain -/

/-- A chain that can not be extended is as long as every chain that runs along with it. -/
theorem Inextensible.le_of_hash_eq {v w : Nat → AdditionalVersion} {k k' : Nat}
    (hmax : Inextensible c tokens v k) (hw : RecordedChain c tokens w k')
    (heq : ∀ i < k, i < k' → (v i).hash = (w i).hash) : k' ≤ k := by
  by_contra hlt
  have hk : k < k' := Nat.lt_of_not_le hlt
  obtain ⟨i, rfl, hne⟩ := hmax (hk.trans_le hw.le) (w k) (hw.records k hk)
  have hhash := heq i (Nat.lt_succ_self i) (Nat.lt_of_succ_lt hk)
  exact hne ((hw.child i hk).trans hhash.symm)

omit [Base64Url] in
theorem RecordsDefault.functional {blobName : Text} {v w : AdditionalVersion}
    (hv : RecordsDefault c blobName v) (hw : RecordsDefault c blobName w) : v = w := by
  obtain ⟨blob, hblob, hv⟩ := hv
  obtain ⟨blob', hblob', hw⟩ := hw
  obtain rfl := Option.some.inj (hblob.symm.trans hblob')
  exact Except.ok.inj (hv.symm.trans hw)

omit [Base64Url] in
theorem TakesChild.functional {blobName : Text} {parent : Hash} {v w : AdditionalVersion}
    (hv : TakesChild c blobName parent v) (hw : TakesChild c blobName parent w) : v = w := by
  obtain ⟨blob, default, hblob, hdefault, hv⟩ := hv
  obtain ⟨blob', default', hblob', hdefault', hw⟩ := hw
  obtain rfl := Option.some.inj (hblob.symm.trans hblob')
  obtain rfl := Except.ok.inj (hdefault.symm.trans hdefault')
  rcases hv with ⟨hparent, rfl⟩ | ⟨hne, versions, hlist, hfind⟩
  · rcases hw with ⟨-, rfl⟩ | ⟨hne, -⟩
    · rfl
    · exact absurd hparent hne
  · rcases hw with ⟨hparent, -⟩ | ⟨-, versions', hlist', hfind'⟩
    · exact absurd hparent hne
    · obtain rfl := Except.ok.inj (hlist.symm.trans hlist')
      exact Option.some.inj (hfind.symm.trans hfind')

/-- Two walks take the same versions as far as both go. -/
theorem WalkedChain.eq {v w : Nat → AdditionalVersion} {k k' : Nat} (hv : WalkedChain c tokens v k)
    (hw : WalkedChain c tokens w k') {i : Nat} (hi : i < k) (hi' : i < k') : v i = w i := by
  induction i with
  | zero => exact (hv.default hi).functional (hw.default hi')
  | succ i ih =>
    have hlast := ih (Nat.lt_of_succ_lt hi) (Nat.lt_of_succ_lt hi')
    have hchild := hv.child i hi
    rw [hlast] at hchild
    exact hchild.functional (hw.child i hi')

/-- Where hashes are determined, two chains have the same hashes as far as both go. -/
theorem RecordedChain.hash_eq {v w : Nat → AdditionalVersion} {k k' : Nat}
    (hone : OneChild c tokens) (hv : RecordedChain c tokens v k) (hw : RecordedChain c tokens w k')
    {i : Nat} (hi : i < k) (hi' : i < k') : (v i).hash = (w i).hash := by
  induction i with
  | zero => exact hone.first (hv.records 0 hi) (hw.records 0 hi')
  | succ i ih =>
    have hlast := ih (Nat.lt_of_succ_lt hi) (Nat.lt_of_succ_lt hi')
    apply hone.child (hv.records _ hi) (hw.records _ hi')
    rw [hv.child i hi, hw.child i hi', hlast]

variable {ι : Type u} [DecidableEq ι] {calls : Calls ι} {s : System ι}
  {tr : List (System ι × Event ι)}

/-- In every run, `Lookup` finds the longest chain that starts with the default version of the first
block and takes from each later block its default version, if that is a child of the version before,
or else the first child in its list; no version of the next block is a child of its last one. It is
the longest chain of recorded versions when those of the first block have one hash, and those of
every later block one for each parent. -/
theorem lookup_maximal (h : Runs serviceFaults calls Container.empty tr s) (tokens : List Token)
    (precomputedHashes : List Hash) :
    ∃ result v, lookup s.store tokens precomputedHashes = .ok result ∧
      result.cachedBlocks = result.locations.length ∧
      (∀ i loc, result.locations[i]? = some loc →
        (v i).hash = loc.hash ∧ (v i).location = loc.location) ∧
      WalkedChain s.store tokens v result.cachedBlocks ∧
      (∀ k w, WalkedChain s.store tokens w k → k ≤ result.cachedBlocks) ∧
      Inextensible s.store tokens v result.cachedBlocks ∧
      (OneChild s.store tokens → LongestChain s.store tokens result.cachedBlocks) := by
  obtain ⟨j, hr, -⟩ := Runs.refines id h
  obtain ⟨result, hlookup⟩ := hr.lookup_ok tokens precomputedHashes
  obtain ⟨v, hwalked, hlocations, hmax⟩ := lookup_walked hlookup
  refine ⟨result, v, hlookup, (lookup_chosen hlookup).1, hlocations, hwalked, ?_, hmax, ?_⟩
  · intro k w hw
    refine hmax.le_of_hash_eq hw.recorded fun i hi hi' => ?_
    exact congrArg AdditionalVersion.hash (hwalked.eq hw hi hi')
  · intro hone
    refine ⟨⟨v, hwalked.recorded⟩, fun k w hw => ?_⟩
    exact hmax.le_of_hash_eq hw fun i hi hi' => hwalked.recorded.hash_eq hone hw hi hi'

end

section

attribute [local instance] Base64Url.unpadded

/-- The versions of the repeated block have one hash. -/
theorem repeatedBlock_oneChild : OneChild repeatedBlockRun.2.store (zeroBlock ++ zeroBlock) := by
  have hhash : ∀ {tokens : List Token} {v : AdditionalVersion},
      Records repeatedBlockRun.2.store (encodeTokensToBlobName tokens) v → v.hash = 7 := by
    intro tokens v hv
    obtain ⟨j, hr, hinv⟩ := Runs.refines id repeatedBlockRun_run
    rcases hv with hv | hv
    · obtain ⟨c, -, rfl⟩ := (hr.recordsDefault_iff hinv).mp hv
      rfl
    · obtain ⟨a, -, rfl⟩ := (hr.recordsAdditional_iff hinv).mp hv
      rfl
  exact ⟨fun hv hw => (hhash hv).trans (hhash hw).symm,
    fun hv hw _ => (hhash hv).trans (hhash hw).symm⟩

theorem lookup_maximal_repeated :
    LongestChain repeatedBlockRun.2.store (zeroBlock ++ zeroBlock) 2 := by
  obtain ⟨result, v, hlookup, -, -, -, -, -, hlongest⟩ :=
    lookup_maximal repeatedBlockRun_run (zeroBlock ++ zeroBlock) []
  have htwo : (lookup repeatedBlockRun.2.store (zeroBlock ++ zeroBlock) []).map
      LookupResult.cachedBlocks = .ok 2 := by decide +kernel
  rw [hlookup] at htwo
  exact Except.ok.inj htwo ▸ hlongest repeatedBlock_oneChild

def oneBlock : List Token := List.replicate blockSize 1

/-- One writer wrote a block; another one the block with a different hash, and a child of it. -/
def hiddenCalls : Calls UInt64 :=
  numberedCalls fun i =>
    if i = 0 then { tokens := zeroBlock, hash := 1 }
    else if i = 1 then { tokens := zeroBlock, hash := 2 }
    else { tokens := oneBlock, hash := 3, parent_hash := 2 }

def hiddenRun : List (System UInt64 × Event UInt64) × System UInt64 :=
  execute hiddenCalls (served [0, 1, 1, 1, 1, 2]) (System.initial Container.empty)

/-- The versions of the second writer. -/
def hiddenChain (i : Nat) : AdditionalVersion :=
  if i = 0 then (hiddenCalls.call 1).newVersion
  else { hash := 3, parentHash := 2, location := encodeTokensToBlobName oneBlock }

theorem hiddenChain_recorded :
    RecordedChain hiddenRun.2.store (zeroBlock ++ oneBlock) hiddenChain 2 where
  le := by decide +kernel
  records i hi := by
    have hzero : recordedVersions hiddenRun.2.store
        (encodeTokensToBlobName (blockTokens (zeroBlock ++ oneBlock) 0)) =
          .ok [{ hash := 1, parentHash := 0, location := encodeTokensToBlobName zeroBlock },
            hiddenChain 0] := by decide +kernel
    have hone : recordedVersions hiddenRun.2.store
        (encodeTokensToBlobName (blockTokens (zeroBlock ++ oneBlock) 1)) =
          .ok [hiddenChain 1] := by decide +kernel
    match i with
    | 0 => exact (records_iff hzero).mpr (List.mem_cons_of_mem _ (List.mem_singleton_self _))
    | 1 => exact (records_iff hone).mpr (List.mem_singleton_self _)
  child i hi := by
    obtain rfl : i = 0 := by omega
    decide +kernel

/-- The chain of the second writer is hidden by the version of the first one. -/
theorem lookup_hides : ∃ tr s tokens result, Runs noFaults hiddenCalls Container.empty tr s ∧
    lookup s.store tokens [] = .ok result ∧ result.cachedBlocks = 1 ∧
    (∃ v, RecordedChain s.store tokens v 2) ∧
    ¬ LongestChain s.store tokens result.cachedBlocks := by
  have hlookup : lookup hiddenRun.2.store (zeroBlock ++ oneBlock) [] = .ok {
      cachedBlocks := 1
      lastHash := 1
      locations := [{ hash := 1, location := encodeTokensToBlobName zeroBlock }] } := by
    decide +kernel
  refine ⟨hiddenRun.1, hiddenRun.2, _, _, served_run _ _, hlookup, rfl,
    ⟨_, hiddenChain_recorded⟩, fun hlongest => ?_⟩
  exact absurd (hlongest.2 2 _ hiddenChain_recorded) (by decide)

end

end KVStore
