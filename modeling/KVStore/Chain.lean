import KVStore.Read
import KVStore.Schedule

/-!
# The chains that `Lookup` returns

On every store, the locations that `Lookup` returns are recorded versions of consecutive blocks,
each one a child of the version before it; the first one is the default version of the first block,
whatever its parent is (`lookup_linked`).
-/

namespace KVStore

universe u

/-- The locations are versions chosen for the first blocks, one after the other. -/
inductive Chosen : List (BlockInfo × Except StdError BlockProperties) → Nat → Hash →
    List BlockLocation → Prop
  | stop {blocks n parent} : Chosen blocks n parent []
  | take {block p blocks n parent loc locs} (hfound : p.found = true)
      (hchoose : chooseVersion n block.blobName p parent = .ok (some loc))
      (h : Chosen blocks (n + 1) loc.hash locs) :
      Chosen ((block, .ok p) :: blocks) n parent (loc :: locs)

section

variable {block : BlockInfo} {p : BlockProperties} {n : Nat} {parent : Hash}
  {result : LookupResult}

/-- The walk ends at a blob that is not there or has no version to take. -/
theorem lookupLoop_stop (blocks : List (BlockInfo × Except StdError BlockProperties))
    (h : p.found = true → chooseVersion n block.blobName p parent = .ok none) :
    lookupLoop ((block, .ok p) :: blocks) n parent result = .ok result := by
  change (if p.found then _ else _) = _
  by_cases hfound : p.found = true
  · rw [if_pos hfound, h hfound]
    rfl
  · rw [if_neg hfound]
    rfl

theorem lookupLoop_some (blocks : List (BlockInfo × Except StdError BlockProperties))
    {loc : BlockLocation} (hfound : p.found = true)
    (hchoose : chooseVersion n block.blobName p parent = .ok (some loc)) :
    lookupLoop ((block, .ok p) :: blocks) n parent result =
      lookupLoop blocks (n + 1) loc.hash {
        cachedBlocks := result.cachedBlocks + 1
        lastHash := loc.hash
        locations := result.locations ++ [loc] } := by
  change (if p.found then _ else _) = _
  rw [if_pos hfound, hchoose]
  rfl

/-- What the walk does with a block: it ends there, or takes a version and goes on. -/
theorem lookupLoop_cases {blocks : List (BlockInfo × Except StdError BlockProperties)}
    {future : Except StdError BlockProperties} {r : LookupResult}
    (h : lookupLoop ((block, future) :: blocks) n parent result = .ok r) :
    ∃ p, future = .ok p ∧
      ((p.found = true → chooseVersion n block.blobName p parent = .ok none) ∧ r = result ∨
        ∃ loc, p.found = true ∧ chooseVersion n block.blobName p parent = .ok (some loc) ∧
          lookupLoop blocks (n + 1) loc.hash {
            cachedBlocks := result.cachedBlocks + 1
            lastHash := loc.hash
            locations := result.locations ++ [loc] } = .ok r) := by
  cases future with
  | error e => cases h
  | ok p =>
    refine ⟨p, rfl, ?_⟩
    by_cases hfound : p.found = true
    · cases hchoose : chooseVersion n block.blobName p parent with
      | error e =>
        change (if p.found then _ else _) = _ at h
        rw [if_pos hfound, hchoose] at h
        cases h
      | ok choice =>
        cases choice with
        | none =>
          rw [lookupLoop_stop blocks fun _ => hchoose] at h
          exact Or.inl ⟨fun _ => rfl, (Except.ok.inj h).symm⟩
        | some loc =>
          rw [lookupLoop_some blocks hfound hchoose] at h
          exact Or.inr ⟨loc, hfound, rfl, h⟩
    · rw [lookupLoop_stop blocks fun hf => absurd hf hfound] at h
      exact Or.inl ⟨fun hf => absurd hf hfound, (Except.ok.inj h).symm⟩

end

/-- The walk has nothing to take from the block after the locations. -/
def Stops (blocks : List (BlockInfo × Except StdError BlockProperties)) (n : Nat) (parent : Hash)
    (locs : List BlockLocation) : Prop :=
  ∀ block future, blocks[locs.length]? = some (block, future) →
    ∃ p expected, future = .ok p ∧
      (parent :: locs.map BlockLocation.hash)[locs.length]? = some expected ∧
      (p.found = true → chooseVersion (n + locs.length) block.blobName p expected = .ok none)

theorem Stops.cons {blocks : List (BlockInfo × Except StdError BlockProperties)} {n : Nat}
    {parent : Hash} {loc : BlockLocation} {locs : List BlockLocation}
    {b : BlockInfo × Except StdError BlockProperties} (h : Stops blocks (n + 1) loc.hash locs) :
    Stops (b :: blocks) n parent (loc :: locs) := by
  intro block future hblock
  obtain ⟨p, expected, hp, hexpected, hnone⟩ := h block future hblock
  rw [Nat.add_right_comm, Nat.add_assoc] at hnone
  exact ⟨p, expected, hp, hexpected, hnone⟩

/-- The walk of `Lookup` appends the versions it chooses, and goes on while it can. -/
theorem lookupLoop_walk :
    ∀ {blocks : List (BlockInfo × Except StdError BlockProperties)} {n : Nat} {parent : Hash}
      {result r : LookupResult}, lookupLoop blocks n parent result = .ok r →
      ∃ locs, r.locations = result.locations ++ locs ∧
        r.cachedBlocks = result.cachedBlocks + locs.length ∧ Chosen blocks n parent locs ∧
        Stops blocks n parent locs := by
  intro blocks
  induction blocks with
  | nil =>
    intro n parent result r h
    cases h
    exact ⟨[], by simp, rfl, .stop, fun _ _ hblock => by cases hblock⟩
  | cons block blocks ih =>
    intro n parent result r h
    obtain ⟨block, future⟩ := block
    obtain ⟨p, rfl, ⟨hnone, rfl⟩ | ⟨loc, hfound, hchoose, h⟩⟩ := lookupLoop_cases h
    · refine ⟨[], by simp, rfl, .stop, fun block' future hblock => ?_⟩
      cases hblock
      exact ⟨p, parent, rfl, rfl, hnone⟩
    · obtain ⟨locs, hl, hn, hc, hs⟩ := ih h
      refine ⟨loc :: locs, ?_, ?_, .take hfound hchoose hc, hs.cons⟩
      · rw [hl, List.append_assoc]
        rfl
      · rw [hn, List.length_cons]
        show result.cachedBlocks + 1 + locs.length = _
        omega

/-- The walk of `Lookup` appends the versions it chooses. -/
theorem lookupLoop_chosen {blocks : List (BlockInfo × Except StdError BlockProperties)} {n : Nat}
    {parent : Hash} {result r : LookupResult} (h : lookupLoop blocks n parent result = .ok r) :
    ∃ locs, r.locations = result.locations ++ locs ∧
      r.cachedBlocks = result.cachedBlocks + locs.length ∧ Chosen blocks n parent locs := by
  obtain ⟨locs, hl, hn, hc, -⟩ := lookupLoop_walk h
  exact ⟨locs, hl, hn, hc⟩

/-- What the properties of a found blob are. -/
theorem blockProperties_found {c : Container} {blobName : Text} {p : BlockProperties}
    (hp : blockProperties (c.perform (.getProperties blobName)).1 = .ok p)
    (hfound : p.found = true) : ∃ blob, c.blobs blobName = some blob ∧
      defaultVersion blob.metadata blobName =
        .ok { hash := p.storedHash, parentHash := p.parentHash, location := blobName } ∧
      additionalVersionsOf blob.metadata = parseAdditionalVersions p.additionalVersions := by
  unfold Container.perform at hp
  rcases hblob : c.blobs blobName with _ | blob
  · simp only [hblob] at hp
    cases hp
    cases hfound
  · simp only [hblob] at hp
    obtain ⟨hash, hhash, hp⟩ := bind_eq_ok hp
    obtain ⟨parentHash, hparent, hp⟩ := bind_eq_ok hp
    cases hp
    refine ⟨blob, rfl, ?_, rfl⟩
    unfold defaultVersion
    rw [hhash, hparent]
    rfl

/-- The child that the walk takes from a blob: its default version, or else the first one in the
list. -/
def TakesChild (c : Container) (blobName : Text) (parent : Hash) (v : AdditionalVersion) : Prop :=
  ∃ blob default, c.blobs blobName = some blob ∧
    defaultVersion blob.metadata blobName = .ok default ∧
    (default.parentHash = parent ∧ v = default ∨
      default.parentHash ≠ parent ∧ ∃ versions, additionalVersionsOf blob.metadata = .ok versions ∧
        versions.find? (fun version => version.parentHash = parent) = some v)

theorem TakesChild.parentHash {c : Container} {blobName : Text} {parent : Hash}
    {v : AdditionalVersion} (h : TakesChild c blobName parent v) : v.parentHash = parent := by
  obtain ⟨blob, default, -, -, ⟨hparent, rfl⟩ | ⟨-, versions, -, hfind⟩⟩ := h
  · exact hparent
  · simpa using List.find?_some hfind

theorem TakesChild.records {c : Container} {blobName : Text} {parent : Hash}
    {v : AdditionalVersion} (h : TakesChild c blobName parent v) : Records c blobName v := by
  obtain ⟨blob, default, hblob, hdefault, ⟨-, rfl⟩ | ⟨-, versions, hlist, hfind⟩⟩ := h
  · exact Or.inl ⟨blob, hblob, hdefault⟩
  · exact Or.inr ⟨blob, versions, hblob, hlist, List.mem_of_find?_eq_some hfind⟩

/-- The version chosen from the properties of a blob: the default version for the first block, a
child of the version before for every other one. -/
theorem chooseVersion_takes {c : Container} {blobName : Text} {n : Nat} {parent : Hash}
    {p : BlockProperties} {loc : BlockLocation}
    (hp : blockProperties (c.perform (.getProperties blobName)).1 = .ok p)
    (hfound : p.found = true) (h : chooseVersion n blobName p parent = .ok (some loc)) :
    ∃ v, v.hash = loc.hash ∧ v.location = loc.location ∧
      (n = 0 ∧ RecordsDefault c blobName v ∨ 0 < n ∧ TakesChild c blobName parent v) := by
  obtain ⟨blob, hblob, hdefault, hadditional⟩ := blockProperties_found hp hfound
  have hd : (n = 0 ∨ p.parentHash = parent) → ∃ v : AdditionalVersion,
      v.hash = p.storedHash ∧ v.location = blobName ∧
        (n = 0 ∧ RecordsDefault c blobName v ∨ 0 < n ∧ TakesChild c blobName parent v) := by
    intro hn
    refine ⟨{
      hash := p.storedHash
      parentHash := p.parentHash
      location := blobName }, rfl, rfl, ?_⟩
    rcases Nat.eq_zero_or_pos n with h0 | hpos
    · exact Or.inl ⟨h0, blob, hblob, hdefault⟩
    · exact Or.inr ⟨hpos, blob, _, hblob, hdefault,
        Or.inl ⟨hn.resolve_left (Nat.ne_of_gt hpos), rfl⟩⟩
  unfold chooseVersion at h
  split at h
  · split at h
    · next hn =>
      cases h
      exact hd hn
    · next hn =>
      obtain ⟨hn0, hne⟩ := not_or.mp hn
      obtain ⟨versions, hparse, h⟩ := bind_eq_ok h
      obtain ⟨v, hfind, rfl⟩ := Option.map_eq_some_iff.mp (Except.ok.inj h)
      exact ⟨v, rfl, rfl, Or.inr ⟨Nat.pos_of_ne_zero hn0, blob, _, hblob, hdefault,
        Or.inr ⟨hne, versions, hadditional.trans hparse, hfind⟩⟩⟩
  · split at h
    · cases h
    · next hn =>
      cases h
      apply hd
      rcases Nat.eq_zero_or_pos n with h0 | hpos
      · exact Or.inl h0
      · exact Or.inr (by_contra fun hne => hn ⟨hpos, hne⟩)

section

variable [Base64Url] {c : Container} {tokens : List Token} {precomputedHashes : List Hash}

/-- The blocks that `Lookup` walks over, with what it fetched for each. -/
def lookupBlocks (c : Container) (tokens : List Token) (precomputedHashes : List Hash)
    (numFullBlocks : Nat) : List (BlockInfo × Except StdError BlockProperties) :=
  (List.range numFullBlocks).map fun i =>
    let block := blockInfo tokens precomputedHashes i
    (block, blockProperties (c.perform (.getProperties block.blobName)).1)

theorem lookup_chosen {result : LookupResult}
    (h : lookup c tokens precomputedHashes = .ok result) :
    result.cachedBlocks = result.locations.length ∧
      Chosen (lookupBlocks c tokens precomputedHashes (tokens.length / blockSize)) 0 0
        result.locations := by
  unfold lookup at h
  dsimp only at h
  split at h
  · cases h
    exact ⟨rfl, .stop⟩
  · obtain ⟨locs, hl, hn, hc⟩ := lookupLoop_chosen h
    rw [List.nil_append] at hl
    rw [hl, hn]
    exact ⟨Nat.zero_add _, hc⟩

/-- The blocks of the walk, from block `n` on, with the properties of their blobs. -/
def FetchedFrom (c : Container) (tokens : List Token) (n : Nat)
    (blocks : List (BlockInfo × Except StdError BlockProperties)) : Prop :=
  ∀ k b, blocks[k]? = some b →
    b.1.blobName = encodeTokensToBlobName (blockTokens tokens (n + k)) ∧
      b.2 = blockProperties (c.perform (.getProperties b.1.blobName)).1

theorem fetchedFrom_lookupBlocks (m : Nat) :
    FetchedFrom c tokens 0 (lookupBlocks c tokens precomputedHashes m) := by
  intro k b h
  unfold lookupBlocks at h
  rw [List.getElem?_map] at h
  obtain ⟨i, hi, rfl⟩ := Option.map_eq_some_iff.mp h
  obtain ⟨-, rfl⟩ := List.getElem?_eq_some_iff.mp hi
  rw [List.getElem_range, Nat.zero_add]
  exact ⟨rfl, rfl⟩

theorem FetchedFrom.tail {n : Nat} {b : BlockInfo × Except StdError BlockProperties}
    {blocks : List (BlockInfo × Except StdError BlockProperties)}
    (h : FetchedFrom c tokens n (b :: blocks)) : FetchedFrom c tokens (n + 1) blocks := by
  intro k b' hb'
  rw [Nat.add_right_comm, Nat.add_assoc]
  exact h (k + 1) b' hb'

omit [Base64Url] in
/-- Each location was chosen from the properties of its block, after the hash of the one before. -/
theorem Chosen.each {blocks : List (BlockInfo × Except StdError BlockProperties)} {n : Nat}
    {parent : Hash} {locs : List BlockLocation} (h : Chosen blocks n parent locs) :
    ∀ k loc, locs[k]? = some loc → ∃ block p expected, blocks[k]? = some (block, .ok p) ∧
      p.found = true ∧ (parent :: locs.map BlockLocation.hash)[k]? = some expected ∧
      chooseVersion (n + k) block.blobName p expected = .ok (some loc) := by
  induction h with
  | stop =>
    intro k loc hk
    cases hk
  | @take block p blocks n parent loc locs hfound hchoose hrest ih =>
    intro k loc' hk
    cases k with
    | zero =>
      cases hk
      exact ⟨block, p, parent, rfl, hfound, rfl, hchoose⟩
    | succ k =>
      have hrec := ih k loc' hk
      rw [Nat.add_right_comm, Nat.add_assoc] at hrec
      exact hrec

/-- The locations that `Lookup` returns are versions of the blocks, one for each of the first
blocks: the default version of the first block, and the child that the walk takes from each later
one. -/
theorem lookup_takes {result : LookupResult} (h : lookup c tokens precomputedHashes = .ok result) :
    ∀ i loc, result.locations[i]? = some loc →
      ∃ v, v.hash = loc.hash ∧ v.location = loc.location ∧
        (i = 0 ∧ RecordsDefault c (encodeTokensToBlobName (blockTokens tokens i)) v ∨
          ∃ previous, 0 < i ∧ result.locations[i - 1]? = some previous ∧
            TakesChild c (encodeTokensToBlobName (blockTokens tokens i)) previous.hash v) := by
  intro i loc hi
  obtain ⟨-, hchosen⟩ := lookup_chosen h
  obtain ⟨block, p, expected, hblock, hfound, hexpected, hchoose⟩ := hchosen.each i loc hi
  obtain ⟨hname, hp⟩ := fetchedFrom_lookupBlocks _ i _ hblock
  obtain ⟨v, hhash, hlocation, hcase⟩ := chooseVersion_takes hp.symm hfound hchoose
  rw [Nat.zero_add] at hname hcase
  rw [hname] at hcase
  refine ⟨v, hhash, hlocation, hcase.imp_right ?_⟩
  rintro ⟨hpos, htakes⟩
  obtain ⟨k, rfl⟩ := Nat.exists_eq_succ_of_ne_zero (Nat.ne_of_gt hpos)
  rw [List.getElem?_cons_succ, List.getElem?_map] at hexpected
  obtain ⟨previous, hprevious, rfl⟩ := Option.map_eq_some_iff.mp hexpected
  exact ⟨previous, hpos, hprevious, htakes⟩

theorem lookup_records {result : LookupResult} (h : lookup c tokens precomputedHashes = .ok result)
    {i : Nat} {loc : BlockLocation} (hi : result.locations[i]? = some loc) :
    ∃ v, Records c (encodeTokensToBlobName (blockTokens tokens i)) v ∧ v.hash = loc.hash ∧
      v.location = loc.location := by
  obtain ⟨v, hhash, hlocation, hcase⟩ := lookup_takes h i loc hi
  rcases hcase with ⟨-, hdefault⟩ | ⟨_, -, -, htakes⟩
  · exact ⟨v, Or.inl hdefault, hhash, hlocation⟩
  · exact ⟨v, htakes.records, hhash, hlocation⟩

/-- On every store, the locations that `Lookup` returns are recorded versions of the blocks, one for
each of the first blocks; the first is the default version of its block, every other one a child of
the version before it. -/
theorem lookup_linked {result : LookupResult}
    (h : lookup c tokens precomputedHashes = .ok result) :
    ∀ i loc, result.locations[i]? = some loc →
      ∃ v, Records c (encodeTokensToBlobName (blockTokens tokens i)) v ∧
        v.hash = loc.hash ∧ v.location = loc.location ∧
        (i = 0 ∧ RecordsDefault c (encodeTokensToBlobName (blockTokens tokens i)) v ∨
          ∃ previous, 0 < i ∧ result.locations[i - 1]? = some previous ∧
            v.parentHash = previous.hash) := by
  intro i loc hi
  obtain ⟨v, hhash, hlocation, hcase⟩ := lookup_takes h i loc hi
  rcases hcase with ⟨h0, hdefault⟩ | ⟨previous, hpos, hprevious, htakes⟩
  · exact ⟨v, Or.inl hdefault, hhash, hlocation, Or.inl ⟨h0, hdefault⟩⟩
  · exact ⟨v, htakes.records, hhash, hlocation,
      Or.inr ⟨previous, hpos, hprevious, htakes.parentHash⟩⟩

end

/-! ## A block from the middle of a conversation -/

section

attribute [local instance] Base64Url.unpadded

def zeroBlock : List Token := List.replicate blockSize 0

def nextBlock : List Token := List.replicate blockSize 1

/-- The block is first written as the child of a block with hash 7, the other calls write its own
child. -/
def middleBlock : Calls UInt64 :=
  numberedCalls fun i =>
    if i = 0 then { tokens := zeroBlock, hash := 5, parent_hash := 7 }
    else { tokens := nextBlock, hash := 6, parent_hash := 5 }

def middleBlockRun : List (System UInt64 × Event UInt64) × System UInt64 :=
  execute middleBlock (served [0, 1]) (System.initial Container.empty)

theorem lookup_middleBlock : lookup middleBlockRun.2.store (zeroBlock ++ nextBlock) [] = .ok {
    cachedBlocks := 2
    lastHash := 6
    locations := [{ hash := 5, location := encodeTokensToBlobName zeroBlock },
      { hash := 6, location := encodeTokensToBlobName nextBlock }] } := by
  decide +kernel

theorem lookup_linked_middleBlock :
    (∃ v, RecordsDefault middleBlockRun.2.store (encodeTokensToBlobName zeroBlock) v ∧
      v.hash = 5 ∧ v.location = encodeTokensToBlobName zeroBlock) ∧
    ∃ v, Records middleBlockRun.2.store (encodeTokensToBlobName nextBlock) v ∧
      v.hash = 6 ∧ v.parentHash = 5 ∧ v.location = encodeTokensToBlobName nextBlock := by
  constructor
  · obtain ⟨v, -, hhash, hlocation, ⟨-, hdefault⟩ | ⟨_, hpos, -⟩⟩ :=
      lookup_linked lookup_middleBlock 0 _ rfl
    · exact ⟨v, hdefault, hhash, hlocation⟩
    · cases hpos
  · obtain ⟨v, hv, hhash, hlocation, ⟨h0, -⟩ | ⟨previous, -, hprevious, hparent⟩⟩ :=
      lookup_linked lookup_middleBlock 1 _ rfl
    · cases h0
    · obtain rfl := Option.some.inj hprevious
      exact ⟨v, hv, hhash, hparent, hlocation⟩

/-- A sequence that starts with this block gets its version, whose parent is 7. -/
theorem lookup_unrooted : ∃ tr s result loc, Runs noFaults middleBlock Container.empty tr s ∧
    lookup s.store zeroBlock [] = .ok result ∧ result.locations[0]? = some loc ∧
    ∀ v, Records s.store (encodeTokensToBlobName zeroBlock) v → v.location = loc.location →
      v.parentHash = 7 := by
  have hlookup : lookup middleBlockRun.2.store zeroBlock [] = .ok {
      cachedBlocks := 1
      lastHash := 5
      locations := [{ hash := 5, location := encodeTokensToBlobName zeroBlock }] } := by
    decide +kernel
  refine ⟨_, _, _, _, served_run _ _, hlookup, rfl, fun v hv _ => ?_⟩
  have hrecorded : recordedVersions middleBlockRun.2.store (encodeTokensToBlobName zeroBlock) =
      .ok [{ hash := 5, parentHash := 7, location := encodeTokensToBlobName zeroBlock }] := by
    decide +kernel
  obtain rfl := List.mem_singleton.mp ((records_iff hrecorded).mp hv)
  rfl

end

end KVStore
