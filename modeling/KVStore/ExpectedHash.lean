import KVStore.Longest
import KVStore.PromptPrefix

/-!
# The expected hashes of the caller

`Lookup` stores the hash that the caller expects of each block and never compares it: the chain that
it returns is the one that it walks without them (`lookup_of_walk`). `honoursHashes_iff`: the
expected hashes are honoured exactly when that chain has them.
-/

namespace KVStore

section

variable [Base64Url] {c : Container} {tokens : List Token} {precomputedHashes : List Hash}

/-- The versions of the blob can be read, and none is a child of the hash. -/
def Childless (c : Container) (blobName : Text) (parent : Hash) : Prop :=
  ∃ blob default versions, c.blobs blobName = some blob ∧
    defaultVersion blob.metadata blobName = .ok default ∧ default.parentHash ≠ parent ∧
    additionalVersionsOf blob.metadata = .ok versions ∧ ∀ w ∈ versions, w.parentHash ≠ parent

/-- The walk ends after `k` blocks: the next one has no blob, or no child of the last version. -/
def WalkEnds (c : Container) (tokens : List Token) (v : Nat → AdditionalVersion) (k : Nat) : Prop :=
  k < tokens.length / blockSize →
    c.blobs (encodeTokensToBlobName (blockTokens tokens k)) = none ∨
      ∃ i, k = i + 1 ∧
        Childless c (encodeTokensToBlobName (blockTokens tokens k)) (v i).hash

/-- Every location has the hash that the caller expects of its block, and a block whose versions all
have another one ends the chain. -/
structure HonoursHashes (c : Container) (tokens : List Token) (precomputedHashes : List Hash) :
    Prop where
  hash_eq : ∀ {result}, lookup c tokens precomputedHashes = .ok result →
    ∀ {i : Nat} {loc : BlockLocation} {hash : Hash}, result.locations[i]? = some loc →
      precomputedHashes[i]? = some hash → loc.hash = hash
  ends : ∀ {result}, lookup c tokens precomputedHashes = .ok result →
    ∀ {i : Nat} {hash : Hash}, precomputedHashes[i]? = some hash →
      (∀ w, Records c (encodeTokensToBlobName (blockTokens tokens i)) w → w.hash ≠ hash) →
      result.locations.length ≤ i

/-- The chain that is walked without the expected hashes has them. -/
def WalkHasHashes (c : Container) (tokens : List Token) (precomputedHashes : List Hash) : Prop :=
  ∀ v k, WalkedChain c tokens v k → WalkEnds c tokens v k →
    ∀ i < k, ∀ hash, precomputedHashes[i]? = some hash → (v i).hash = hash

/-! ## The walk takes its chain -/

omit [Base64Url] in
/-- What is fetched for a blob whose default version can be read. -/
theorem blockProperties_of_default {blobName : Text} {blob : Blob} {default : AdditionalVersion}
    (hblob : c.blobs blobName = some blob)
    (hdefault : defaultVersion blob.metadata blobName = .ok default) :
    ∃ p, blockProperties (c.perform (.getProperties blobName)).1 = .ok p ∧ p.found = true ∧
      default = { hash := p.storedHash, parentHash := p.parentHash, location := blobName } ∧
      additionalVersionsOf blob.metadata = parseAdditionalVersions p.additionalVersions := by
  obtain ⟨hash, hhash, hrest⟩ := bind_eq_ok hdefault
  obtain ⟨parentHash, hparent, hrest⟩ := bind_eq_ok hrest
  cases hrest
  refine ⟨{
    found := true, storedHash := hash, parentHash,
    multiVersion := textEntry blob.metadata "multiversion".toList,
    additionalVersions := textEntry blob.metadata "additionalversions".toList },
    ?_, rfl, rfl, rfl⟩
  simp only [Container.perform, hblob]
  unfold blockProperties
  dsimp only
  rw [hhash, hparent]
  rfl

omit [Base64Url] in
/-- The default version is taken for the first block, and for every block that is its child. -/
theorem chooseVersion_default {n : Nat} {blobName : Text} {p : BlockProperties} {parent : Hash}
    (h : n = 0 ∨ p.parentHash = parent) :
    chooseVersion n blobName p parent =
      .ok (some { hash := p.storedHash, location := blobName }) := by
  unfold chooseVersion
  rw [if_pos h]
  split
  · rfl
  · rw [if_neg]
    rintro ⟨hpos, hne⟩
    exact h.elim (Nat.ne_of_gt hpos) hne

omit [Base64Url] in
/-- Else the first child in the list is taken, if there is one. -/
theorem chooseVersion_listed {n : Nat} {blobName : Text} {p : BlockProperties} {parent : Hash}
    {versions : List AdditionalVersion} (hn : 0 < n) (hne : p.parentHash ≠ parent)
    (hparse : parseAdditionalVersions p.additionalVersions = .ok versions) :
    chooseVersion n blobName p parent =
      .ok ((versions.find? fun version => version.parentHash = parent).map
        fun version => { hash := version.hash, location := version.location }) := by
  unfold chooseVersion
  by_cases hempty : p.additionalVersions = []
  · rw [if_neg (not_not.mpr hempty), if_pos ⟨hn, hne⟩]
    rw [hempty] at hparse
    cases hparse
    rfl
  · rw [if_pos hempty, if_neg (not_or.mpr ⟨Nat.ne_of_gt hn, hne⟩), hparse]
    rfl

omit [Base64Url] in
theorem chooseVersion_of_takes {n : Nat} {blobName : Text} {parent : Hash} {v : AdditionalVersion}
    (hn : 0 < n) (h : TakesChild c blobName parent v) :
    ∃ p, blockProperties (c.perform (.getProperties blobName)).1 = .ok p ∧ p.found = true ∧
      chooseVersion n blobName p parent =
        .ok (some { hash := v.hash, location := v.location }) := by
  obtain ⟨blob, default, hblob, hdefault, hcase⟩ := h
  obtain ⟨p, hp, hfound, rfl, hlist⟩ := blockProperties_of_default hblob hdefault
  refine ⟨p, hp, hfound, ?_⟩
  rcases hcase with ⟨hparent, rfl⟩ | ⟨hne, versions, hversions, hfind⟩
  · exact chooseVersion_default (Or.inr hparent)
  · rw [chooseVersion_listed hn hne (hlist.symm.trans hversions), hfind]
    rfl

omit [Base64Url] in
theorem chooseVersion_of_childless {n : Nat} {blobName : Text} {parent : Hash} (hn : 0 < n)
    (h : Childless c blobName parent) :
    ∃ p, blockProperties (c.perform (.getProperties blobName)).1 = .ok p ∧
      chooseVersion n blobName p parent = .ok none := by
  obtain ⟨blob, default, versions, hblob, hdefault, hne, hversions, hall⟩ := h
  obtain ⟨p, hp, hfound, rfl, hlist⟩ := blockProperties_of_default hblob hdefault
  refine ⟨p, hp, ?_⟩
  have hfind : versions.find? (fun version => version.parentHash = parent) = none := by
    rw [List.find?_eq_none]
    intro w hw
    simpa using hall w hw
  rw [chooseVersion_listed hn hne (hlist.symm.trans hversions), hfind]
  rfl

/-- From block `n` on, the walk takes the rest of its chain and ends there. -/
theorem lookupLoop_of_walk {v : Nat → AdditionalVersion} {k : Nat}
    (hwalked : WalkedChain c tokens v k) (hends : WalkEnds c tokens v k) :
    ∀ {blocks : List (BlockInfo × Except StdError BlockProperties)} {n : Nat} {parent : Hash}
      {result : LookupResult}, FetchedFrom c tokens n blocks →
      n + blocks.length = tokens.length / blockSize → n ≤ k →
      (∀ i, n = i + 1 → parent = (v i).hash) →
      ∃ r, lookupLoop blocks n parent result = .ok r ∧
        r.locations = result.locations ++ (List.range' n (k - n)).map
          fun i => { hash := (v i).hash, location := (v i).location } := by
  intro blocks
  induction blocks with
  | nil =>
    intro n parent result _ hlen hle _
    obtain rfl : n = k := Nat.le_antisymm hle (hwalked.le.trans (Nat.le_of_eq hlen.symm))
    exact ⟨result, rfl, by simp⟩
  | cons b blocks ih =>
    intro n parent result hfetched hlen hle hparent
    obtain ⟨block, future⟩ := b
    obtain ⟨hname, hfuture⟩ := hfetched 0 _ rfl
    dsimp only at hname hfuture
    rw [Nat.add_zero] at hname
    rw [hname] at hfuture
    rw [List.length_cons] at hlen
    rcases Nat.lt_or_ge n k with hlt | hge
    · -- the chain goes on with its version of block `n`
      have hchoose : ∃ p, blockProperties (c.perform (.getProperties block.blobName)).1 = .ok p ∧
          p.found = true ∧ chooseVersion n block.blobName p parent =
            .ok (some { hash := (v n).hash, location := (v n).location }) := by
        rw [hname]
        cases n with
        | zero =>
          obtain ⟨blob, hblob, hdefault⟩ := hwalked.default hlt
          obtain ⟨p, hp, hfound, hv, -⟩ := blockProperties_of_default hblob hdefault
          refine ⟨p, hp, hfound, ?_⟩
          rw [chooseVersion_default (Or.inl rfl), hv]
        | succ n =>
          rw [hparent n rfl]
          exact chooseVersion_of_takes (Nat.succ_pos n) (hwalked.child n hlt)
      obtain ⟨p, hp, hfound, hchoose⟩ := hchoose
      rw [hname] at hp
      rw [hfuture, hp, lookupLoop_some blocks hfound hchoose]
      have hrest := @ih (n + 1) (v n).hash {
        cachedBlocks := result.cachedBlocks + 1
        lastHash := (v n).hash
        locations := result.locations ++ [{ hash := (v n).hash, location := (v n).location }] }
        hfetched.tail (by omega) hlt (by
          intro i hi
          cases hi
          rfl)
      obtain ⟨r, hr, hlocs⟩ := hrest
      refine ⟨r, hr, ?_⟩
      have hsub : k - n = k - (n + 1) + 1 := by omega
      rw [hlocs, hsub, List.range'_succ, List.map_cons, List.append_assoc]
      rfl
    · -- the chain is at its end
      obtain rfl : n = k := Nat.le_antisymm hle hge
      have hnone : ∃ p, blockProperties (c.perform (.getProperties block.blobName)).1 = .ok p ∧
          (p.found = true → chooseVersion n block.blobName p parent = .ok none) := by
        rw [hname]
        rcases hends (by omega) with hnone | ⟨i, rfl, hchildless⟩
        · refine ⟨{}, ?_, fun hfound => by cases hfound⟩
          simp only [Container.perform, hnone]
          rfl
        · rw [hparent i rfl]
          obtain ⟨p, hp, hchoose⟩ := chooseVersion_of_childless (Nat.succ_pos i) hchildless
          exact ⟨p, hp, fun _ => hchoose⟩
      obtain ⟨p, hp, hnone⟩ := hnone
      rw [hname] at hp
      rw [hfuture, hp, lookupLoop_stop blocks hnone]
      exact ⟨result, rfl, by simp⟩

/-- `Lookup` returns the chain that it walks, whatever hashes the caller expects. -/
theorem lookup_of_walk {v : Nat → AdditionalVersion} {k : Nat} (hwalked : WalkedChain c tokens v k)
    (hends : WalkEnds c tokens v k) (precomputedHashes : List Hash) :
    ∃ result, lookup c tokens precomputedHashes = .ok result ∧
      result.locations = (List.range k).map
        fun i => { hash := (v i).hash, location := (v i).location } := by
  rw [lookup_eq_loop]
  have hlen : 0 + (lookupBlocks c tokens precomputedHashes (tokens.length / blockSize)).length =
      tokens.length / blockSize := by
    rw [lookupBlocks, List.length_map, List.length_range, Nat.zero_add]
  have hloop : ∃ r, lookupLoop (lookupBlocks c tokens precomputedHashes (tokens.length / blockSize))
      0 0 {} = .ok r ∧ r.locations = [] ++ (List.range' 0 (k - 0)).map
        fun i => { hash := (v i).hash, location := (v i).location } :=
    lookupLoop_of_walk hwalked hends (fetchedFrom_lookupBlocks _) hlen (Nat.zero_le k)
      (fun i hi => by cases hi)
  obtain ⟨r, hr, hlocs⟩ := hloop
  refine ⟨r, hr, ?_⟩
  rw [hlocs, List.nil_append, Nat.sub_zero, List.range_eq_range']

/-! ## Where the walk of `Lookup` ends -/

omit [Base64Url] in
/-- A walk that can choose no version of a readable blob is past the first block, at a blob without
a child. -/
theorem childless_of_none {blobName : Text} {n : Nat} {parent : Hash} {p : BlockProperties}
    (hp : blockProperties (c.perform (.getProperties blobName)).1 = .ok p)
    (hfound : p.found = true) (h : chooseVersion n blobName p parent = .ok none) :
    0 < n ∧ Childless c blobName parent := by
  obtain ⟨blob, hblob, hdefault, hlist⟩ := blockProperties_found hp hfound
  have hn : ¬ (n = 0 ∨ p.parentHash = parent) := by
    intro hn
    rw [chooseVersion_default hn] at h
    cases h
  obtain ⟨hn0, hne⟩ := not_or.mp hn
  have hpos : 0 < n := Nat.pos_of_ne_zero hn0
  cases hparse : parseAdditionalVersions p.additionalVersions with
  | error e =>
    -- the walk reads the list here, unless there is none
    have hempty : p.additionalVersions ≠ [] := by
      intro hempty
      rw [hempty] at hparse
      cases hparse
    unfold chooseVersion at h
    rw [if_pos hempty, if_neg hn, hparse] at h
    cases h
  | ok versions =>
    rw [chooseVersion_listed hpos hne hparse] at h
    have hfind := Option.map_eq_none_iff.mp (Except.ok.inj h)
    refine ⟨hpos, blob, _, versions, hblob, hdefault, hne, hlist.trans hparse, ?_⟩
    intro w hw
    simpa using List.find?_eq_none.mp hfind w hw

/-- The chain that `Lookup` returns is walked to its end. -/
theorem lookup_ends {result : LookupResult} {v : Nat → AdditionalVersion}
    (h : lookup c tokens precomputedHashes = .ok result)
    (hv : ∀ i loc, result.locations[i]? = some loc → (v i).hash = loc.hash) :
    WalkEnds c tokens v result.locations.length := by
  intro hlt
  have hblock : (lookupBlocks c tokens precomputedHashes (tokens.length / blockSize))[
      result.locations.length]? = some (blockInfo tokens precomputedHashes result.locations.length,
        blockProperties (c.perform (.getProperties
          (encodeTokensToBlobName (blockTokens tokens result.locations.length)))).1) := by
    unfold lookupBlocks
    rw [List.getElem?_map, List.getElem?_range hlt]
    rfl
  obtain ⟨p, expected, hp, hexpected, hnone⟩ := lookup_stops h _ _ hblock
  rw [Nat.zero_add] at hnone
  by_cases hfound : p.found = true
  · obtain ⟨hpos, hchildless⟩ := childless_of_none hp hfound (hnone hfound)
    obtain ⟨i, hi⟩ := Nat.exists_eq_succ_of_ne_zero (Nat.ne_of_gt hpos)
    rw [hi, List.getElem?_cons_succ, List.getElem?_map] at hexpected
    obtain ⟨last, hlast, rfl⟩ := Option.map_eq_some_iff.mp hexpected
    rw [← hv i last hlast] at hchildless
    exact Or.inr ⟨i, hi, hchildless⟩
  · left
    by_contra hsome
    obtain ⟨blob, hblob⟩ := Option.ne_none_iff_exists'.mp hsome
    simp only [Container.perform, hblob] at hp
    obtain ⟨hash, -, hp⟩ := bind_eq_ok hp
    obtain ⟨parentHash, -, hp⟩ := bind_eq_ok hp
    cases hp
    exact hfound rfl

/-- `Lookup` honours the expected hashes exactly when the chain that it walks without them, from the
default version of the first block to the first child of each later one, has these hashes. -/
theorem honoursHashes_iff (c : Container) (tokens : List Token) (precomputedHashes : List Hash) :
    HonoursHashes c tokens precomputedHashes ↔ WalkHasHashes c tokens precomputedHashes := by
  constructor
  · intro h v k hwalked hends i hi hash hhash
    obtain ⟨result, hresult, hlocs⟩ := lookup_of_walk hwalked hends precomputedHashes
    have hloc : result.locations[i]? =
        some { hash := (v i).hash, location := (v i).location } := by
      rw [hlocs, List.getElem?_map, List.getElem?_range hi]
      rfl
    exact h.hash_eq hresult hloc hhash
  · intro h
    have hhash : ∀ {result}, lookup c tokens precomputedHashes = .ok result →
        ∀ {i : Nat} {loc : BlockLocation} {hash : Hash}, result.locations[i]? = some loc →
          precomputedHashes[i]? = some hash → loc.hash = hash := by
      intro result hresult i loc hash hloc hexpected
      obtain ⟨v, hwalked, hv, -⟩ := lookup_walked hresult
      have hends := lookup_ends hresult fun i loc hloc => (hv i loc hloc).1
      rw [(lookup_chosen hresult).1] at hwalked
      have hlt := (List.getElem?_eq_some_iff.mp hloc).1
      exact (hv i loc hloc).1.symm.trans (h v _ hwalked hends i hlt hash hexpected)
    refine ⟨hhash, ?_⟩
    intro result hresult i hash hexpected hother
    by_contra hlt
    have hloc := List.getElem?_eq_getElem (Nat.lt_of_not_le hlt)
    obtain ⟨w, hw, hwh, -⟩ := lookup_records hresult hloc
    exact hother w hw (hwh.trans (hhash hresult hloc hexpected))

end

section

attribute [local instance] Base64Url.unpadded

/-- The block is stored with hash 7 and returned to a caller that expects 8. -/
theorem lookup_unexpectedHash :
    ∃ c tokens precomputedHashes, ¬ HonoursHashes c tokens precomputedHashes := by
  refine ⟨repeatedBlockRun.2.store, zeroBlock, [8], fun h => ?_⟩
  have hlookup : lookup repeatedBlockRun.2.store zeroBlock [8] = .ok {
      cachedBlocks := 1
      lastHash := 7
      locations := [{ hash := 7, location := encodeTokensToBlobName zeroBlock }] } := by
    decide +kernel
  have heq := h.hash_eq hlookup (i := 0) rfl rfl
  exact absurd heq (by decide)

end

end KVStore
