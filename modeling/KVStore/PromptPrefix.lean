import KVStore.Retrieval
import KVStore.TokenBuffer

/-!
# Lookup and prefixes of the prompt

The walk of `Lookup` goes from block to block and never looks ahead, so a walk over fewer blocks
returns fewer locations and otherwise the same ones (`lookupLoop_take`), and it only uses the names
of the blocks and what was fetched for them (`lookupLoop_congr`). `lookup_prefix`: the locations for
a prompt are those of its blocks in every longer prompt.
-/

namespace KVStore

universe u

/-! ## The walk over fewer blocks -/

/-- The walk uses nothing of a block but the name of its blob. -/
theorem lookupLoop_congr {blocks blocks' : List (BlockInfo × Except StdError BlockProperties)}
    {n : Nat} {parent : Hash} {result : LookupResult}
    (h : blocks.map (Prod.map BlockInfo.blobName id) =
      blocks'.map (Prod.map BlockInfo.blobName id)) :
    lookupLoop blocks n parent result = lookupLoop blocks' n parent result := by
  induction blocks generalizing blocks' n parent result with
  | nil =>
    rw [List.map_nil] at h
    rw [List.map_eq_nil_iff.mp h.symm]
  | cons b blocks ih =>
    obtain ⟨block, future⟩ := b
    obtain ⟨⟨block', future'⟩, blocks', rfl⟩ := List.exists_cons_of_ne_nil (l := blocks') (by
      rintro rfl
      cases h)
    rw [List.map_cons, List.map_cons, List.cons.injEq] at h
    obtain ⟨hb, hrest⟩ := h
    obtain ⟨hname, rfl⟩ := Prod.mk.inj hb
    unfold lookupLoop
    rw [hname]
    simp only [ih hrest, id_eq]

/-- A walk over fewer blocks stops earlier and takes the same versions until then. -/
theorem lookupLoop_take {blocks : List (BlockInfo × Except StdError BlockProperties)} {n k : Nat}
    {parent : Hash} {result r : LookupResult} (h : lookupLoop blocks n parent result = .ok r) :
    ∃ r', lookupLoop (blocks.take k) n parent result = .ok r' ∧
      r'.locations = r.locations.take (result.locations.length + k) := by
  induction blocks generalizing n k parent result with
  | nil =>
    cases h
    refine ⟨r, ?_, ?_⟩
    · rw [List.take_nil]
      rfl
    · rw [List.take_of_length_le (Nat.le_add_right ..)]
  | cons b blocks ih =>
    obtain ⟨block, future⟩ := b
    cases k with
    | zero =>
      obtain ⟨locs, hlocs, -⟩ := lookupLoop_walk h
      refine ⟨result, rfl, ?_⟩
      rw [Nat.add_zero, hlocs, List.take_left]
    | succ k =>
      rw [List.take_succ_cons]
      obtain ⟨p, rfl, ⟨hnone, rfl⟩ | ⟨loc, hfound, hchoose, h⟩⟩ := lookupLoop_cases h
      · refine ⟨r, lookupLoop_stop _ hnone, ?_⟩
        rw [List.take_of_length_le (Nat.le_add_right ..)]
      · obtain ⟨r', hr', hlocs⟩ := ih (k := k) h
        rw [lookupLoop_some _ hfound hchoose]
        refine ⟨r', hr', ?_⟩
        rw [hlocs]
        simp [Nat.add_assoc, Nat.add_comm 1 k]

/-! ## What a result says of its locations -/

/-- The hash of the last location, 0 if there is none. -/
def lastHashOf (locations : List BlockLocation) : Hash :=
  (locations.getLast?.map BlockLocation.hash).getD 0

/-- `cachedBlocks` counts the locations, and `lastHash` is the hash of the last one. -/
structure LookupResult.Consistent (r : LookupResult) : Prop where
  cachedBlocks : r.cachedBlocks = r.locations.length
  lastHash : r.lastHash = lastHashOf r.locations

theorem LookupResult.Consistent.empty : LookupResult.Consistent {} where
  cachedBlocks := rfl
  lastHash := rfl

theorem LookupResult.Consistent.push {r : LookupResult} (h : r.Consistent) (loc : BlockLocation) :
    LookupResult.Consistent {
      cachedBlocks := r.cachedBlocks + 1
      lastHash := loc.hash
      locations := r.locations ++ [loc] } where
  cachedBlocks := by
    rw [List.length_append, List.length_singleton, h.cachedBlocks]
  lastHash := by
    unfold lastHashOf
    rw [List.getLast?_concat]
    rfl

/-- Every result that the walk passes on is consistent. -/
theorem lookupLoop_consistent {blocks : List (BlockInfo × Except StdError BlockProperties)}
    {n : Nat} {parent : Hash} {result r : LookupResult} (hresult : result.Consistent)
    (h : lookupLoop blocks n parent result = .ok r) : r.Consistent := by
  induction blocks generalizing n parent result with
  | nil =>
    cases h
    exact hresult
  | cons b blocks ih =>
    obtain ⟨block, future⟩ := b
    obtain ⟨p, rfl, ⟨hnone, rfl⟩ | ⟨loc, hfound, hchoose, h⟩⟩ := lookupLoop_cases h
    · exact hresult
    · exact ih (hresult.push loc) h

/-! ## Prompts -/

section

variable [Base64Url] {c : Container} {tokens tokens' : List Token}
  {precomputedHashes precomputedHashes' : List Hash}

/-- `Lookup` is the walk over its blocks, also where there is none. -/
theorem lookup_eq_loop (c : Container) (tokens : List Token) (precomputedHashes : List Hash) :
    lookup c tokens precomputedHashes =
      lookupLoop (lookupBlocks c tokens precomputedHashes (tokens.length / blockSize)) 0 0 {} := by
  unfold lookup
  dsimp only
  split
  · next h0 =>
    rw [h0]
    rfl
  · rfl

theorem lookup_consistent {result : LookupResult}
    (h : lookup c tokens precomputedHashes = .ok result) : result.Consistent := by
  rw [lookup_eq_loop] at h
  exact lookupLoop_consistent .empty h

/-- Blocks of two prompts that agree are fetched alike, whatever the hashes of the caller. -/
theorem lookupBlocks_congr {m : Nat}
    (h : ∀ i < m, blockTokens tokens i = blockTokens tokens' i) :
    (lookupBlocks c tokens precomputedHashes m).map (Prod.map BlockInfo.blobName id) =
      (lookupBlocks c tokens' precomputedHashes' m).map (Prod.map BlockInfo.blobName id) := by
  unfold lookupBlocks
  rw [List.map_map, List.map_map]
  apply List.map_congr_left
  intro i hi
  simp only [Function.comp_apply, Prod.map_apply, id_eq, blockInfo, h i (List.mem_range.mp hi)]

/-- `Lookup` sees of a prompt its full blocks only, and does not use the caller's hashes. -/
theorem lookup_congr (hlen : tokens.length / blockSize = tokens'.length / blockSize)
    (h : ∀ i < tokens.length / blockSize, blockTokens tokens i = blockTokens tokens' i) :
    lookup c tokens precomputedHashes = lookup c tokens' precomputedHashes' := by
  rw [lookup_eq_loop, lookup_eq_loop, ← hlen]
  exact lookupLoop_congr (lookupBlocks_congr h)

theorem lookupBlocks_take {k m : Nat} (h : k ≤ m) :
    (lookupBlocks c tokens precomputedHashes m).take k =
      lookupBlocks c tokens precomputedHashes k := by
  unfold lookupBlocks
  rw [← List.map_take, List.take_range, Nat.min_eq_left h]

/-- Where a longer prompt can be looked up, so can the shorter one, with the first of its
locations. -/
theorem lookup_append {suffix : List Token} {extended : LookupResult}
    (h : lookup c (tokens ++ suffix) precomputedHashes = .ok extended) :
    ∃ result, lookup c tokens precomputedHashes' = .ok result ∧
      result.locations = extended.locations.take (tokens.length / blockSize) := by
  rw [lookup_eq_loop] at h
  obtain ⟨result, hresult, hlocs⟩ := lookupLoop_take (k := tokens.length / blockSize) h
  have hle : tokens.length / blockSize ≤ (tokens ++ suffix).length / blockSize := by
    apply Nat.div_le_div_right
    rw [List.length_append]
    exact Nat.le_add_right ..
  have hblocks : ∀ i < tokens.length / blockSize,
      blockTokens (tokens ++ suffix) i = blockTokens tokens i := by
    intro i hi
    apply blockTokens_append
    exact (Nat.le_div_iff_mul_le (by decide)).mp hi
  refine ⟨result, ?_, ?_⟩
  · rw [lookup_eq_loop, ← hresult, lookupBlocks_take hle]
    exact lookupLoop_congr (lookupBlocks_congr fun i hi => (hblocks i hi).symm)
  · rw [hlocs, List.length_nil, Nat.zero_add]

/-- The tokens after the last full block are not in a block. -/
theorem lookup_fullBlocks :
    lookup c (tokens.take (tokens.length / blockSize * blockSize)) precomputedHashes' =
      lookup c tokens precomputedHashes := by
  have hle : tokens.length / blockSize * blockSize ≤ tokens.length := Nat.div_mul_le_self ..
  have hlen : (tokens.take (tokens.length / blockSize * blockSize)).length / blockSize =
      tokens.length / blockSize := by
    rw [List.length_take, Nat.min_eq_left hle, Nat.mul_div_cancel _ (by decide)]
  apply lookup_congr hlen
  intro i hi
  rw [hlen] at hi
  have hfull : (i + 1) * blockSize ≤
      (tokens.take (tokens.length / blockSize * blockSize)).length := by
    rw [List.length_take, Nat.min_eq_left hle]
    exact Nat.mul_le_mul_right _ hi
  have happend := blockTokens_append hfull (tokens.drop (tokens.length / blockSize * blockSize))
  rw [List.take_append_drop] at happend
  exact happend.symm

variable {ι : Type u} [DecidableEq ι] {calls : Calls ι} {s : System ι}
  {tr : List (System ι × Event ι)}

/-- On every store that calls have written, the locations for a prompt are those that each longer
prompt has for its blocks, and the tokens after the last full block have no part in them. -/
theorem lookup_prefix (h : Runs serviceFaults calls Container.empty tr s)
    (tokens suffix : List Token) (precomputedHashes : List Hash) :
    ∃ result extended, lookup s.store tokens precomputedHashes = .ok result ∧
      lookup s.store (tokens ++ suffix) precomputedHashes = .ok extended ∧
      result.locations = extended.locations.take (tokens.length / blockSize) ∧
      lookup s.store (tokens.take (tokens.length / blockSize * blockSize)) precomputedHashes =
        .ok result ∧
      result.Consistent := by
  obtain ⟨j, hr, -⟩ := Runs.refines id h
  obtain ⟨extended, hextended⟩ := hr.lookup_ok (tokens ++ suffix) precomputedHashes
  have hprefix : ∃ result, lookup s.store tokens precomputedHashes = .ok result ∧
      result.locations = extended.locations.take (tokens.length / blockSize) :=
    lookup_append hextended
  obtain ⟨result, hresult, hlocs⟩ := hprefix
  exact ⟨result, extended, hresult, hextended, hlocs, lookup_fullBlocks.trans hresult,
    lookup_consistent hresult⟩

end

section

attribute [local instance] Base64Url.unpadded

theorem lookup_prefix_repeated : ∃ result extended,
    lookup repeatedBlockRun.2.store zeroBlock [] = .ok result ∧
      lookup repeatedBlockRun.2.store (zeroBlock ++ zeroBlock) [] = .ok extended ∧
      result.locations = extended.locations.take 1 := by
  obtain ⟨result, extended, hresult, hextended, hlocs, -⟩ :=
    lookup_prefix repeatedBlockRun_run zeroBlock zeroBlock []
  have hone : zeroBlock.length / blockSize = 1 := by
    rw [zeroBlock, List.length_replicate]
    rfl
  rw [hone] at hlocs
  exact ⟨result, extended, hresult, hextended, hlocs⟩

end

end KVStore
