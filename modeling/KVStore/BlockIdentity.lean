import KVStore.Append
import KVStore.Chain
import KVStore.History

/-!
# Names identify blocks

`DecodeBlobNameToTokens` reads four bytes per token: it gives back the low 32 bits of every token.
`blobName_identifies`: so the name of a block gives its tokens back exactly when they all are
numbers of 32 bits, and then blocks with different tokens have different names and a hit is on a
block that was written with the same tokens. `guid_disjoint`: no unconditional upload and no
deletion touches a blob that is named after tokens.
-/

namespace KVStore

open Transition

universe u

/-! ## Decoding a name -/

/-- A token from its four bytes. -/
def tokenOfBytes (b0 b1 b2 b3 : UInt8) : Token :=
  (b0.toUInt32 <<< 24 ||| b1.toUInt32 <<< 16 ||| b2.toUInt32 <<< 8 |||
    b3.toUInt32).toUInt64.toInt64

/-- The loop over groups of four bytes. -/
def tokensOfBytes : List UInt8 → List Token
  | b0 :: b1 :: b2 :: b3 :: bytes => tokenOfBytes b0 b1 b2 b3 :: tokensOfBytes bytes
  | _ => []

def decodeBlobNameToTokens [Base64Url] (blobName : Text) : List Token :=
  tokensOfBytes (Base64Url.decode blobName)

theorem word_of_bytes (w : UInt32) :
    ((w >>> 24) &&& 0xFF).toUInt8.toUInt32 <<< 24 |||
      ((w >>> 16) &&& 0xFF).toUInt8.toUInt32 <<< 16 |||
      ((w >>> 8) &&& 0xFF).toUInt8.toUInt32 <<< 8 ||| (w &&& 0xFF).toUInt8.toUInt32 = w := by
  have hand : ∀ n : Nat, n &&& 255 = n % 2 ^ 8 := fun n => Nat.and_two_pow_sub_one_eq_mod n 8
  have hmod8 : ∀ n : Nat, n % 256 = n % 2 ^ 8 := fun _ => rfl
  have hmod32 : ∀ n : Nat, n % 4294967296 = n % 2 ^ 32 := fun _ => rfl
  apply UInt32.toNat_inj.mp
  apply Nat.eq_of_testBit_eq
  intro i
  have hhigh : 32 ≤ i → w.toNat.testBit i = false := fun hi =>
    Nat.testBit_lt_two_pow (w.toNat_lt.trans_le (Nat.pow_le_pow_right (by decide) hi))
  have hback : ∀ k ≤ i, k + (i - k) = i := fun k hk => by omega
  simp [hand, hmod8, hmod32, Nat.testBit_or, Nat.testBit_shiftLeft, Nat.testBit_shiftRight,
    Nat.testBit_mod_two_pow]
  -- the byte that holds bit `i`
  by_cases h24 : 24 ≤ i
  · have h16 : ¬ i - 16 < 8 := by omega
    have h8 : ¬ i - 8 < 8 := by omega
    have h0 : ¬ i < 8 := by omega
    by_cases h32 : i < 32
    · have hbyte : i - 24 < 8 := by omega
      simp [h24, h32, h16, h8, h0, hbyte, hback]
    · simp [h32, h0, hhigh (Nat.le_of_not_lt h32)]
  · have h32 : i < 32 := by omega
    by_cases h16 : 16 ≤ i
    · have hbyte : i - 16 < 8 := by omega
      have h8 : ¬ i - 8 < 8 := by omega
      have h0 : ¬ i < 8 := by omega
      simp [h24, h32, h16, h8, h0, hbyte, hback]
    · by_cases h8 : 8 ≤ i
      · have hbyte : i - 8 < 8 := by omega
        have h0 : ¬ i < 8 := by omega
        simp [h24, h32, h16, h8, h0, hbyte, hback]
      · have h0 : i < 8 := by omega
        simp [h24, h16, h8, h0]

/-- The token that the low 32 bits show. -/
def truncated (token : Token) : Token := (low32 token).toUInt64.toInt64

theorem tokensOfBytes_flatMap (tokens : List Token) :
    tokensOfBytes (tokens.flatMap tokenBytes) = tokens.map truncated := by
  induction tokens with
  | nil => rfl
  | cons token tokens ih =>
    have htoken : tokensOfBytes (tokenBytes token ++ tokens.flatMap tokenBytes) =
        truncated token :: tokensOfBytes (tokens.flatMap tokenBytes) := by
      unfold tokenBytes truncated
      simp only [List.cons_append, List.nil_append, tokensOfBytes, tokenOfBytes, word_of_bytes]
    rw [List.flatMap_cons, List.map_cons, ← ih]
    exact htoken

/-- Decoding a name gives back the low 32 bits of the tokens. -/
theorem decodeBlobNameToTokens_encode [Base64Url] (tokens : List Token) :
    decodeBlobNameToTokens (encodeTokensToBlobName tokens) = tokens.map truncated := by
  unfold decodeBlobNameToTokens encodeTokensToBlobName
  rw [Base64Url.decode_encode]
  exact tokensOfBytes_flatMap tokens

theorem toInt_truncated (token : Token) : (truncated token).toInt = (low32 token).toNat := by
  have hlt := (low32 token).toNat_lt
  have hnat : (low32 token).toUInt64.toBitVec.toNat = (low32 token).toNat :=
    UInt32.toNat_toUInt64 _
  have hint : (truncated token).toInt = (low32 token).toUInt64.toBitVec.toInt := rfl
  rw [hint, BitVec.toInt_eq_toNat_of_lt (by omega), hnat]

theorem token32_truncated (token : Token) : Token32 (truncated token) := by
  have hlt := (low32 token).toNat_lt
  unfold Token32
  rw [toInt_truncated]
  omega

theorem truncated_eq_iff {token : Token} : truncated token = token ↔ Token32 token := by
  constructor
  · intro h
    exact h ▸ token32_truncated token
  · intro h
    apply Int64.toInt_inj.mp
    rw [toInt_truncated, toInt_eq_low32 h]

theorem map_truncated_eq_iff {tokens : List Token} :
    tokens.map truncated = tokens ↔ ∀ token ∈ tokens, Token32 token := by
  induction tokens with
  | nil => simp
  | cons token tokens ih =>
    rw [List.map_cons, List.cons.injEq, ih, truncated_eq_iff, List.forall_mem_cons]

theorem low32_truncated (token : Token) : low32 (truncated token) = low32 token := by
  apply UInt32.toNat_inj.mp
  have heq := toInt_eq_low32 (token32_truncated token)
  rw [toInt_truncated] at heq
  exact (Int.ofNat.inj heq).symm

/-- The low 32 bits give a sequence of 32-bit tokens the same name. -/
theorem map_low32_truncated {tokens : List Token} :
    (tokens.map truncated).map low32 = tokens.map low32 := by
  rw [List.map_map]
  exact List.map_congr_left fun token _ => low32_truncated token

/-! ## Names in a run -/

section

variable {ι : Type u} [Base64Url] {calls : Calls ι} {j : Journal.State ι Text} {s s' : System ι}
  {e : Event ι} {tr : List (System ι × Event ι)}

/-- A recorded version is that of a call whose block has the same name. -/
theorem Refines.records_writer (h : Refines calls j s) (hinv : Journal.Inv (protocol calls) j)
    {tokens : List Token} {v : AdditionalVersion}
    (hv : Records s.store (encodeTokensToBlobName tokens) v) :
    ∃ i, (calls.call i).blobName = encodeTokensToBlobName tokens ∧
      v.hash = (calls.call i).chunk.hash ∧ v.parentHash = (calls.call i).chunk.parentHash := by
  rcases hv with hv | hv
  · obtain ⟨c, hc, rfl⟩ := (h.recordsDefault_iff hinv).mp hv
    exact ⟨c, hinv.slot_creator hc, rfl, rfl⟩
  · obtain ⟨a, ha, rfl⟩ := (h.recordsAdditional_iff hinv).mp hv
    exact ⟨a, (hinv.mem_log (RecentWindow.mem_of_mem_rtake ha)).1, rfl, rfl⟩

variable [DecidableEq ι]

/-- A hit is on a block that was written with tokens of the same low 32 bits. -/
theorem Runs.hit_writer (h : Runs serviceFaults calls Container.empty tr s) {tokens : List Token}
    {precomputedHashes : List Hash} {result : LookupResult}
    (hl : lookup s.store tokens precomputedHashes = .ok result) {i : Nat} {loc : BlockLocation}
    (hi : result.locations[i]? = some loc) :
    ∃ a, (calls.call a).chunk.tokens.map low32 = (blockTokens tokens i).map low32 ∧
      (calls.call a).chunk.hash = loc.hash := by
  obtain ⟨j, hr, hinv⟩ := Runs.refines id h
  obtain ⟨v, hv, hhash, -⟩ := lookup_records hl hi
  obtain ⟨a, hname, hhash', -⟩ := hr.records_writer hinv hv
  exact ⟨a, encodeTokensToBlobName_eq_iff.mp hname, hhash'.symm.trans hhash⟩

/-- Decoding the name of a block gives its tokens back exactly when all of them are numbers of 32
bits; blocks of such tokens share no name, and `Lookup` reports a hit only for a block whose tokens
have been written. -/
theorem blobName_identifies (tokens : List Token) :
    (decodeBlobNameToTokens (encodeTokensToBlobName tokens) = tokens ↔
      ∀ token ∈ tokens, Token32 token) ∧
    ((∀ tokens', (∀ token ∈ tokens', Token32 token) →
        encodeTokensToBlobName tokens' = encodeTokensToBlobName tokens → tokens' = tokens) ↔
      ∀ token ∈ tokens, Token32 token) ∧
    ∀ {calls : Calls ι} {tr : List (System ι × Event ι)} {s : System ι},
      Runs serviceFaults calls Container.empty tr s →
      (∀ token ∈ tokens, Token32 token) →
      (∀ i, ∀ token ∈ (calls.call i).chunk.tokens, Token32 token) →
      ∀ precomputedHashes result, lookup s.store tokens precomputedHashes = .ok result →
        ∀ i loc, result.locations[i]? = some loc →
          ∃ a, (calls.call a).chunk.tokens = blockTokens tokens i ∧
            (calls.call a).chunk.hash = loc.hash := by
  refine ⟨?_, ⟨fun h => ?_, fun ht tokens' ht' he => ?_⟩,
    fun {calls tr s} h ht hcalls hashes result hl i loc hi => ?_⟩
  · rw [decodeBlobNameToTokens_encode]
    exact map_truncated_eq_iff
  · refine map_truncated_eq_iff.mp (h _ (fun token hmem => ?_) ?_)
    · obtain ⟨token', -, rfl⟩ := List.mem_map.mp hmem
      exact token32_truncated token'
    · exact encodeTokensToBlobName_eq_iff.mpr map_low32_truncated
  · exact map_low32_inj ht' ht (encodeTokensToBlobName_eq_iff.mp he)
  · obtain ⟨a, hlow, hhash⟩ := Runs.hit_writer h hl hi
    have hblock : ∀ token ∈ blockTokens tokens i, Token32 token := fun token hmem =>
      ht token (List.mem_of_mem_drop (List.mem_of_mem_take hmem))
    exact ⟨a, map_low32_inj (hcalls a) hblock hlow, hhash⟩

end

section

attribute [local instance] Base64Url.unpadded

theorem blobName_identifies_small :
    decodeBlobNameToTokens (encodeTokensToBlobName [1, 70000]) = [1, 70000] := by
  have hone : Token32 1 := ⟨by decide, by decide⟩
  have hlarge : Token32 70000 := ⟨by decide, by decide⟩
  have hsmall : ∀ token ∈ ([1, 70000] : List Token), Token32 token :=
    List.forall_mem_cons.mpr ⟨hone, List.forall_mem_singleton.mpr hlarge⟩
  exact (blobName_identifies (ι := UInt64) [1, 70000]).1.mpr hsmall

/-- A block of the token 2^32. -/
def wideBlock : List Token := List.replicate blockSize 4294967296

def wideBlockCalls : Calls UInt64 :=
  numberedCalls fun _ => { tokens := wideBlock, hash := 5 }

def wideBlockRun : List (System UInt64 × Event UInt64) × System UInt64 :=
  execute wideBlockCalls (served [0]) (System.initial Container.empty)

/-- The tokens 2^32 and 0 share a name: a block of zeros hits where one of 2^32 was written. -/
theorem blobName_collides :
    decodeBlobNameToTokens (encodeTokensToBlobName [4294967296]) = [0] ∧
    encodeTokensToBlobName [4294967296] = encodeTokensToBlobName [0] ∧
    ∃ tr s, Runs noFaults wideBlockCalls Container.empty tr s ∧
      (∀ i, (wideBlockCalls.call i).chunk.tokens = wideBlock) ∧
      lookup s.store zeroBlock [] = .ok {
        cachedBlocks := 1
        lastHash := 5
        locations := [{ hash := 5, location := encodeTokensToBlobName zeroBlock }] } :=
  ⟨by decide +kernel, by decide +kernel, wideBlockRun.1, wideBlockRun.2, served_run _ _,
    fun _ => rfl, by decide +kernel⟩

end

/-! ## The blobs that are replaced or deleted -/

/-- The blob that an operation replaces or removes whatever is there. -/
def BlobOp.target : BlobOp → Option Text
  | .upload name _ _ | .delete name => some name
  | _ => none

theorem Container.perform_target {c : Container} {op : BlobOp} {name name' : Text}
    (hop : op.target = some name) (hne : name' ≠ name) :
    (c.perform op).2.blobs name' = c.blobs name' := by
  cases op with
  | upload => cases hop; exact c.blobs_put_ne hne
  | delete =>
    cases hop
    rw [Container.perform_delete]
    exact c.blobs_remove_ne hne
  | _ => cases hop

section

variable {ι : Type u} [Base64Url] {calls : Calls ι} {j : Journal.State ι Text} {s s' : System ι}
  {e : Event ι} {tr : List (System ι × Event ι)}

/-- The unconditional operations of a call are on GUID blobs: its own, or that of an entry it
evicts. -/
theorem Refines.target_guid (h : Refines calls j s) (hinv : Journal.Inv (protocol calls) j) {i : ι}
    {op : BlobOp} {name : Text} (hreq : (s.point i).request (calls.call i) = some op)
    (hop : op.target = some name) : ∃ a, name = (calls.call a).guidLocation := by
  have hat := h.point i
  have hsound := hinv.sound i
  generalize j.phase i = p at hat hsound
  generalize s.point i = pt at hat hreq
  cases hat with
  | staging =>
    cases hreq
    cases hop
    exact ⟨i, rfl⟩
  | evicting hsnap hv =>
    obtain ⟨-, -, hk, hw⟩ := hsound
    obtain ⟨a, -, hdelete⟩ := request_evict hk hw hv
    cases hreq.symm.trans hdelete
    cases hop
    exact ⟨a, rfl⟩
  | starting | reading | rereading | publishing =>
    cases hreq
    cases hop
  | _ => cases hreq

variable [DecidableEq ι]

/-- No GUID is the name of a token sequence; so in every run no upload of a GUID blob and no
deletion of the eviction loop touches a blob that is named after tokens. -/
theorem guid_disjoint (h : Runs serviceFaults calls Container.empty tr s) (tokens : List Token) :
    (∀ part1 part2, encodeTokensToBlobName tokens ≠ generateGuid part1 part2) ∧
    ∀ p ∈ tr, ∀ name, p.2.op.target = some name →
      name ≠ encodeTokensToBlobName tokens ∧
      (p.1.store.perform p.2.op).2.blobs (encodeTokensToBlobName tokens) =
        p.1.store.blobs (encodeTokensToBlobName tokens) := by
  refine ⟨fun part1 part2 => (generateGuid_ne_blobName part1 part2 tokens).symm, ?_⟩
  intro p hp name hop
  obtain ⟨j, -, -, hhistory⟩ := Runs.history id h
  obtain ⟨j₁, hr₁, hinv₁, -⟩ := hhistory.past p hp
  obtain ⟨s', hs⟩ := h.step_of_mem hp
  obtain ⟨a, rfl⟩ := hr₁.target_guid hinv₁ hs.request hop
  have hne : (calls.call a).guidLocation ≠ encodeTokensToBlobName tokens :=
    generateGuid_ne_blobName _ _ tokens
  exact ⟨hne, Container.perform_target hop hne.symm⟩

end

section

attribute [local instance] Base64Url.unpadded

/-- The fourth step of the run uploads the GUID blob of the second version. -/
theorem guid_disjoint_twoVersions :
    (twoVersionsRun.1.map fun p => p.2.op.target)[3]? =
        some (some (twoVersions.call 1).guidLocation) ∧
      (twoVersions.call 1).guidLocation ≠ encodeTokensToBlobName [0] := by
  have hop : (twoVersionsRun.1.map fun p => p.2.op.target)[3]? =
      some (some (twoVersions.call 1).guidLocation) := by decide +kernel
  obtain ⟨p, hp, htarget⟩ := List.mem_map.mp (List.mem_of_getElem? hop)
  exact ⟨hop, ((guid_disjoint (served_run _ _) [0]).2 p hp _ htarget).1⟩

end

end KVStore
