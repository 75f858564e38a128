import KVStore.Retrieval
import KVStore.Rpc
import KVStore.Schedule
import KVStore.TokenBuffer

/-!
# What the cache serves for a prefix

Conversations write their blocks through `TokenBufferManager`; a version of a block is identified by
the hash of the block and the hash of the block before it. `lookup_reads_lastBlocks`: the buffer
read for block `i` of a looked up sequence was written for a prefix of a conversation that ends in
this block, after the block that precedes it in the sequence. Nothing earlier is compared, the first
block is taken wherever its default version comes from, and a block with hash 0 is taken for the
start of a sequence.
-/

namespace KVStore

open Transition

universe u v

section

variable {ι : Type u} {κ : Type v} (stdHash : Token → Hash) (kvBuffer : List Token → List UInt8)
  (conversations : κ → List ConversationOp)

/-- Every call writes a chunk that a conversation emits, as it arrives at the server. -/
def WritesConversations (calls : Calls ι) : Prop :=
  ∀ i, ∃ k, ∃ chunk ∈ emitted stdHash kvBuffer (conversations k),
    (calls.call i).chunk = chunk.toProtoChunk.toPromptChunk

/-- Different blocks of the conversations have different hashes. -/
def HashInjective : Prop :=
  ∀ ⦃k n k' n'⦄, (n + 1) * blockSize ≤ (addedTokens (conversations k)).length →
    (n' + 1) * blockSize ≤ (addedTokens (conversations k')).length →
    combinedHash stdHash (blockTokens (addedTokens (conversations k)) n) =
      combinedHash stdHash (blockTokens (addedTokens (conversations k')) n') →
    blockTokens (addedTokens (conversations k)) n = blockTokens (addedTokens (conversations k')) n'

/-- The tokens of the conversations are numbers of 32 bits. -/
def TokensFit : Prop := ∀ k, ∀ token ∈ addedTokens (conversations k), Token32 token

variable {stdHash kvBuffer conversations} {calls : Calls ι}

/-- Blocks of 32-bit tokens that have the same blob. -/
theorem blockTokens_eq [Base64Url] {s t : List Token} {m n : Nat}
    (hs : ∀ token ∈ s, Token32 token) (ht : ∀ token ∈ t, Token32 token)
    (h : encodeTokensToBlobName (blockTokens s m) = encodeTokensToBlobName (blockTokens t n)) :
    blockTokens s m = blockTokens t n :=
  map_low32_inj (fun token hmem => hs token (List.mem_of_mem_drop (List.mem_of_mem_take hmem)))
    (fun token hmem => ht token (List.mem_of_mem_drop (List.mem_of_mem_take hmem)))
    (encodeTokensToBlobName_eq_iff.mp h)

theorem WritesConversations.emittedFor
    (h : WritesConversations stdHash kvBuffer conversations calls) (i : ι) :
    ∃ k n, EmittedFor stdHash kvBuffer (addedTokens (conversations k)) n (calls.call i).chunk := by
  obtain ⟨k, chunk, hchunk, he⟩ := h i
  rw [toPromptChunk_toProtoChunk] at he
  obtain ⟨n, hn⟩ := emitted_for hchunk
  exact ⟨k, n, he ▸ hn⟩

/-- The parent of a block is the block before it; a first block has parent 0. -/
theorem HashInjective.previous (h : HashInjective stdHash conversations) {k k' : κ} {n n' : Nat}
    {chunk chunk' : PromptChunk}
    (hc : EmittedFor stdHash kvBuffer (addedTokens (conversations k)) n chunk)
    (hc' : EmittedFor stdHash kvBuffer (addedTokens (conversations k')) n' chunk')
    (hparent : chunk.parentHash = chunk'.hash) :
    0 < n ∧ blockTokens (addedTokens (conversations k)) (n - 1) = chunk'.tokens ∨
      n = 0 ∧ chunk'.hash = 0 := by
  rw [hc.parentHash_eq] at hparent
  cases n with
  | zero => exact Or.inr ⟨rfl, hparent.symm⟩
  | succ n =>
    refine Or.inl ⟨n.succ_pos, ?_⟩
    rw [hc'.hash_eq] at hparent
    rw [hc'.tokens_eq]
    refine h ?_ hc'.full hparent
    exact (Nat.mul_le_mul_right _ (Nat.le_succ _)).trans hc.full

variable [DecidableEq ι] [Base64Url] {tr : List (System ι × Event ι)} {s : System ι}

/-- At rest, after a run without storage errors, every entry of a window is staged. -/
theorem Runs.dense (h : Runs noFaults calls Container.empty tr s) (hq : Quiescent s) :
    ∃ j, Refines calls j s ∧ Journal.Inv (protocol calls) j ∧
      Journal.Dense (protocol calls) j := by
  have hrun := Refines.run (fun _ j => Journal.Covered (protocol calls) j) (fun hf => hf.elim)
    (Refines.initial calls) (Journal.Inv.initial _) (Journal.Covered.initial _) ?_ h
  · obtain ⟨j, hr, hinv, hcov⟩ := hrun
    refine ⟨j, hr, hinv, hcov.dense fun i r k hp => ?_⟩
    rcases hr.phase_of_quiescent hq i with hp' | ⟨o, hp'⟩ <;> cases hp.symm.trans hp'
  · rintro tr s e s' j j' served - hinv hcov - horigin hj -
    rcases horigin with ⟨rfl, -⟩ | ⟨-, status, hF, -⟩
    · exact hcov.step hinv hj
    · exact hF.elim

/-- After any run without storage errors, the location that `Lookup` returns for block `i` reads a
buffer that was written for a prefix of a conversation. The last block of the prefix is block `i`,
and the block before it is block `i - 1`; a prefix of one block can follow a version whose hash
is 0. -/
theorem lookup_reads_lastBlocks (h : Runs noFaults calls Container.empty tr s) (hq : Quiescent s)
    (hwrites : WritesConversations stdHash kvBuffer conversations calls)
    (hinj : HashInjective stdHash conversations) (hfit : TokensFit conversations)
    {tokens : List Token} (htokens : ∀ token ∈ tokens, Token32 token)
    (precomputedHashes : List Hash) :
    ∃ result, lookup s.store tokens precomputedHashes = .ok result ∧
      ∀ i loc, result.locations[i]? = some loc →
        ∃ k n chunk, (n + 1) * blockSize ≤ (addedTokens (conversations k)).length ∧
          readAsync s.store loc.location = .ok (true, chunk) ∧
          chunk.buffer = kvBuffer ((addedTokens (conversations k)).take ((n + 1) * blockSize)) ∧
          blockTokens (addedTokens (conversations k)) n = blockTokens tokens i ∧
          (i = 0 ∨
            0 < n ∧ blockTokens (addedTokens (conversations k)) (n - 1) =
              blockTokens tokens (i - 1) ∨
            n = 0 ∧ ∃ previous, result.locations[i - 1]? = some previous ∧ previous.hash = 0) := by
  obtain ⟨j, hr, hinv, hd⟩ := Runs.dense h hq
  obtain ⟨result, hlookup⟩ := hr.lookup_ok tokens precomputedHashes
  refine ⟨result, hlookup, fun i loc hi => ?_⟩
  obtain ⟨v, -, hloc, hcase⟩ := lookup_takes hlookup i loc hi
  have hv : Records s.store (encodeTokensToBlobName (blockTokens tokens i)) v := by
    rcases hcase with ⟨-, hdefault⟩ | ⟨_, -, -, htakes⟩
    · exact Or.inl hdefault
    · exact htakes.records
  obtain ⟨a, hslot, -, hparent, hread⟩ := hr.records hinv hd hv
  obtain ⟨k, n, hn⟩ := hwrites.emittedFor a
  -- a version is recorded under the name of its own block
  have hblock : blockTokens (addedTokens (conversations k)) n = blockTokens tokens i := by
    apply blockTokens_eq (hfit k) htokens
    rw [← hn.tokens_eq]
    exact hslot
  refine ⟨k, n, _, hn.full, hloc ▸ hread, ?_, hblock, ?_⟩
  · exact hn.buffer_eq
  rcases hcase with ⟨h0, -⟩ | ⟨previous, hpos, hprev, htakes⟩
  · exact Or.inl h0
  · obtain ⟨v', hv', hhash', -⟩ := lookup_records hlookup hprev
    obtain ⟨a', hslot', hvh', -, -⟩ := hr.records hinv hd hv'
    obtain ⟨k', n', hn'⟩ := hwrites.emittedFor a'
    have hchain : (calls.call a).chunk.parentHash = (calls.call a').chunk.hash := by
      rw [← hparent, htakes.parentHash, ← hhash', hvh']
    rcases hinj.previous hn hn' hchain with ⟨hnpos, hprevious⟩ | ⟨hn0, hzero⟩
    · refine Or.inr (Or.inl ⟨hnpos, ?_⟩)
      rw [hprevious, hn'.tokens_eq]
      apply blockTokens_eq (hfit k') htokens
      rw [← hn'.tokens_eq]
      exact hslot'
    · exact Or.inr (Or.inr ⟨hn0, previous, hprev, by rw [← hhash', hvh', hzero]⟩)

end

/-! ## Two conversations that share blocks -/

section

attribute [local instance] Base64Url.unpadded

def uniformBlock (token : Token) : List Token := List.replicate blockSize token

theorem uniformBlock_token32 (token : Token) (h : Token32 token) :
    ∀ t ∈ uniformBlock token, Token32 t := by
  intro t ht
  rwa [List.eq_of_mem_replicate ht]

/-- A buffer that shows where its prefix starts and how long it is. -/
def prefixBuffer (tokens : List Token) : List UInt8 :=
  let first := (tokens.headD 0).toUInt64
  [first.toUInt8, (first >>> 32).toUInt8, UInt8.ofNat (tokens.length / blockSize)]

/-- The calls of two conversations of `n` blocks each, the first one before the second one. -/
def blockCalls (conversations : Bool → List ConversationOp) (n : Nat) : Calls UInt64 :=
  numberedCalls fun i =>
    ((emitted Int64.toUInt64 prefixBuffer (conversations (n ≤ i.toNat))).getD (i.toNat % n)
      .empty).toProtoChunk

theorem blockCalls_writes {conversations : Bool → List ConversationOp} {n : Nat} (hn : 0 < n)
    (hlen : ∀ k, (emitted Int64.toUInt64 prefixBuffer (conversations k)).length = n) :
    WritesConversations Int64.toUInt64 prefixBuffer conversations (blockCalls conversations n) := by
  intro i
  refine ⟨decide (n ≤ i.toNat),
    (emitted Int64.toUInt64 prefixBuffer (conversations (n ≤ i.toNat))).getD (i.toNat % n) .empty,
    ?_, rfl⟩
  have hlt : i.toNat % n <
      (emitted Int64.toUInt64 prefixBuffer (conversations (n ≤ i.toNat))).length := by
    rw [hlen]
    exact Nat.mod_lt _ hn
  rw [List.getD_eq_getElem _ _ hlt]
  exact List.getElem_mem hlt

theorem hashInjective_of_lt {conversations : Bool → List ConversationOp} {N : Nat}
    (hlen : ∀ k, (addedTokens (conversations k)).length = N * blockSize)
    (hall : ∀ k k' : Bool, ∀ n < N, ∀ n' < N,
      combinedHash Int64.toUInt64 (blockTokens (addedTokens (conversations k)) n) =
        combinedHash Int64.toUInt64 (blockTokens (addedTokens (conversations k')) n') →
      blockTokens (addedTokens (conversations k)) n =
        blockTokens (addedTokens (conversations k')) n') :
    HashInjective Int64.toUInt64 conversations := by
  intro k n k' n' hn hn'
  rw [hlen] at hn hn'
  have hpos : 0 < blockSize := by decide
  exact hall k k' n (Nat.le_of_mul_le_mul_right hn hpos) n' (Nat.le_of_mul_le_mul_right hn' hpos)

/-- The first conversation has the blocks 1, 2, 3, the second one the blocks 4, 2, 3. -/
def sharingConversations : Bool → List ConversationOp
  | false =>
    [.addTokens (uniformBlock 1 ++ uniformBlock 2), .flush [] [],
      .addTokens (uniformBlock 3), .flush [] []]
  | true => [.addTokens (uniformBlock 4 ++ uniformBlock 2 ++ uniformBlock 3), .flush [] []]

def sharingCalls : Calls UInt64 := blockCalls sharingConversations 3

/-- The calls run one after the other. -/
def sharingRun : List (System UInt64 × Event UInt64) × System UInt64 :=
  execute sharingCalls (served [0, 1, 2, 3, 4, 4, 4, 4, 5, 5]) (System.initial Container.empty)

theorem sharingRun_run :
    Runs noFaults sharingCalls Container.empty sharingRun.1 sharingRun.2 :=
  served_run _ _

theorem sharingRun_quiescent : Quiescent sharingRun.2 :=
  execute_quiescent (by decide +kernel)

theorem sharingCalls_writes :
    WritesConversations Int64.toUInt64 prefixBuffer sharingConversations sharingCalls :=
  blockCalls_writes (by decide) (by decide +kernel)

theorem sharing_hashInjective : HashInjective Int64.toUInt64 sharingConversations :=
  hashInjective_of_lt (N := 3) (by decide +kernel) (by decide +kernel)

theorem sharing_tokensFit : TokensFit sharingConversations := by
  have hone := uniformBlock_token32 1 ⟨by decide, by decide⟩
  have htwo := uniformBlock_token32 2 ⟨by decide, by decide⟩
  have hthree := uniformBlock_token32 3 ⟨by decide, by decide⟩
  have hfour := uniformBlock_token32 4 ⟨by decide, by decide⟩
  intro k token ht
  cases k <;> simp only [addedTokens, sharingConversations, List.flatMap_cons, List.flatMap_nil,
    List.mem_append, List.not_mem_nil, or_false, false_or] at ht
  · rcases ht with (ht | ht) | ht
    exacts [hone token ht, htwo token ht, hthree token ht]
  · rcases ht with (ht | ht) | ht
    exacts [hfour token ht, htwo token ht, hthree token ht]

theorem lookup_reads_lastBlocks_sharing :
    ∃ result, lookup sharingRun.2.store (addedTokens (sharingConversations true)) [] = .ok result ∧
      ∀ loc, result.locations[2]? = some loc →
        ∃ k n chunk, (n + 1) * blockSize ≤ (addedTokens (sharingConversations k)).length ∧
          readAsync sharingRun.2.store loc.location = .ok (true, chunk) ∧
          chunk.buffer =
            prefixBuffer ((addedTokens (sharingConversations k)).take ((n + 1) * blockSize)) ∧
          blockTokens (addedTokens (sharingConversations k)) n =
            blockTokens (addedTokens (sharingConversations true)) 2 := by
  obtain ⟨result, hlookup, hall⟩ := lookup_reads_lastBlocks sharingRun_run sharingRun_quiescent
    sharingCalls_writes sharing_hashInjective sharing_tokensFit (sharing_tokensFit true) []
  refine ⟨result, hlookup, fun loc hloc => ?_⟩
  obtain ⟨k, n, chunk, hle, hread, hbuffer, hblock, -⟩ := hall 2 loc hloc
  exact ⟨k, n, chunk, hle, hread, hbuffer, hblock⟩

/-- The buffers that a reader gets: those of the locations that `Lookup` returns. -/
def servedBuffers (c : Container) (tokens : List Token) :
    Except StdError (List (List UInt8)) := do
  let result ← lookup c tokens []
  result.locations.mapM fun loc => return (← readAsync c loc.location).2.buffer

/-- The buffers of the prefixes of a sequence, one for each full block. -/
def prefixBuffers (tokens : List Token) : List (List UInt8) :=
  (List.range (tokens.length / blockSize)).map fun i =>
    prefixBuffer (tokens.take ((i + 1) * blockSize))

/-- A run in which a prefix of `tokens` is served the buffer of another one. -/
def ServesOtherPrefix (conversations : Bool → List ConversationOp) (calls : Calls UInt64)
    (tokens : List Token) (buffers : List (List UInt8)) : Prop :=
  ∃ tr s, Runs noFaults calls Container.empty tr s ∧ Quiescent s ∧
    WritesConversations Int64.toUInt64 prefixBuffer conversations calls ∧
    HashInjective Int64.toUInt64 conversations ∧ TokensFit conversations ∧
    (∀ token ∈ tokens, Token32 token) ∧
    servedBuffers s.store tokens = .ok buffers ∧ ¬ buffers <+: prefixBuffers tokens

/-- Two conversations of one block each; the first block has hash 0. -/
def zeroConversations : Bool → List ConversationOp
  | false => [.addTokens (uniformBlock 0), .flush [] []]
  | true => [.addTokens (uniformBlock 5), .flush [] []]

def zeroCalls : Calls UInt64 := blockCalls zeroConversations 1

def zeroRun : List (System UInt64 × Event UInt64) × System UInt64 :=
  execute zeroCalls (served [0, 1]) (System.initial Container.empty)

theorem zeroRun_run : Runs noFaults zeroCalls Container.empty zeroRun.1 zeroRun.2 :=
  served_run _ _

theorem zeroRun_quiescent : Quiescent zeroRun.2 := execute_quiescent (by decide +kernel)

theorem zeroCalls_writes :
    WritesConversations Int64.toUInt64 prefixBuffer zeroConversations zeroCalls :=
  blockCalls_writes (by decide) (by decide +kernel)

theorem zero_hashInjective : HashInjective Int64.toUInt64 zeroConversations :=
  hashInjective_of_lt (N := 1) (by decide +kernel) (by decide +kernel)

theorem zeroBlock_token32 : ∀ token ∈ uniformBlock 0, Token32 token :=
  uniformBlock_token32 0 ⟨by decide, by decide⟩

theorem fiveBlock_token32 : ∀ token ∈ uniformBlock 5, Token32 token :=
  uniformBlock_token32 5 ⟨by decide, by decide⟩

theorem zero_tokensFit : TokensFit zeroConversations := by
  intro k
  cases k with
  | false => exact List.forall_mem_append.mpr ⟨zeroBlock_token32, List.forall_mem_nil _⟩
  | true => exact List.forall_mem_append.mpr ⟨fiveBlock_token32, List.forall_mem_nil _⟩

theorem servedBuffers_third :
    servedBuffers sharingRun.2.store (addedTokens (sharingConversations true)) =
      .ok [[4, 0, 1], [4, 0, 2], [1, 0, 3]] := by decide +kernel

theorem servedBuffers_inner :
    servedBuffers sharingRun.2.store (uniformBlock 2) = .ok [[1, 0, 2]] := by decide +kernel

theorem servedBuffers_zero :
    servedBuffers zeroRun.2.store (uniformBlock 0 ++ uniformBlock 5) =
      .ok [[0, 0, 1], [5, 0, 1]] := by decide +kernel

/-- The second conversation reads the buffer that the first one wrote for its third block; a
sequence that starts with block 2 reads the buffer for the blocks 1 and 2; and behind the block with
hash 0, block 5 is read with the buffer that was written for it alone. -/
theorem lookup_reads_otherPrefixes :
    ServesOtherPrefix sharingConversations sharingCalls (addedTokens (sharingConversations true))
        [[4, 0, 1], [4, 0, 2], [1, 0, 3]] ∧
      ServesOtherPrefix sharingConversations sharingCalls (uniformBlock 2) [[1, 0, 2]] ∧
      ServesOtherPrefix zeroConversations zeroCalls (uniformBlock 0 ++ uniformBlock 5)
        [[0, 0, 1], [5, 0, 1]] := by
  have htwo : ∀ token ∈ uniformBlock 2, Token32 token :=
    uniformBlock_token32 2 ⟨by decide, by decide⟩
  have hzero : ∀ token ∈ uniformBlock 0 ++ uniformBlock 5, Token32 token :=
    List.forall_mem_append.mpr ⟨zeroBlock_token32, fiveBlock_token32⟩
  refine ⟨?_, ?_, ?_⟩
  · exact ⟨_, _, sharingRun_run, sharingRun_quiescent, sharingCalls_writes, sharing_hashInjective,
      sharing_tokensFit, sharing_tokensFit true, servedBuffers_third, by decide +kernel⟩
  · exact ⟨_, _, sharingRun_run, sharingRun_quiescent, sharingCalls_writes, sharing_hashInjective,
      sharing_tokensFit, htwo, servedBuffers_inner, by decide +kernel⟩
  · exact ⟨_, _, zeroRun_run, zeroRun_quiescent, zeroCalls_writes, zero_hashInjective,
      zero_tokensFit, hzero, servedBuffers_zero, by decide +kernel⟩

end

end KVStore
