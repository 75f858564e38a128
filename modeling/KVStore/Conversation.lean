import KVStore.TokenBuffer

/-!
# A conversation of the playground (`runConversation`)

Each turn appends the tokens of a prompt and those of a response to the conversation and adds them
to the token buffer. As long as nothing has been written, the turn first asks `Lookup` for the
tokens so far; the blocks that are found count as written. Writes do not fail.

`runConversation_inStep_iff`: the buffer holds the conversation after every turn exactly when no
lookup but that of the first turn finds a block; the blocks written then are those that a run
without any hit writes after the ones found.
-/

namespace KVStore

open TokenBufferManager

/-! ## The turn loop -/

/-- The tokens of an agent's response. -/
def generateSyntheticResponse (uniqueRunId : UInt64) (threadId turnNumber : Nat)
    (baseResponseSize : Nat := 50) : List Token :=
  let high := ((uniqueRunId >>> 32) &&& 0xFFFFFFFF).toInt64
  let low := (uniqueRunId &&& 0xFFFFFFFF).toInt64
  let token (i : Nat) : Token :=
    Int64.ofNat (1000 + i) +
      if i % 5 = 0 then ((uniqueRunId >>> 16) &&& 0xFFFF).toInt64
      else if i % 5 = 1 then ((uniqueRunId >>> 8) &&& 0xFFFF).toInt64
      else if i % 5 = 2 then Int64.ofNat (turnNumber * 10) + (uniqueRunId &&& 0xFF).toInt64
      else if i % 5 = 3 then ((uniqueRunId >>> 24) &&& 0xFF).toInt64 * 7
      else Int64.ofNat ((turnNumber + i) * 3) + ((uniqueRunId >>> 12) &&& 0xF).toInt64
  [high, low, Int64.ofNat (20000 + threadId), Int64.ofNat (30000 + turnNumber)] ++
    (List.range (baseResponseSize - 8)).map token ++
    [Int64.ofNat (40000 + turnNumber), Int64.ofNat (50000 + threadId), low, high]

/-- The tokens of a prompt, and what `Lookup` answers if the turn asks it. -/
structure Turn where
  tokens : List Token
  lookupResult : LookupResult := {}

/-- A conversation, with the blocks it has taken from the cache and the chunks it has handed to
`WriteAsync`. -/
structure Conversation where
  bufferManager : TokenBufferManager := {}
  conversationTokens : List Token := []
  turnNumber : Nat := 0
  cachedBlocks : Nat := 0
  written : List PromptChunk := []

/-- The tokens that a lookup has found, computed as an `int` of 32 bits. -/
def LookupResult.matchedLength (result : LookupResult) : Int :=
  Int.bmod (result.cachedBlocks * 128) 4294967296

namespace Conversation

variable (stdHash : Token → Hash) (kvBuffer : List Token → List UInt8)
  (uniqueRunId runId : UInt64)

/-- The hashes of the full blocks. -/
def lookupHashes (conversationTokens : List Token) : List Hash :=
  (List.range (conversationTokens.length / 128)).map fun blockNum =>
    combinedHash stdHash (blockTokens conversationTokens blockNum)

/-- Only a conversation that has written nothing asks. -/
def AsksCache (c : Conversation) : Prop :=
  c.bufferManager.totalTokensWritten = 0 ∧ 128 ≤ c.conversationTokens.length

instance (c : Conversation) : Decidable c.AsksCache := inferInstanceAs (Decidable (_ ∧ _))

/-- What is cached counts as processed and written. -/
def checkCache (c : Conversation) (result : LookupResult) : Conversation :=
  if c.AsksCache ∧ 0 < result.matchedLength then
    let cachedTokenCount := result.matchedLength.toNat
    let totalTokensWritten := cachedTokenCount / 128 * 128
    let numCachedBlocks := totalTokensWritten / 128
    { c with
      bufferManager := { c.bufferManager with
        totalTokensProcessed := cachedTokenCount
        totalTokensWritten
        allWrittenTokens := c.bufferManager.allWrittenTokens ++
          c.conversationTokens.take totalTokensWritten
        writtenBlockHashes := c.bufferManager.writtenBlockHashes ++
          (lookupHashes stdHash c.conversationTokens).take numCachedBlocks
        lastWrittenHash := result.lastHash }
      cachedBlocks := c.cachedBlocks + numCachedBlocks }
  else c

def partitionKey : Text := "playground_session_run".toList ++ toText uniqueRunId

def completionId : Text := toText runId

/-- The tokens that the buffer has not processed are added, and the complete blocks are written. -/
def addNewTokens (c : Conversation) : Conversation :=
  if c.bufferManager.totalTokensProcessed < c.conversationTokens.length then
    let newTokens := c.conversationTokens.drop c.bufferManager.totalTokensProcessed
    let m := c.bufferManager.addTokens newTokens
    if 0 < m.completedBlocks.length then
      let (chunks, m) := m.flushCompletedBlocks stdHash kvBuffer (partitionKey uniqueRunId)
        (completionId runId) true
      { c with bufferManager := m, written := c.written ++ chunks }
    else { c with bufferManager := m }
  else c

def append (c : Conversation) (tokens : List Token) : Conversation :=
  { c with conversationTokens := c.conversationTokens ++ tokens }

/-- One turn of `runConversation`. -/
def turn (c : Conversation) (t : Turn) : Conversation :=
  let c := { c with turnNumber := c.turnNumber + 1 }
  let c := (c.append t.tokens).checkCache stdHash t.lookupResult
  let c := c.addNewTokens stdHash kvBuffer uniqueRunId runId
  let c := c.append (generateSyntheticResponse uniqueRunId 0 c.turnNumber)
  c.addNewTokens stdHash kvBuffer uniqueRunId runId

end Conversation

def runConversation (stdHash : Token → Hash) (kvBuffer : List Token → List UInt8)
    (uniqueRunId runId : UInt64) (turns : List Turn) : Conversation :=
  turns.foldl (Conversation.turn stdHash kvBuffer uniqueRunId runId) {}

/-! ## What the buffer holds -/

section

variable {stdHash : Token → Hash} {kvBuffer : List Token → List UInt8}

theorem TokenBufferManager.flushLoop_contents {partitionKey completionId : Text} :
    ∀ {blocks : List (List Token)} {parent : Hash} {m m' : TokenBufferManager}
      {chunks : List PromptChunk},
      flushLoop stdHash kvBuffer partitionKey completionId blocks parent m = (chunks, m') →
      m'.allWrittenTokens = m.allWrittenTokens ++ blocks.flatten ∧
        m'.currentBlock = m.currentBlock ∧ m'.totalTokensProcessed = m.totalTokensProcessed ∧
        m'.totalTokensWritten = m.totalTokensWritten + blocks.length * blockSize := by
  intro blocks
  induction blocks with
  | nil =>
    intro parent m m' chunks h
    cases h
    exact ⟨(List.append_nil _).symm, rfl, rfl, (by rw [List.length_nil, Nat.zero_mul]; rfl)⟩
  | cons block blocks ih =>
    intro parent m m' chunks h
    rw [flushLoop] at h
    split at h
    next chunks₁ m₁ hrest =>
    cases h
    obtain ⟨hall, hcurrent, hprocessed, hwritten⟩ := ih hrest
    refine ⟨?_, hcurrent, hprocessed, ?_⟩
    · rw [hall, List.flatten_cons, List.append_assoc]
    · rw [hwritten, List.length_cons, Nat.succ_mul]
      dsimp only
      omega

/-- A flush that succeeds moves the pending blocks to those written. -/
theorem TokenBufferManager.flush_contents {partitionKey completionId : Text}
    {m m' : TokenBufferManager} {chunks : List PromptChunk}
    (h : m.flushCompletedBlocks stdHash kvBuffer partitionKey completionId true = (chunks, m')) :
    m'.allWrittenTokens = m.allWrittenTokens ++ m.completedBlocks.flatten ∧
      m'.completedBlocks = [] ∧ m'.currentBlock = m.currentBlock ∧
      m'.totalTokensProcessed = m.totalTokensProcessed ∧
      m'.totalTokensWritten = m.totalTokensWritten + m.completedBlocks.length * blockSize := by
  unfold flushCompletedBlocks at h
  split at h
  · next hnone =>
    cases h
    simp [hnone]
  · split at h
    next chunks₁ m₁ hloop =>
    cases h
    obtain ⟨hall, hcurrent, hprocessed, hwritten⟩ := flushLoop_contents hloop
    exact ⟨hall, rfl, hcurrent, hprocessed, hwritten⟩

/-- A flush that succeeds changes nothing in what the buffer holds. -/
theorem TokenBufferManager.Blocked.flush {partitionKey completionId : Text}
    {m m' : TokenBufferManager} {chunks : List PromptChunk} (hm : m.Blocked)
    (hwritten : m.totalTokensWritten = m.allWrittenTokens.length)
    (h : m.flushCompletedBlocks stdHash kvBuffer partitionKey completionId true = (chunks, m')) :
    m'.contents = m.contents ∧ m'.totalTokensWritten = m'.allWrittenTokens.length := by
  obtain ⟨hall, hpending, hblock, -, htotal⟩ := flush_contents h
  constructor
  · unfold contents
    rw [hall, hpending, hblock, List.append_assoc]
    rfl
  · rw [htotal, hall, List.length_append, hwritten, hm.length_flatten]

end

namespace Conversation

variable {stdHash : Token → Hash} {kvBuffer : List Token → List UInt8} {uniqueRunId runId : UInt64}
  {c : Conversation} {t : Turn}

/-- A conversation between two steps of a turn: no block is pending, and the counters are right
about what is written. -/
structure Flushed (c : Conversation) : Prop where
  pending : c.bufferManager.completedBlocks = []
  current : c.bufferManager.currentBlock.length < blockSize
  written : c.bufferManager.totalTokensWritten = c.bufferManager.allWrittenTokens.length
  processed : c.bufferManager.totalTokensProcessed ≤ c.conversationTokens.length

theorem Flushed.blocked (h : c.Flushed) : c.bufferManager.Blocked where
  complete block hblock := by
    rw [h.pending] at hblock
    cases hblock
  current := h.current

/-- Adding tokens changes the buffer and what is written, and nothing else. -/
theorem addNewTokens_frame (c : Conversation) :
    ∃ bufferManager written, c.addNewTokens stdHash kvBuffer uniqueRunId runId =
      { c with bufferManager, written } := by
  unfold addNewTokens
  dsimp only
  split
  · split <;> exact ⟨_, _, rfl⟩
  · exact ⟨_, _, rfl⟩

@[simp] theorem addNewTokens_conversationTokens (c : Conversation) :
    (c.addNewTokens stdHash kvBuffer uniqueRunId runId).conversationTokens =
      c.conversationTokens := by
  obtain ⟨bufferManager, written, he⟩ := c.addNewTokens_frame
  rw [he]

@[simp] theorem addNewTokens_turnNumber (c : Conversation) :
    (c.addNewTokens stdHash kvBuffer uniqueRunId runId).turnNumber = c.turnNumber := by
  obtain ⟨bufferManager, written, he⟩ := c.addNewTokens_frame
  rw [he]

@[simp] theorem addNewTokens_cachedBlocks (c : Conversation) :
    (c.addNewTokens stdHash kvBuffer uniqueRunId runId).cachedBlocks = c.cachedBlocks := by
  obtain ⟨bufferManager, written, he⟩ := c.addNewTokens_frame
  rw [he]

variable (stdHash kvBuffer uniqueRunId runId) in
/-- Adding the new tokens leaves none to be added, and changes nothing else in what is held. -/
theorem Flushed.addNewTokens (h : c.Flushed) :
    (c.addNewTokens stdHash kvBuffer uniqueRunId runId).Flushed ∧
      (c.addNewTokens stdHash kvBuffer uniqueRunId runId).bufferManager.contents =
        c.bufferManager.contents ++
          c.conversationTokens.drop c.bufferManager.totalTokensProcessed ∧
      (c.addNewTokens stdHash kvBuffer uniqueRunId runId).bufferManager.totalTokensProcessed =
        c.conversationTokens.length := by
  have hprocessed := h.processed
  unfold Conversation.addNewTokens
  split
  · generalize hnew : c.conversationTokens.drop c.bufferManager.totalTokensProcessed = new
    have hcount : c.bufferManager.totalTokensProcessed + new.length =
        c.conversationTokens.length := by
      rw [← hnew, List.length_drop]
      omega
    obtain ⟨hprocessed', hwritten', hall', -⟩ := c.bufferManager.addTokens_written new
    obtain ⟨hcomplete, hcurrent⟩ := h.blocked.addTokens new
    have hcontents := c.bufferManager.contents_addTokens new
    have hwritten : (c.bufferManager.addTokens new).totalTokensWritten =
        (c.bufferManager.addTokens new).allWrittenTokens.length := by
      rw [hwritten', hall', h.written]
    rw [hcount] at hprocessed'
    dsimp only
    split
    · generalize c.bufferManager.addTokens new = m at *
      rcases hflush : m.flushCompletedBlocks stdHash kvBuffer (partitionKey uniqueRunId)
        (completionId runId) true with ⟨chunks, m'⟩
      obtain ⟨-, hpending, hblock, hsame, -⟩ := flush_contents hflush
      obtain ⟨hcontents', hwritten'⟩ := Blocked.flush ⟨hcomplete, hcurrent⟩ hwritten hflush
      refine ⟨⟨hpending, ?_, hwritten', (hsame.trans hprocessed').le⟩,
        hcontents'.trans hcontents, hsame.trans hprocessed'⟩
      show m'.currentBlock.length < blockSize
      rwa [hblock]
    · next hnone =>
      refine ⟨⟨?_, hcurrent, hwritten, hprocessed'.le⟩, hcontents, hprocessed'⟩
      exact List.length_eq_zero_iff.mp (Nat.eq_zero_of_not_pos hnone)
  · next hle =>
    have heq : c.bufferManager.totalTokensProcessed = c.conversationTokens.length := by omega
    refine ⟨h, ?_, heq⟩
    rw [heq, List.drop_length, List.append_nil]

/-! ## Lookups -/

theorem matchedLength_pos {result : LookupResult} (h : 0 < result.matchedLength) :
    ∃ k, 0 < k ∧ k ≤ result.cachedBlocks ∧ result.matchedLength = ((k * 128 : Nat) : Int) := by
  unfold LookupResult.matchedLength at h ⊢
  rw [Int.bmod_def] at h ⊢
  refine ⟨result.cachedBlocks % 33554432, ?_⟩
  split at h <;> omega

theorem matchedLength_eq {result : LookupResult} (h : result.cachedBlocks * 128 < 2147483648) :
    result.matchedLength = ((result.cachedBlocks * 128 : Nat) : Int) := by
  unfold LookupResult.matchedLength
  rw [Int.bmod_def]
  split <;> omega

/-- The turn asks for its tokens and finds some. -/
def Hits (c : Conversation) (t : Turn) : Prop :=
  (c.append t.tokens).AsksCache ∧ 0 < t.lookupResult.matchedLength

instance (c : Conversation) (t : Turn) : Decidable (c.Hits t) := inferInstanceAs (Decidable (_ ∧ _))

/-- The conversation once the answer to its lookup has been taken into account. -/
def asked (stdHash : Token → Hash) (c : Conversation) (t : Turn) : Conversation :=
  ({ c with turnNumber := c.turnNumber + 1 }.append t.tokens).checkCache stdHash t.lookupResult

theorem turn_eq (c : Conversation) (t : Turn) :
    c.turn stdHash kvBuffer uniqueRunId runId t =
      (((c.asked stdHash t).addNewTokens stdHash kvBuffer uniqueRunId runId).append
        (generateSyntheticResponse uniqueRunId 0 (c.asked stdHash t).turnNumber)).addNewTokens
          stdHash kvBuffer uniqueRunId runId := by
  unfold turn asked
  dsimp only
  rw [addNewTokens_turnNumber]

theorem asked_of_not_hits (h : ¬ c.Hits t) :
    c.asked stdHash t = { c with
      turnNumber := c.turnNumber + 1
      conversationTokens := c.conversationTokens ++ t.tokens } :=
  if_neg h

theorem asked_of_hits {k : Nat} (h : c.Hits t)
    (hk : t.lookupResult.matchedLength = ((k * 128 : Nat) : Int)) :
    c.asked stdHash t = { c with
      turnNumber := c.turnNumber + 1
      conversationTokens := c.conversationTokens ++ t.tokens
      bufferManager := { c.bufferManager with
        totalTokensProcessed := k * 128
        totalTokensWritten := k * 128
        allWrittenTokens := c.bufferManager.allWrittenTokens ++
          (c.conversationTokens ++ t.tokens).take (k * 128)
        writtenBlockHashes := c.bufferManager.writtenBlockHashes ++
          (lookupHashes stdHash (c.conversationTokens ++ t.tokens)).take k
        lastWrittenHash := t.lookupResult.lastHash }
      cachedBlocks := c.cachedBlocks + k } := by
  have hdiv : k * 128 / 128 = k := Nat.mul_div_cancel k (by decide)
  apply (if_pos h).trans
  simp only [hk, Int.toNat_natCast, hdiv]
  rfl

@[simp] theorem asked_conversationTokens (stdHash : Token → Hash) (c : Conversation) (t : Turn) :
    (c.asked stdHash t).conversationTokens = c.conversationTokens ++ t.tokens := by
  unfold asked checkCache
  split <;> rfl

@[simp] theorem asked_turnNumber (stdHash : Token → Hash) (c : Conversation) (t : Turn) :
    (c.asked stdHash t).turnNumber = c.turnNumber + 1 := by
  unfold asked checkCache
  split <;> rfl

variable (stdHash kvBuffer uniqueRunId runId) in
/-- The tokens of a conversation do not depend on the answers to its lookups. -/
theorem turn_conversationTokens (c : Conversation) (t : Turn) :
    (c.turn stdHash kvBuffer uniqueRunId runId t).conversationTokens =
      c.conversationTokens ++ t.tokens ++
        generateSyntheticResponse uniqueRunId 0 (c.turnNumber + 1) := by
  rw [turn_eq, addNewTokens_conversationTokens, asked_turnNumber]
  unfold append
  dsimp only
  rw [addNewTokens_conversationTokens, asked_conversationTokens]

theorem turn_turnNumber (c : Conversation) (t : Turn) :
    (c.turn stdHash kvBuffer uniqueRunId runId t).turnNumber = c.turnNumber + 1 := by
  rw [turn_eq, addNewTokens_turnNumber, ← asked_turnNumber stdHash c t]
  exact addNewTokens_turnNumber _

/-! ## The buffer and the conversation -/

/-- A conversation after a turn, with a buffer that holds it. -/
structure InStep (c : Conversation) : Prop extends Flushed c where
  added : c.bufferManager.totalTokensProcessed = c.conversationTokens.length
  contents : c.bufferManager.contents = c.conversationTokens

theorem InStep.initial : InStep {} where
  pending := rfl
  current := by decide
  written := rfl
  processed := le_rfl
  added := rfl
  contents := rfl

/-- The number of blocks that the answer to a lookup may report. -/
def ValidAnswer (c : Conversation) (t : Turn) : Prop :=
  t.lookupResult.cachedBlocks ≤ (c.conversationTokens ++ t.tokens).length / 128

variable (stdHash) in
/-- On a hit, what the current block holds from earlier turns comes after the tokens found. -/
theorem InStep.asked (h : c.InStep) (hvalid : c.ValidAnswer t) :
    (c.asked stdHash t).Flushed ∧
      (c.asked stdHash t).bufferManager.contents =
        (c.conversationTokens ++ t.tokens).take
            (c.asked stdHash t).bufferManager.totalTokensProcessed ++
          if c.Hits t then c.conversationTokens else [] := by
  by_cases hhit : c.Hits t
  · obtain ⟨k, hpos, hle, hk⟩ := matchedLength_pos hhit.2
    have hfit : k * 128 ≤ (c.conversationTokens ++ t.tokens).length := by
      have := hle.trans hvalid
      omega
    have hnone : c.bufferManager.allWrittenTokens = [] := by
      have hzero : c.bufferManager.totalTokensWritten = 0 := hhit.1.1
      rw [h.written] at hzero
      exact List.length_eq_zero_iff.mp hzero
    have hcontents : c.bufferManager.currentBlock = c.conversationTokens := by
      have hall := h.contents
      unfold TokenBufferManager.contents at hall
      rwa [hnone, h.pending] at hall
    rw [asked_of_hits hhit hk, if_pos hhit]
    refine ⟨⟨h.pending, h.current, ?_, hfit⟩, ?_⟩
    · show k * 128 = (c.bufferManager.allWrittenTokens ++ _).length
      rw [hnone, List.nil_append, List.length_take, Nat.min_eq_left hfit]
    · unfold TokenBufferManager.contents
      dsimp only
      rw [hnone, h.pending, hcontents]
      rfl
  · rw [asked_of_not_hits hhit, if_neg hhit, List.append_nil]
    refine ⟨⟨h.pending, h.current, h.written, ?_⟩, ?_⟩
    · show c.bufferManager.totalTokensProcessed ≤ (c.conversationTokens ++ t.tokens).length
      rw [h.added, List.length_append]
      exact Nat.le_add_right _ _
    · show c.bufferManager.contents = List.take c.bufferManager.totalTokensProcessed _
      rw [h.added, List.take_left]
      exact h.contents

theorem take_append_drop_iff {α : Type} (l extra new : List α) (n : Nat) :
    l.take n ++ (extra ++ (l.drop n ++ new)) = l ++ new ↔ extra = [] := by
  constructor
  · intro h
    have hlength := congrArg List.length h
    simp only [List.length_append, List.length_take, List.length_drop] at hlength
    exact List.length_eq_zero_iff.mp (by omega)
  · rintro rfl
    rw [List.nil_append, ← List.append_assoc, List.take_append_drop]

variable (stdHash kvBuffer uniqueRunId runId) in
/-- What the buffer holds after a turn. -/
theorem InStep.turn_contents (h : c.InStep) (hvalid : c.ValidAnswer t) :
    (c.turn stdHash kvBuffer uniqueRunId runId t).Flushed ∧
      (c.turn stdHash kvBuffer uniqueRunId runId t).bufferManager.totalTokensProcessed =
        (c.turn stdHash kvBuffer uniqueRunId runId t).conversationTokens.length ∧
      ∃ n, (c.turn stdHash kvBuffer uniqueRunId runId t).bufferManager.contents =
        (c.conversationTokens ++ t.tokens).take n ++
          ((if c.Hits t then c.conversationTokens else []) ++
            ((c.conversationTokens ++ t.tokens).drop n ++
              generateSyntheticResponse uniqueRunId 0 (c.turnNumber + 1))) := by
  obtain ⟨hasked, hcontents⟩ := h.asked stdHash hvalid
  obtain ⟨hadded, hcontents₁, hprocessed₁⟩ :=
    hasked.addNewTokens stdHash kvBuffer uniqueRunId runId
  rw [turn_eq, asked_turnNumber]
  generalize generateSyntheticResponse uniqueRunId 0 (c.turnNumber + 1) = response
  have hflushed : (((c.asked stdHash t).addNewTokens stdHash kvBuffer uniqueRunId runId).append
      response).Flushed :=
    ⟨hadded.pending, hadded.current, hadded.written,
      hadded.processed.trans (List.length_append ▸ Nat.le_add_right _ _)⟩
  obtain ⟨hdone, hcontents₂, hprocessed₂⟩ :=
    hflushed.addNewTokens stdHash kvBuffer uniqueRunId runId
  refine ⟨hdone, ?_, (c.asked stdHash t).bufferManager.totalTokensProcessed, ?_⟩
  · rw [hprocessed₂, addNewTokens_conversationTokens]
  · have hnew : (((c.asked stdHash t).addNewTokens stdHash kvBuffer uniqueRunId runId).append
        response).conversationTokens = c.conversationTokens ++ t.tokens ++ response := by
      unfold append
      dsimp only
      rw [addNewTokens_conversationTokens, asked_conversationTokens]
    rw [asked_conversationTokens] at hcontents₁ hprocessed₁
    rw [hcontents₂, hnew]
    unfold append
    dsimp only
    rw [hprocessed₁, List.drop_left, hcontents₁, hcontents]
    simp only [List.append_assoc]

/-- A turn keeps the buffer in step, unless it hits after tokens have been buffered. -/
theorem InStep.turn (h : c.InStep) (hvalid : c.ValidAnswer t) :
    ((c.turn stdHash kvBuffer uniqueRunId runId t).bufferManager.contents =
        (c.turn stdHash kvBuffer uniqueRunId runId t).conversationTokens ↔
      (c.Hits t → c.conversationTokens = [])) ∧
    ((c.turn stdHash kvBuffer uniqueRunId runId t).bufferManager.contents =
        (c.turn stdHash kvBuffer uniqueRunId runId t).conversationTokens →
      (c.turn stdHash kvBuffer uniqueRunId runId t).InStep) := by
  obtain ⟨hflushed, hprocessed, n, hcontents⟩ :=
    h.turn_contents stdHash kvBuffer uniqueRunId runId hvalid
  refine ⟨?_, fun he => ⟨hflushed, hprocessed, he⟩⟩
  rw [hcontents, turn_conversationTokens, take_append_drop_iff]
  split
  · next hhit => exact (imp_iff_right hhit).symm
  · next hmiss => exact iff_of_true rfl fun hhit => absurd hhit hmiss

/-! ## The chunks written -/

/-- The chunks written are those of the blocks after the ones taken from the cache. -/
structure Streamed (stdHash : Token → Hash) (kvBuffer : List Token → List UInt8)
    (uniqueRunId runId : UInt64) (c : Conversation) : Prop where
  streams : Streams stdHash kvBuffer c.cachedBlocks c.written c.bufferManager c.conversationTokens
  pending : c.bufferManager.completedBlocks = []
  keys : ∀ chunk ∈ c.written,
    chunk.partitionKey = partitionKey uniqueRunId ∧ chunk.completionId = completionId runId

theorem Streamed.initial : Streamed stdHash kvBuffer uniqueRunId runId {} where
  streams := .initial
  pending := rfl
  keys chunk h := by cases h

/-- The new tokens continue the stream. -/
theorem Streamed.addNewTokens {tokens more : List Token}
    (h : Streamed stdHash kvBuffer uniqueRunId runId { c with conversationTokens := tokens })
    (hc : c.conversationTokens = tokens ++ more) :
    Streamed stdHash kvBuffer uniqueRunId runId
      (c.addNewTokens stdHash kvBuffer uniqueRunId runId) := by
  obtain ⟨hstreams, hpending, hkeys⟩ := h
  have hprocessed : c.bufferManager.totalTokensProcessed = tokens.length := hstreams.processed
  have hnext := hstreams.addTokens more
  unfold Conversation.addNewTokens
  rw [hc, hprocessed, List.drop_left]
  split
  · dsimp only at hnext ⊢
    split
    · rcases hflush : (c.bufferManager.addTokens more).flushCompletedBlocks stdHash kvBuffer
        (partitionKey uniqueRunId) (completionId runId) true with ⟨chunks, m'⟩
      obtain ⟨hflushed, hnone, hkeys'⟩ := hnext.flush hflush
      exact ⟨hflushed, hnone, fun chunk hmem =>
        (List.mem_append.mp hmem).elim (hkeys chunk) (hkeys' chunk)⟩
    · next hnone =>
      exact ⟨hnext, List.length_eq_zero_iff.mp (Nat.eq_zero_of_not_pos hnone), hkeys⟩
  · next hle =>
    rw [List.length_append] at hle
    obtain rfl : more = [] := List.length_eq_zero_iff.mp (by omega)
    rw [List.append_nil] at hc
    refine ⟨?_, hpending, hkeys⟩
    rw [hc]
    exact hstreams

/-- The answer is that of a lookup for the full blocks of the conversation, whose number of tokens
is an `int`. -/
structure Genuine (stdHash : Token → Hash) (c : Conversation) (t : Turn) : Prop where
  fits : t.lookupResult.cachedBlocks * 128 < 2147483648
  lastHash_eq : t.lookupResult.cachedBlocks ≠ 0 → t.lookupResult.lastHash = combinedHash stdHash
    (blockTokens (c.conversationTokens ++ t.tokens) (t.lookupResult.cachedBlocks - 1))

/-- The first turn: what is found counts as the start of the stream. -/
theorem Streamed.asked_initial (hvalid : ValidAnswer {} t) (hgenuine : Genuine stdHash {} t)
    (hhit : Hits {} t) :
    Streamed stdHash kvBuffer uniqueRunId runId { asked stdHash {} t with
      conversationTokens := t.tokens.take (t.lookupResult.cachedBlocks * 128) } := by
  generalize hk : t.lookupResult.cachedBlocks = k
  have hmatched := matchedLength_eq hgenuine.fits
  rw [hk] at hmatched
  have hpos : 0 < k := by
    have hsome := hhit.2
    omega
  have hfit : k * 128 ≤ t.tokens.length := by
    have hle : t.lookupResult.cachedBlocks ≤ t.tokens.length / 128 := hvalid
    omega
  have hlen : (t.tokens.take (k * 128)).length = k * 128 := List.length_take_of_le hfit
  have hblocks : ∀ n < k, blockTokens t.tokens n = blockTokens (t.tokens.take (k * 128)) n := by
    intro n hn
    have hfull : (n + 1) * blockSize ≤ (t.tokens.take (k * 128)).length := by
      rw [hlen]
      exact Nat.mul_le_mul_right 128 hn
    have happend := blockTokens_append hfull (t.tokens.drop (k * 128))
    rwa [List.take_append_drop] at happend
  have hlast : t.lookupResult.lastHash = parentOf stdHash (t.tokens.take (k * 128)) k := by
    have hlast := hgenuine.lastHash_eq (by omega)
    rw [hk] at hlast
    unfold parentOf
    rw [if_neg (by omega), ← hblocks _ (by omega)]
    exact hlast
  have hhashes : (lookupHashes stdHash t.tokens).take k = (List.range k).map fun n =>
      combinedHash stdHash (blockTokens (t.tokens.take (k * 128)) n) := by
    unfold lookupHashes
    rw [← List.map_take, List.take_range, Nat.min_eq_left (by omega)]
    refine List.map_congr_left fun n hn => ?_
    rw [hblocks n (List.mem_range.mp hn)]
  have hresumed := Streams.resumed stdHash kvBuffer hlen
  rw [← hlast, ← hhashes] at hresumed
  rw [asked_of_hits hhit hmatched]
  refine ⟨?_, rfl, fun _ hmem => absurd hmem List.not_mem_nil⟩
  show Streams stdHash kvBuffer (0 + k) _ _ _
  rw [Nat.zero_add]
  exact hresumed

/-- A turn continues the stream, unless it hits after the first turn. -/
theorem Streamed.turn (h : Streamed stdHash kvBuffer uniqueRunId runId c)
    (hvalid : c.ValidAnswer t) (hgenuine : Genuine stdHash c t) (hhit : c.Hits t → c = {}) :
    Streamed stdHash kvBuffer uniqueRunId runId (c.turn stdHash kvBuffer uniqueRunId runId t) := by
  have hasked : Streamed stdHash kvBuffer uniqueRunId runId
      ((c.asked stdHash t).addNewTokens stdHash kvBuffer uniqueRunId runId) := by
    by_cases hhits : c.Hits t
    · obtain rfl := hhit hhits
      have htokens : (asked stdHash {} t).conversationTokens =
          t.tokens.take (t.lookupResult.cachedBlocks * 128) ++
            t.tokens.drop (t.lookupResult.cachedBlocks * 128) := by
        rw [asked_conversationTokens, List.take_append_drop]
        rfl
      exact (Streamed.asked_initial hvalid hgenuine hhits).addNewTokens htokens
    · have htokens := asked_conversationTokens stdHash c t
      rw [asked_of_not_hits hhits] at htokens ⊢
      refine Streamed.addNewTokens ?_ htokens
      exact ⟨h.streams, h.pending, h.keys⟩
  rw [turn_eq]
  exact Streamed.addNewTokens ⟨hasked.streams, hasked.pending, hasked.keys⟩ rfl

/-- The number of blocks counted as written is that of the full blocks. -/
theorem Streamed.length_eq (h : Streamed stdHash kvBuffer uniqueRunId runId c) :
    c.cachedBlocks + c.written.length = c.conversationTokens.length / blockSize := by
  obtain ⟨hstreams, hpending, -⟩ := h
  obtain ⟨-, htotal⟩ := hstreams.totals
  have hcurrent := hstreams.buffers.current
  unfold getTotalTokens at htotal
  rw [hpending, List.length_nil, Nat.zero_mul, Nat.zero_add, hstreams.written,
    hstreams.processed] at htotal
  unfold blockSize at *
  omega

/-- Two runs of one conversation write the same chunks after the blocks that they take from the
cache. -/
theorem Streamed.written_drop {c' : Conversation}
    (h : Streamed stdHash kvBuffer uniqueRunId runId c)
    (h' : Streamed stdHash kvBuffer uniqueRunId runId c') (hcold : c'.cachedBlocks = 0)
    (htokens : c.conversationTokens = c'.conversationTokens) :
    c.written = c'.written.drop c.cachedBlocks := by
  have hlen := h.length_eq
  have hlen' := h'.length_eq
  rw [hcold, Nat.zero_add, ← htokens] at hlen'
  refine List.ext_getElem (by rw [List.length_drop]; omega) fun j hj hj' => ?_
  have hj'' : c.cachedBlocks + j < c'.written.length := by omega
  rw [List.getElem_drop]
  have hchunk := h.streams.chunk j _ (List.getElem?_eq_getElem hj)
  have hchunk' := h'.streams.chunk _ _ (List.getElem?_eq_getElem hj'')
  obtain ⟨hp, hc⟩ := h.keys _ (List.getElem_mem hj)
  obtain ⟨hp', hc'⟩ := h'.keys _ (List.getElem_mem hj'')
  rw [hcold, Nat.zero_add, ← htokens, hp', hc'] at hchunk'
  rw [hp, hc] at hchunk
  rw [hchunk, hchunk']

end Conversation

/-! ## Runs -/

section

variable {stdHash : Token → Hash} {kvBuffer : List Token → List UInt8} {uniqueRunId runId : UInt64}

/-- What each turn of a run meets: the conversation before it. -/
def EachTurn (stdHash : Token → Hash) (kvBuffer : List Token → List UInt8)
    (uniqueRunId runId : UInt64) (P : Conversation → Turn → Prop) (turns : List Turn) : Prop :=
  ∀ before t, before ++ [t] <+: turns →
    P (runConversation stdHash kvBuffer uniqueRunId runId before) t

/-- A lookup that finds a block is that of the first turn. -/
def HitsAtStart (c : Conversation) (t : Turn) : Prop := c.Hits t → c.turnNumber = 0

/-- The same prompts, and no lookup finds anything. -/
def coldTurns (turns : List Turn) : List Turn :=
  turns.map fun t => { t with lookupResult := {} }

variable {P : Conversation → Turn → Prop} {turns : List Turn} {t : Turn}

@[simp] theorem runConversation_snoc :
    runConversation stdHash kvBuffer uniqueRunId runId (turns ++ [t]) =
      (runConversation stdHash kvBuffer uniqueRunId runId turns).turn stdHash kvBuffer uniqueRunId
        runId t := by
  unfold runConversation
  rw [List.foldl_append]
  rfl

theorem eachTurn_nil : EachTurn stdHash kvBuffer uniqueRunId runId P [] := by
  intro before t hpre
  exact absurd (List.prefix_nil.mp hpre) (List.append_ne_nil_of_right_ne_nil _ (by simp))

theorem eachTurn_snoc :
    EachTurn stdHash kvBuffer uniqueRunId runId P (turns ++ [t]) ↔
      EachTurn stdHash kvBuffer uniqueRunId runId P turns ∧
        P (runConversation stdHash kvBuffer uniqueRunId runId turns) t := by
  constructor
  · intro h
    exact ⟨fun before t' hpre => h before t' (hpre.trans (List.prefix_append _ _)),
      h turns t (List.prefix_refl _)⟩
  · rintro ⟨hturns, hlast⟩ before t' hpre
    rcases List.prefix_concat_iff.mp hpre with heq | hpre
    · obtain ⟨rfl, ht⟩ := List.append_inj' heq rfl
      cases ht
      exact hlast
    · exact hturns before t' hpre

theorem runConversation_turnNumber :
    (runConversation stdHash kvBuffer uniqueRunId runId turns).turnNumber = turns.length := by
  induction turns using List.reverseRecOn with
  | nil => rfl
  | append_singleton turns t ih =>
    rw [runConversation_snoc, Conversation.turn_turnNumber, ih, List.length_append]
    rfl

theorem runConversation_nil_of_turnNumber
    (h : (runConversation stdHash kvBuffer uniqueRunId runId turns).turnNumber = 0) :
    runConversation stdHash kvBuffer uniqueRunId runId turns = {} := by
  rw [runConversation_turnNumber, List.length_eq_zero_iff] at h
  rw [h]
  rfl

/-- Every turn leaves a response in the conversation. -/
theorem runConversation_tokens_eq_nil :
    (runConversation stdHash kvBuffer uniqueRunId runId turns).conversationTokens = [] ↔
      (runConversation stdHash kvBuffer uniqueRunId runId turns).turnNumber = 0 := by
  constructor
  · induction turns using List.reverseRecOn with
    | nil => exact fun _ => rfl
    | append_singleton turns t ih =>
      rw [runConversation_snoc, Conversation.turn_conversationTokens]
      exact fun h => absurd h (List.append_ne_nil_of_right_ne_nil _ (List.cons_ne_nil _ _))
  · intro h
    rw [runConversation_nil_of_turnNumber h]

theorem runConversation_cold :
    (runConversation stdHash kvBuffer uniqueRunId runId (coldTurns turns)).conversationTokens =
      (runConversation stdHash kvBuffer uniqueRunId runId turns).conversationTokens := by
  induction turns using List.reverseRecOn with
  | nil => rfl
  | append_singleton turns t ih =>
    have hnumber : (runConversation stdHash kvBuffer uniqueRunId runId
        (coldTurns turns)).turnNumber =
        (runConversation stdHash kvBuffer uniqueRunId runId turns).turnNumber := by
      rw [runConversation_turnNumber, runConversation_turnNumber]
      exact List.length_map _
    unfold coldTurns at *
    rw [List.map_append, List.map_cons, List.map_nil, runConversation_snoc, runConversation_snoc,
      Conversation.turn_conversationTokens, Conversation.turn_conversationTokens, ih, hnumber]

/-- The buffer holds the conversation after every turn exactly when no later turn hits. -/
theorem runConversation_inStep
    (hvalid : EachTurn stdHash kvBuffer uniqueRunId runId Conversation.ValidAnswer turns) :
    ((∀ ts, ts <+: turns →
        (runConversation stdHash kvBuffer uniqueRunId runId ts).bufferManager.contents =
          (runConversation stdHash kvBuffer uniqueRunId runId ts).conversationTokens) ↔
      EachTurn stdHash kvBuffer uniqueRunId runId HitsAtStart turns) ∧
    (EachTurn stdHash kvBuffer uniqueRunId runId HitsAtStart turns →
      (runConversation stdHash kvBuffer uniqueRunId runId turns).InStep) := by
  induction turns using List.reverseRecOn with
  | nil =>
    refine ⟨iff_of_true (fun ts hts => ?_) eachTurn_nil, fun _ => .initial⟩
    rw [List.prefix_nil.mp hts]
    rfl
  | append_singleton turns t ih =>
    obtain ⟨hturns, hlast⟩ := eachTurn_snoc.mp hvalid
    obtain ⟨hiff, hinStep⟩ := ih hturns
    rw [eachTurn_snoc, ← hiff]
    have hstep : EachTurn stdHash kvBuffer uniqueRunId runId HitsAtStart turns →
        ((runConversation stdHash kvBuffer uniqueRunId runId
              (turns ++ [t])).bufferManager.contents =
            (runConversation stdHash kvBuffer uniqueRunId runId
              (turns ++ [t])).conversationTokens ↔
          HitsAtStart (runConversation stdHash kvBuffer uniqueRunId runId turns) t) ∧
        ((runConversation stdHash kvBuffer uniqueRunId runId
              (turns ++ [t])).bufferManager.contents =
            (runConversation stdHash kvBuffer uniqueRunId runId
              (turns ++ [t])).conversationTokens →
          (runConversation stdHash kvBuffer uniqueRunId runId (turns ++ [t])).InStep) := by
      intro hstart
      rw [runConversation_snoc]
      unfold HitsAtStart
      rw [← runConversation_tokens_eq_nil]
      exact (hinStep hstart).turn hlast
    refine ⟨⟨fun h => ?_, fun ⟨hinitials, hstart⟩ ts hts => ?_⟩, fun ⟨hinitials, hstart⟩ => ?_⟩
    · have hinitials := fun ts (hts : ts <+: turns) =>
        h ts (hts.trans (List.prefix_append turns [t]))
      exact ⟨hinitials, (hstep (hiff.mp hinitials)).1.mp (h _ (List.prefix_refl _))⟩
    · rcases List.prefix_concat_iff.mp hts with rfl | hts
      · exact (hstep (hiff.mp hinitials)).1.mpr hstart
      · exact hinitials ts hts
    · obtain ⟨hcontents, hnext⟩ := hstep (hiff.mp hinitials)
      exact hnext (hcontents.mpr hstart)

theorem runConversation_streamed
    (hvalid : EachTurn stdHash kvBuffer uniqueRunId runId Conversation.ValidAnswer turns)
    (hstart : EachTurn stdHash kvBuffer uniqueRunId runId HitsAtStart turns)
    (hgenuine : EachTurn stdHash kvBuffer uniqueRunId runId (Conversation.Genuine stdHash) turns) :
    (runConversation stdHash kvBuffer uniqueRunId runId turns).Streamed stdHash kvBuffer uniqueRunId
      runId := by
  induction turns using List.reverseRecOn with
  | nil => exact .initial
  | append_singleton turns t ih =>
    obtain ⟨hvalid, hvalid'⟩ := eachTurn_snoc.mp hvalid
    obtain ⟨hstart, hstart'⟩ := eachTurn_snoc.mp hstart
    obtain ⟨hgenuine, hgenuine'⟩ := eachTurn_snoc.mp hgenuine
    rw [runConversation_snoc]
    exact (ih hvalid hstart hgenuine).turn hvalid' hgenuine' fun hhit =>
      runConversation_nil_of_turnNumber (hstart' hhit)

theorem EachTurn.of_isPrefix {ts : List Turn}
    (h : EachTurn stdHash kvBuffer uniqueRunId runId P turns) (hts : ts <+: turns) :
    EachTurn stdHash kvBuffer uniqueRunId runId P ts :=
  fun before t hpre => h before t (hpre.trans hts)

/-- The turns of a cold run have the answer that nothing is cached. -/
theorem eachTurn_cold (h : ∀ c t, t.lookupResult = {} → P c t) :
    EachTurn stdHash kvBuffer uniqueRunId runId P (coldTurns turns) := by
  intro before t hpre
  have hmem : t ∈ coldTurns turns :=
    hpre.subset (List.mem_append_right _ (List.mem_singleton_self _))
  obtain ⟨t', -, rfl⟩ := List.mem_map.mp hmem
  exact h _ _ rfl

theorem not_hits_cold {c : Conversation} (h : t.lookupResult = {}) : ¬ c.Hits t := by
  rintro ⟨-, hpos⟩
  rw [h] at hpos
  exact absurd hpos (by decide)

theorem runConversation_cold_cachedBlocks :
    (runConversation stdHash kvBuffer uniqueRunId runId (coldTurns turns)).cachedBlocks = 0 := by
  induction turns using List.reverseRecOn with
  | nil => rfl
  | append_singleton turns t ih =>
    unfold coldTurns at *
    rw [List.map_append, List.map_cons, List.map_nil, runConversation_snoc, Conversation.turn_eq,
      Conversation.addNewTokens_cachedBlocks]
    unfold Conversation.append
    dsimp only
    rw [Conversation.addNewTokens_cachedBlocks, Conversation.asked_of_not_hits (not_hits_cold rfl)]
    exact ih

/-- After every turn the buffer holds the conversation so far, exactly when no lookup but that of
the first turn finds a block. In such a run the chunks written are those that a run without any hit
writes after the blocks that were found. -/
theorem runConversation_inStep_iff
    (hvalid : EachTurn stdHash kvBuffer uniqueRunId runId Conversation.ValidAnswer turns) :
    ((∀ ts, ts <+: turns →
        (runConversation stdHash kvBuffer uniqueRunId runId ts).bufferManager.contents =
          (runConversation stdHash kvBuffer uniqueRunId runId ts).conversationTokens) ↔
      EachTurn stdHash kvBuffer uniqueRunId runId HitsAtStart turns) ∧
    (EachTurn stdHash kvBuffer uniqueRunId runId HitsAtStart turns →
      EachTurn stdHash kvBuffer uniqueRunId runId (Conversation.Genuine stdHash) turns →
      ∀ ts, ts <+: turns →
        (runConversation stdHash kvBuffer uniqueRunId runId ts).written =
          (runConversation stdHash kvBuffer uniqueRunId runId (coldTurns ts)).written.drop
            (runConversation stdHash kvBuffer uniqueRunId runId ts).cachedBlocks) := by
  refine ⟨(runConversation_inStep hvalid).1, fun hstart hgenuine ts hts => ?_⟩
  have hwarm := runConversation_streamed (hvalid.of_isPrefix hts) (hstart.of_isPrefix hts)
    (hgenuine.of_isPrefix hts)
  have hcold : (runConversation stdHash kvBuffer uniqueRunId runId (coldTurns ts)).Streamed stdHash
      kvBuffer uniqueRunId runId := by
    refine runConversation_streamed (eachTurn_cold fun c t ht => ?_)
      (eachTurn_cold fun c t ht => ?_) (eachTurn_cold fun c t ht => ?_)
    · unfold Conversation.ValidAnswer
      rw [ht]
      exact Nat.zero_le _
    · exact fun hhit => absurd hhit (not_hits_cold ht)
    · refine ⟨by rw [ht]; decide, fun hne => ?_⟩
      rw [ht] at hne
      exact absurd rfl hne
  exact hwarm.written_drop hcold runConversation_cold_cachedBlocks runConversation_cold.symm

end

/-! ## An early and a late hit -/

section

theorem eachTurn_pair {stdHash : Token → Hash} {kvBuffer : List Token → List UInt8}
    {uniqueRunId runId : UInt64} {P : Conversation → Turn → Prop} {t t' : Turn} :
    EachTurn stdHash kvBuffer uniqueRunId runId P [t, t'] ↔
      P {} t ∧ P (runConversation stdHash kvBuffer uniqueRunId runId [t]) t' := by
  have hboth : EachTurn stdHash kvBuffer uniqueRunId runId P ([t] ++ [t']) ↔ _ := eachTurn_snoc
  have hfirst : EachTurn stdHash kvBuffer uniqueRunId runId P ([] ++ [t]) ↔ _ := eachTurn_snoc
  rw [and_iff_right eachTurn_nil] at hfirst
  exact hboth.trans (and_congr_left' hfirst)

/-- A run with one conversation's tokens as hashes. -/
def sampleRun (turns : List Turn) : Conversation :=
  runConversation Int64.toUInt64 (fun _ => []) 1 1 turns

def shortPrompt : Turn where
  tokens := List.replicate 10 7

/-- A prompt whose first two blocks are found. -/
def longPrompt : Turn where
  tokens := List.replicate 300 7
  lookupResult := {
    cachedBlocks := 2
    lastHash := combinedHash Int64.toUInt64 (List.replicate 128 7) }

/-- With the tokens of an earlier turn before it, one block is found. -/
def latePrompt : Turn where
  tokens := List.replicate 200 7
  lookupResult := {
    cachedBlocks := 1
    lastHash := combinedHash Int64.toUInt64
      ((sampleRun [shortPrompt]).conversationTokens ++ List.replicate 68 7) }

theorem runConversation_inStep_longPrompt :
    (sampleRun [longPrompt, shortPrompt]).bufferManager.contents =
        (sampleRun [longPrompt, shortPrompt]).conversationTokens ∧
      (sampleRun [longPrompt, shortPrompt]).written =
        (sampleRun (coldTurns [longPrompt, shortPrompt])).written.drop 2 := by
  have hvalid : EachTurn Int64.toUInt64 (fun _ => []) 1 1 Conversation.ValidAnswer
      [longPrompt, shortPrompt] := by
    refine eachTurn_pair.mpr ⟨?_, ?_⟩
    · unfold Conversation.ValidAnswer
      decide +kernel
    · unfold Conversation.ValidAnswer
      decide +kernel
  obtain ⟨hiff, hwritten⟩ := runConversation_inStep_iff hvalid
  have hstart : EachTurn Int64.toUInt64 (fun _ => []) 1 1 HitsAtStart [longPrompt, shortPrompt] :=
    eachTurn_pair.mpr ⟨fun _ => rfl, fun h => absurd h (by decide +kernel)⟩
  refine ⟨hiff.mpr hstart _ (List.prefix_refl _), ?_⟩
  have hcached : (sampleRun [longPrompt, shortPrompt]).cachedBlocks = 2 := by decide +kernel
  rw [← hcached]
  refine hwritten hstart (eachTurn_pair.mpr ⟨?_, ?_⟩) _ (List.prefix_refl _)
  · exact ⟨by decide +kernel, fun _ => by decide +kernel⟩
  · exact ⟨by decide +kernel, fun h => absurd rfl h⟩

/-- The second turn hits: the buffer holds 370 tokens of a conversation of 310. -/
theorem runConversation_lateHit :
    EachTurn Int64.toUInt64 (fun _ => []) 1 1 Conversation.ValidAnswer [shortPrompt, latePrompt] ∧
      EachTurn Int64.toUInt64 (fun _ => []) 1 1 (Conversation.Genuine Int64.toUInt64)
        [shortPrompt, latePrompt] ∧
      (sampleRun [shortPrompt, latePrompt]).conversationTokens.length = 310 ∧
      (sampleRun [shortPrompt, latePrompt]).bufferManager.contents.length = 370 := by
  refine ⟨eachTurn_pair.mpr ⟨?_, ?_⟩,
    eachTurn_pair.mpr ⟨⟨?_, fun h => absurd rfl h⟩, ⟨?_, fun _ => ?_⟩⟩, ?_, ?_⟩
  · exact Nat.zero_le _
  · unfold Conversation.ValidAnswer
    decide +kernel
  all_goals decide +kernel

end

end KVStore
