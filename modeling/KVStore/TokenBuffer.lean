import KVStore.Read

/-!
# The client's token buffer (`TokenBufferManager`)

A conversation adds tokens to its buffer and flushes the blocks that are complete. Each block is
written with the hash of its own tokens, and with the hash of the block before it as its parent.
The buffer of a block is taken to be a function `kvBuffer` of all tokens up to its end (the code
sends one loaded file for every block).

`emitted_stream`: the chunks that a conversation emits are those of the blocks of its tokens,
whatever the portions are in which the tokens arrive and when they are flushed, and the counters and
lists of the buffer say which blocks have been written.
-/

namespace KVStore

/-- The hash of a block; `stdHash` is `std::hash<Token>`. -/
def combinedHash (stdHash : Token → Hash) (block : List Token) : Hash :=
  block.foldl (fun combinedHash token => combinedHash * 31 + stdHash token) 0

structure TokenBufferManager where
  completedBlocks : List (List Token) := []
  currentBlock : List Token := []
  totalTokensWritten : Nat := 0
  totalTokensProcessed : Nat := 0
  lastWrittenHash : Hash := 0
  writtenBlockHashes : List Hash := []
  allWrittenTokens : List Token := []
deriving DecidableEq, Repr

namespace TokenBufferManager

def addToken (m : TokenBufferManager) (token : Token) : TokenBufferManager :=
  let currentBlock := m.currentBlock ++ [token]
  let m := { m with currentBlock, totalTokensProcessed := m.totalTokensProcessed + 1 }
  if blockSize ≤ currentBlock.length then
    { m with completedBlocks := m.completedBlocks ++ [currentBlock], currentBlock := [] }
  else m

def addTokens (m : TokenBufferManager) (tokens : List Token) : TokenBufferManager :=
  tokens.foldl addToken m

/-- All tokens of a buffer: those written, the complete blocks and the current one. -/
def contents (m : TokenBufferManager) : List Token :=
  m.allWrittenTokens ++ (m.completedBlocks.flatten ++ m.currentBlock)

/-- The number of tokens that have not been written. -/
def getTotalTokens (m : TokenBufferManager) : Nat :=
  m.completedBlocks.length * blockSize + m.currentBlock.length

section

variable (stdHash : Token → Hash) (kvBuffer : List Token → List UInt8)

/-- The loop of `flushCompletedBlocks`, with the chunks that it hands to `WriteAsync`. -/
def flushLoop (partitionKey completionId : Text) :
    List (List Token) → Hash → TokenBufferManager → List PromptChunk × TokenBufferManager
  | [], _, m => ([], m)
  | block :: blocks, currentParentHash, m =>
    let combinedHash := combinedHash stdHash block
    let allWrittenTokens := m.allWrittenTokens ++ block
    let (chunks, m) := flushLoop partitionKey completionId blocks combinedHash {
      m with
      writtenBlockHashes := m.writtenBlockHashes ++ [combinedHash]
      allWrittenTokens
      lastWrittenHash := combinedHash
      totalTokensWritten := m.totalTokensWritten + blockSize }
    ({ partitionKey
       tokens := block
       buffer := kvBuffer allWrittenTokens
       parentHash := currentParentHash
       hash := combinedHash
       completionId } :: chunks, m)

/-- `flushCompletedBlocks`; the blocks are kept when a write fails. -/
def flushCompletedBlocks (m : TokenBufferManager) (partitionKey completionId : Text)
    (writesSucceed : Bool) : List PromptChunk × TokenBufferManager :=
  if m.completedBlocks = [] then ([], m)
  else
    let (chunks, m) :=
      flushLoop stdHash kvBuffer partitionKey completionId m.completedBlocks m.lastWrittenHash m
    (chunks, if writesSucceed then { m with completedBlocks := [] } else m)

end

/-! ## Adding tokens -/

section

variable {m : TokenBufferManager} (more : List Token)

/-- Adding a token changes nothing that describes what is written. -/
theorem addToken_written (m : TokenBufferManager) (token : Token) :
    (m.addToken token).totalTokensProcessed = m.totalTokensProcessed + 1 ∧
      (m.addToken token).totalTokensWritten = m.totalTokensWritten ∧
      (m.addToken token).allWrittenTokens = m.allWrittenTokens ∧
      (m.addToken token).writtenBlockHashes = m.writtenBlockHashes ∧
      (m.addToken token).lastWrittenHash = m.lastWrittenHash := by
  unfold addToken
  dsimp only
  split <;> exact ⟨rfl, rfl, rfl, rfl, rfl⟩

theorem addTokens_written (m : TokenBufferManager) :
    (m.addTokens more).totalTokensProcessed = m.totalTokensProcessed + more.length ∧
      (m.addTokens more).totalTokensWritten = m.totalTokensWritten ∧
      (m.addTokens more).allWrittenTokens = m.allWrittenTokens ∧
      (m.addTokens more).writtenBlockHashes = m.writtenBlockHashes ∧
      (m.addTokens more).lastWrittenHash = m.lastWrittenHash := by
  induction more generalizing m with
  | nil => exact ⟨rfl, rfl, rfl, rfl, rfl⟩
  | cons token more ih =>
    obtain ⟨hprocessed, hwritten, hall, hhashes, hlast⟩ := m.addToken_written token
    obtain ⟨hprocessed', hwritten', hall', hhashes', hlast'⟩ := ih (m.addToken token)
    refine ⟨?_, hwritten'.trans hwritten, hall'.trans hall, hhashes'.trans hhashes,
      hlast'.trans hlast⟩
    rw [List.length_cons, Nat.add_comm more.length, ← Nat.add_assoc, ← hprocessed]
    exact hprocessed'

theorem contents_addToken (m : TokenBufferManager) (token : Token) :
    (m.addToken token).contents = m.contents ++ [token] := by
  unfold addToken contents
  dsimp only
  split <;> simp

theorem contents_addTokens (m : TokenBufferManager) :
    (m.addTokens more).contents = m.contents ++ more := by
  induction more generalizing m with
  | nil => exact (List.append_nil _).symm
  | cons token more ih =>
    rw [List.append_cons, ← contents_addToken]
    exact ih (m.addToken token)

/-- The pending blocks are whole, and the current one is not. -/
structure Blocked (m : TokenBufferManager) : Prop where
  complete : ∀ block ∈ m.completedBlocks, block.length = blockSize
  current : m.currentBlock.length < blockSize

theorem Blocked.addToken (h : m.Blocked) (token : Token) : (m.addToken token).Blocked := by
  have hcurrent := h.current
  unfold TokenBufferManager.addToken
  dsimp only
  split
  · next hfull =>
    refine ⟨fun block hblock => ?_, Nat.zero_lt_succ _⟩
    rcases List.mem_append.mp hblock with hblock | hblock
    · exact h.complete block hblock
    · obtain rfl := List.mem_singleton.mp hblock
      rw [List.length_append, List.length_singleton] at hfull ⊢
      omega
  · next hfull => exact ⟨h.complete, Nat.lt_of_not_le hfull⟩

theorem Blocked.addTokens (h : m.Blocked) : (m.addTokens more).Blocked := by
  induction more generalizing m with
  | nil => exact h
  | cons token more ih => exact ih (h.addToken token)

theorem Blocked.length_flatten (h : m.Blocked) :
    m.completedBlocks.flatten.length = m.completedBlocks.length * blockSize := by
  rw [List.length_flatten, List.map_congr_left h.complete, List.map_const', List.sum_replicate_nat]

end

end TokenBufferManager

open TokenBufferManager

/-- What a conversation does with its buffer. -/
inductive ConversationOp
  | addTokens (tokens : List Token)
  | flush (partitionKey completionId : Text)

/-- The tokens that a conversation adds. -/
def addedTokens (ops : List ConversationOp) : List Token :=
  ops.flatMap fun
    | .addTokens tokens => tokens
    | .flush _ _ => []

section

variable (stdHash : Token → Hash) (kvBuffer : List Token → List UInt8)

/-- The chunks that a conversation emits, with its buffer at the end; all its writes succeed. -/
def converse : List ConversationOp → TokenBufferManager → List PromptChunk × TokenBufferManager
  | [], m => ([], m)
  | .addTokens tokens :: ops, m => converse ops (m.addTokens tokens)
  | .flush partitionKey completionId :: ops, m =>
    let (chunks, m) := m.flushCompletedBlocks stdHash kvBuffer partitionKey completionId true
    let (chunks', m) := converse ops m
    (chunks ++ chunks', m)

def emitted (ops : List ConversationOp) : List PromptChunk := (converse stdHash kvBuffer ops {}).1

/-! ## The chunks are those of the blocks -/

/-- The parent of block `n` of the tokens. -/
def parentOf (tokens : List Token) (n : Nat) : Hash :=
  if n = 0 then 0 else combinedHash stdHash (blockTokens tokens (n - 1))

/-- The chunk is that of block `n` of the tokens. -/
structure EmittedFor (tokens : List Token) (n : Nat) (chunk : PromptChunk) : Prop where
  full : (n + 1) * blockSize ≤ tokens.length
  tokens_eq : chunk.tokens = blockTokens tokens n
  hash_eq : chunk.hash = combinedHash stdHash (blockTokens tokens n)
  parentHash_eq : chunk.parentHash = parentOf stdHash tokens n
  buffer_eq : chunk.buffer = kvBuffer (tokens.take ((n + 1) * blockSize))

variable {stdHash kvBuffer} {tokens more : List Token} {n : Nat} {chunk : PromptChunk}

omit stdHash kvBuffer in
theorem blockTokens_append (h : (n + 1) * blockSize ≤ tokens.length) (more : List Token) :
    blockTokens (tokens ++ more) n = blockTokens tokens n := by
  rw [Nat.succ_mul] at h
  unfold blockTokens
  rw [List.drop_append_of_le_length (by omega), List.take_append_of_le_length]
  rw [List.length_drop]
  omega

omit stdHash kvBuffer in
theorem blockTokens_middle {pre block : List Token} (hpre : pre.length = n * blockSize)
    (hblock : block.length = blockSize) (more : List Token) :
    blockTokens (pre ++ (block ++ more)) n = block := by
  unfold blockTokens
  rw [← hpre, List.drop_left, ← hblock, List.take_left]

theorem parentOf_append (h : n * blockSize ≤ tokens.length) (more : List Token) :
    parentOf stdHash (tokens ++ more) n = parentOf stdHash tokens n := by
  cases n with
  | zero => rfl
  | succ n => exact congrArg (combinedHash stdHash) (blockTokens_append h more)

variable (stdHash)

/-- The buffer of a conversation that has added the tokens. -/
structure Buffers (m : TokenBufferManager) (tokens : List Token) : Prop where
  tokens_eq : m.allWrittenTokens ++ (m.completedBlocks.flatten ++ m.currentBlock) = tokens
  complete : ∀ block ∈ m.completedBlocks, block.length = blockSize
  current : m.currentBlock.length < blockSize
  aligned : ∃ n, m.allWrittenTokens.length = n * blockSize ∧
    m.lastWrittenHash = parentOf stdHash tokens n

variable {stdHash} {m : TokenBufferManager}

theorem Buffers.initial : Buffers stdHash {} [] where
  tokens_eq := rfl
  complete _ h := by cases h
  current := by decide
  aligned := ⟨0, rfl, rfl⟩

theorem Buffers.blocked (h : Buffers stdHash m tokens) : m.Blocked := ⟨h.complete, h.current⟩

theorem Buffers.addTokens (h : Buffers stdHash m tokens) (more : List Token) :
    Buffers stdHash (m.addTokens more) (tokens ++ more) := by
  obtain ⟨n, hn, hlast⟩ := h.aligned
  obtain ⟨-, -, hall, -, hlast'⟩ := m.addTokens_written more
  obtain ⟨hcomplete, hcurrent⟩ := h.blocked.addTokens more
  have hle : n * blockSize ≤ tokens.length := by
    rw [← h.tokens_eq, List.length_append, ← hn]
    exact Nat.le_add_right _ _
  refine ⟨?_, hcomplete, hcurrent, n, ?_, ?_⟩
  · rw [← h.tokens_eq]
    exact m.contents_addTokens more
  · rw [hall, hn]
  · rw [hlast', parentOf_append hle, hlast]

variable (stdHash kvBuffer)

/-- The chunk of block `n` of the tokens. -/
def blockChunk (partitionKey completionId : Text) (tokens : List Token) (n : Nat) :
    PromptChunk where
  partitionKey
  tokens := blockTokens tokens n
  buffer := kvBuffer (tokens.take ((n + 1) * blockSize))
  parentHash := parentOf stdHash tokens n
  hash := combinedHash stdHash (blockTokens tokens n)
  completionId

/-- A buffer whose chunks so far are those of the blocks from number `start` on; the blocks before
them count as written. -/
structure Streams (start : Nat) (chunks : List PromptChunk) (m : TokenBufferManager)
    (tokens : List Token) : Prop where
  buffers : Buffers stdHash m tokens
  written : m.totalTokensWritten = (start + chunks.length) * blockSize
  all : m.allWrittenTokens.length = m.totalTokensWritten
  hashes : m.writtenBlockHashes = (List.range (start + chunks.length)).map fun n =>
    combinedHash stdHash (blockTokens tokens n)
  processed : m.totalTokensProcessed = tokens.length
  chunk : ∀ (j : Nat) (chunk : PromptChunk), chunks[j]? = some chunk →
    chunk = blockChunk stdHash kvBuffer chunk.partitionKey chunk.completionId tokens (start + j)

variable {stdHash kvBuffer} {start : Nat} {chunks : List PromptChunk}
  {partitionKey completionId : Text}

theorem blockChunk_append (h : (n + 1) * blockSize ≤ tokens.length) (more : List Token) :
    blockChunk stdHash kvBuffer partitionKey completionId (tokens ++ more) n =
      blockChunk stdHash kvBuffer partitionKey completionId tokens n := by
  have hle : n * blockSize ≤ tokens.length := (Nat.mul_le_mul_right _ (Nat.le_succ n)).trans h
  unfold blockChunk
  simp only [blockTokens_append h, parentOf_append hle, List.take_append_of_le_length h]

theorem blockChunk_emittedFor (h : (n + 1) * blockSize ≤ tokens.length) :
    EmittedFor stdHash kvBuffer tokens n
      (blockChunk stdHash kvBuffer partitionKey completionId tokens n) :=
  ⟨h, rfl, rfl, rfl, rfl⟩

theorem Streams.initial : Streams stdHash kvBuffer 0 [] {} [] where
  buffers := .initial
  written := rfl
  all := rfl
  hashes := rfl
  processed := rfl
  chunk j chunk h := by cases h

variable (stdHash kvBuffer) in
/-- A buffer that starts after `start` known blocks. -/
theorem Streams.resumed (htokens : tokens.length = start * blockSize) :
    Streams stdHash kvBuffer start [] {
      totalTokensWritten := start * blockSize
      totalTokensProcessed := start * blockSize
      lastWrittenHash := parentOf stdHash tokens start
      writtenBlockHashes := (List.range start).map fun n =>
        combinedHash stdHash (blockTokens tokens n)
      allWrittenTokens := tokens } tokens where
  buffers := ⟨List.append_nil _, fun _ h => absurd h List.not_mem_nil, Nat.zero_lt_succ _, start,
    htokens, rfl⟩
  written := rfl
  all := htokens
  hashes := rfl
  processed := htokens.symm
  chunk j chunk h := by cases h

theorem Streams.written_le (h : Streams stdHash kvBuffer start chunks m tokens) :
    (start + chunks.length) * blockSize ≤ tokens.length := by
  rw [← h.written, ← h.all, ← h.buffers.tokens_eq, List.length_append]
  exact Nat.le_add_right _ _

/-- The blocks that count as written are complete. -/
theorem Streams.full (h : Streams stdHash kvBuffer start chunks m tokens)
    (hn : n < start + chunks.length) : (n + 1) * blockSize ≤ tokens.length :=
  (Nat.mul_le_mul_right _ hn).trans h.written_le

theorem Streams.lastWrittenHash_eq (h : Streams stdHash kvBuffer start chunks m tokens) :
    m.lastWrittenHash = parentOf stdHash tokens (start + chunks.length) := by
  obtain ⟨n, hn, hlast⟩ := h.buffers.aligned
  have hn' : n * blockSize = (start + chunks.length) * blockSize := by
    rw [← hn, h.all, h.written]
  rwa [← Nat.eq_of_mul_eq_mul_right (by decide) hn']

/-- The portions in which tokens are added do not matter. -/
theorem Streams.addTokens (h : Streams stdHash kvBuffer start chunks m tokens)
    (more : List Token) :
    Streams stdHash kvBuffer start chunks (m.addTokens more) (tokens ++ more) := by
  obtain ⟨hprocessed, hwritten, hall, hhashes, -⟩ := m.addTokens_written more
  refine ⟨h.buffers.addTokens more, hwritten.trans h.written, ?_, ?_, ?_, fun j chunk hj => ?_⟩
  · rw [hall, hwritten, h.all]
  · rw [hhashes, h.hashes]
    refine List.map_congr_left fun n hn => ?_
    rw [blockTokens_append (h.full (List.mem_range.mp hn))]
  · rw [hprocessed, h.processed, List.length_append]
  · obtain ⟨hlt, -⟩ := List.getElem?_eq_some_iff.mp hj
    rw [blockChunk_append (h.full (Nat.add_lt_add_left hlt start))]
    exact h.chunk j chunk hj

/-- The first pending block is the next block of the tokens. -/
theorem Streams.next_block {block : List Token} {blocks : List (List Token)}
    (h : Streams stdHash kvBuffer start chunks { m with completedBlocks := block :: blocks }
      tokens) :
    block = blockTokens tokens (start + chunks.length) ∧
      (m.allWrittenTokens ++ block).length = (start + chunks.length + 1) * blockSize ∧
      m.allWrittenTokens ++ block = tokens.take ((start + chunks.length + 1) * blockSize) := by
  have hlen : m.allWrittenTokens.length = (start + chunks.length) * blockSize :=
    h.all.trans h.written
  have hblock : block.length = blockSize := h.buffers.complete block List.mem_cons_self
  have htokens : m.allWrittenTokens ++ (block ++ (blocks.flatten ++ m.currentBlock)) = tokens := by
    rw [← List.append_assoc block]
    exact h.buffers.tokens_eq
  have hlen' : (m.allWrittenTokens ++ block).length = (start + chunks.length + 1) * blockSize := by
    rw [List.length_append, hlen, hblock, Nat.succ_mul]
  refine ⟨?_, hlen', ?_⟩
  · rw [← htokens]
    exact (blockTokens_middle hlen hblock _).symm
  · rw [← htokens, ← List.append_assoc, ← hlen', List.take_left]

variable (partitionKey completionId) in
/-- One round of the loop of `flushCompletedBlocks`: the chunk is that of the next block. -/
theorem Streams.flushBlock {block : List Token} {blocks : List (List Token)}
    (h : Streams stdHash kvBuffer start chunks { m with completedBlocks := block :: blocks }
      tokens) :
    Streams stdHash kvBuffer start
      (chunks ++ [blockChunk stdHash kvBuffer partitionKey completionId tokens
        (start + chunks.length)])
      { m with
        completedBlocks := blocks
        writtenBlockHashes := m.writtenBlockHashes ++ [combinedHash stdHash block]
        allWrittenTokens := m.allWrittenTokens ++ block
        lastWrittenHash := combinedHash stdHash block
        totalTokensWritten := m.totalTokensWritten + blockSize } tokens := by
  obtain ⟨htake, hlen, -⟩ := h.next_block
  refine ⟨⟨?_, fun B hB => h.buffers.complete B (List.mem_cons_of_mem _ hB), h.buffers.current,
    _, hlen, congrArg (combinedHash stdHash) htake⟩, ?_, ?_, ?_, h.processed, fun j chunk hj => ?_⟩
  · show (m.allWrittenTokens ++ block) ++ (blocks.flatten ++ m.currentBlock) = tokens
    rw [List.append_assoc, ← List.append_assoc block]
    exact h.buffers.tokens_eq
  · show m.totalTokensWritten + blockSize = _
    rw [List.length_append, List.length_singleton, ← Nat.add_assoc, Nat.succ_mul]
    exact congrArg (· + blockSize) h.written
  · show (m.allWrittenTokens ++ block).length = m.totalTokensWritten + blockSize
    rw [List.length_append, h.buffers.complete block List.mem_cons_self]
    exact congrArg (· + blockSize) h.all
  · show m.writtenBlockHashes ++ [combinedHash stdHash block] = _
    rw [List.length_append, List.length_singleton, ← Nat.add_assoc, List.range_succ,
      List.map_append, htake]
    exact congrArg (· ++ _) h.hashes
  · rcases Nat.lt_or_ge j chunks.length with hlt | hge
    · rw [List.getElem?_append_left hlt] at hj
      exact h.chunk j chunk hj
    · rw [List.getElem?_append_right hge, List.getElem?_singleton] at hj
      split at hj
      · next heq =>
        obtain rfl : j = chunks.length := by omega
        cases hj
        rfl
      · cases hj

theorem Streams.flushLoop : ∀ {blocks : List (List Token)} {chunks chunks' : List PromptChunk}
    {parent : Hash} {m m' : TokenBufferManager}, parent = m.lastWrittenHash →
      Streams stdHash kvBuffer start chunks { m with completedBlocks := blocks } tokens →
      flushLoop stdHash kvBuffer partitionKey completionId blocks parent m = (chunks', m') →
      Streams stdHash kvBuffer start (chunks ++ chunks') { m' with completedBlocks := [] } tokens ∧
        ∀ chunk ∈ chunks',
          chunk.partitionKey = partitionKey ∧ chunk.completionId = completionId := by
  intro blocks
  induction blocks with
  | nil =>
    intro chunks chunks' parent m m' _ h hloop
    cases hloop
    rw [List.append_nil]
    exact ⟨h, fun _ hmem => absurd hmem List.not_mem_nil⟩
  | cons block blocks ih =>
    intro chunks chunks' parent m m' hparent h hloop
    obtain ⟨hblock, -, hprefix⟩ := h.next_block
    have hnext := h.flushBlock partitionKey completionId
    rw [TokenBufferManager.flushLoop] at hloop
    split at hloop
    next chunks₁ m₁ hrest =>
    cases hloop
    obtain ⟨hstreams, hkeys⟩ := ih (by rfl) hnext hrest
    have hchunk : ({
        partitionKey
        tokens := block
        buffer := kvBuffer (m.allWrittenTokens ++ block)
        parentHash := parent
        hash := combinedHash stdHash block
        completionId } : PromptChunk) =
        blockChunk stdHash kvBuffer partitionKey completionId tokens (start + chunks.length) := by
      unfold blockChunk
      simp only [← hblock, hprefix, hparent.trans h.lastWrittenHash_eq]
    rw [List.append_cons, hchunk]
    refine ⟨hstreams, fun chunk hmem => ?_⟩
    rcases List.mem_cons.mp hmem with rfl | hmem
    · exact ⟨rfl, rfl⟩
    · exact hkeys chunk hmem

/-- A flush writes the pending blocks, with its own keys. -/
theorem Streams.flush {chunks' : List PromptChunk} {m' : TokenBufferManager}
    (h : Streams stdHash kvBuffer start chunks m tokens)
    (hflush : m.flushCompletedBlocks stdHash kvBuffer partitionKey completionId true =
      (chunks', m')) :
    Streams stdHash kvBuffer start (chunks ++ chunks') m' tokens ∧ m'.completedBlocks = [] ∧
      ∀ chunk ∈ chunks', chunk.partitionKey = partitionKey ∧ chunk.completionId = completionId := by
  unfold flushCompletedBlocks at hflush
  split at hflush
  · next hnone =>
    cases hflush
    rw [List.append_nil]
    exact ⟨h, hnone, fun _ hmem => absurd hmem List.not_mem_nil⟩
  · split at hflush
    next chunks₁ m₁ hloop =>
    cases hflush
    obtain ⟨hstreams, hkeys⟩ := Streams.flushLoop (by rfl) h hloop
    exact ⟨hstreams, rfl, hkeys⟩

theorem Streams.converse : ∀ {ops : List ConversationOp} {chunks : List PromptChunk}
    {m : TokenBufferManager} {tokens : List Token},
    Streams stdHash kvBuffer start chunks m tokens →
      Streams stdHash kvBuffer start (chunks ++ (converse stdHash kvBuffer ops m).1)
        (converse stdHash kvBuffer ops m).2 (tokens ++ addedTokens ops) := by
  intro ops
  induction ops with
  | nil =>
    intro chunks m tokens h
    rw [KVStore.converse, addedTokens, List.flatMap_nil, List.append_nil, List.append_nil]
    exact h
  | cons op ops ih =>
    intro chunks m tokens h
    unfold addedTokens at ih ⊢
    rw [List.flatMap_cons, ← List.append_assoc]
    cases op with
    | addTokens more => exact ih (h.addTokens more)
    | flush partitionKey completionId =>
      rcases hflush : m.flushCompletedBlocks stdHash kvBuffer partitionKey completionId true with
        ⟨chunks', m'⟩
      rw [KVStore.converse, hflush, List.append_nil, ← List.append_assoc]
      exact ih (h.flush hflush).1

variable (stdHash kvBuffer) in
/-- The buffer after a conversation. -/
theorem converse_streams (ops : List ConversationOp) :
    Streams stdHash kvBuffer 0 (emitted stdHash kvBuffer ops)
      (converse stdHash kvBuffer ops {}).2 (addedTokens ops) :=
  Streams.initial.converse

theorem emitted_chunk {ops : List ConversationOp} {j : Nat}
    (hj : (emitted stdHash kvBuffer ops)[j]? = some chunk) :
    chunk = blockChunk stdHash kvBuffer chunk.partitionKey chunk.completionId
      (addedTokens ops) j := by
  have hchunk := (converse_streams stdHash kvBuffer ops).chunk j chunk hj
  rwa [Nat.zero_add] at hchunk

/-- The chunks that a conversation emits are those of the blocks of its tokens. -/
theorem emitted_for {ops : List ConversationOp} (h : chunk ∈ emitted stdHash kvBuffer ops) :
    ∃ n, EmittedFor stdHash kvBuffer (addedTokens ops) n chunk := by
  have hstreams := converse_streams stdHash kvBuffer ops
  obtain ⟨j, hj⟩ := List.mem_iff_getElem?.mp h
  obtain ⟨hlt, -⟩ := List.getElem?_eq_some_iff.mp hj
  rw [hstreams.chunk j chunk hj]
  exact ⟨0 + j, blockChunk_emittedFor (hstreams.full (Nat.add_lt_add_left hlt 0))⟩

/-- The flushes of a conversation all use the same keys. -/
def FlushesWith (partitionKey completionId : Text) (ops : List ConversationOp) : Prop :=
  ∀ op ∈ ops, match op with
    | .addTokens _ => True
    | .flush partitionKey' completionId' =>
      partitionKey' = partitionKey ∧ completionId' = completionId

theorem converse_keys : ∀ {ops : List ConversationOp} {m : TokenBufferManager} {tokens : List Token}
    {chunks : List PromptChunk}, Streams stdHash kvBuffer start chunks m tokens →
      FlushesWith partitionKey completionId ops →
      ∀ chunk ∈ (converse stdHash kvBuffer ops m).1,
        chunk.partitionKey = partitionKey ∧ chunk.completionId = completionId := by
  intro ops
  induction ops with
  | nil => exact fun _ _ _ hmem => absurd hmem List.not_mem_nil
  | cons op ops ih =>
    intro m tokens chunks h hops chunk hmem
    have htail : FlushesWith partitionKey completionId ops := fun op hop =>
      hops op (List.mem_cons_of_mem _ hop)
    cases op with
    | addTokens more => exact ih (h.addTokens more) htail chunk hmem
    | flush partitionKey' completionId' =>
      obtain ⟨rfl, rfl⟩ := hops _ List.mem_cons_self
      rcases hflush : m.flushCompletedBlocks stdHash kvBuffer partitionKey' completionId' true with
        ⟨chunks', m'⟩
      rw [KVStore.converse, hflush] at hmem
      obtain ⟨hstreams, -, hkeys⟩ := h.flush hflush
      rcases List.mem_append.mp hmem with hmem | hmem
      · exact hkeys chunk hmem
      · exact ih hstreams htail chunk hmem

/-- The chunks are determined by the tokens, the keys and the number of blocks flushed. -/
theorem emitted_eq_of_flushesWith {ops ops' : List ConversationOp}
    (htokens : addedTokens ops' = addedTokens ops)
    (hlength : (emitted stdHash kvBuffer ops').length = (emitted stdHash kvBuffer ops).length)
    (hops : FlushesWith partitionKey completionId ops)
    (hops' : FlushesWith partitionKey completionId ops') :
    emitted stdHash kvBuffer ops' = emitted stdHash kvBuffer ops := by
  have hinitial : Streams stdHash kvBuffer 0 [] {} [] := Streams.initial
  refine List.ext_getElem hlength fun j hj hj' => ?_
  obtain ⟨hp, hc⟩ := converse_keys hinitial hops _ (List.getElem_mem hj')
  obtain ⟨hp', hc'⟩ := converse_keys hinitial hops' _ (List.getElem_mem hj)
  rw [emitted_chunk (List.getElem?_eq_getElem hj), emitted_chunk (List.getElem?_eq_getElem hj'),
    htokens]
  unfold emitted at hp hc hp' hc' ⊢
  rw [hp, hc, hp', hc']

theorem Streams.totals (h : Streams stdHash kvBuffer start chunks m tokens) :
    m.allWrittenTokens = tokens.take m.totalTokensWritten ∧
      m.totalTokensWritten + m.getTotalTokens = m.totalTokensProcessed := by
  have htokens := h.buffers.tokens_eq
  constructor
  · rw [← h.all, ← htokens, List.take_left]
  · rw [h.processed, ← htokens, List.length_append, List.length_append, h.all,
      h.buffers.blocked.length_flatten]
    rfl

/-- The stream of blocks does not depend on the portions in which tokens are added, nor on when they
are flushed: chunk `j` is that of block `j` of all tokens added, the lists of the buffer hold the
blocks written so far, and its counters add up. -/
theorem emitted_stream (stdHash : Token → Hash) (kvBuffer : List Token → List UInt8)
    (ops : List ConversationOp) {m : TokenBufferManager} {chunks : List PromptChunk}
    (h : converse stdHash kvBuffer ops {} = (chunks, m)) :
    (∀ (j : Nat) (chunk : PromptChunk), chunks[j]? = some chunk →
      (j + 1) * blockSize ≤ (addedTokens ops).length ∧
      chunk = blockChunk stdHash kvBuffer chunk.partitionKey chunk.completionId
        (addedTokens ops) j) ∧
    m.totalTokensWritten = chunks.length * blockSize ∧
    m.allWrittenTokens = (addedTokens ops).take m.totalTokensWritten ∧
    m.writtenBlockHashes = chunks.map (·.hash) ∧
    m.allWrittenTokens ++ (m.completedBlocks.flatten ++ m.currentBlock) = addedTokens ops ∧
    (∀ block ∈ m.completedBlocks, block.length = blockSize) ∧ m.currentBlock.length < blockSize ∧
    m.totalTokensWritten + m.getTotalTokens = m.totalTokensProcessed ∧
    m.totalTokensProcessed = (addedTokens ops).length ∧
    ∀ ops', addedTokens ops' = addedTokens ops →
      (emitted stdHash kvBuffer ops').length = chunks.length →
      (∀ (j : Nat) (chunk chunk' : PromptChunk), chunks[j]? = some chunk →
        (emitted stdHash kvBuffer ops')[j]? = some chunk' →
        chunk' = { chunk with
          partitionKey := chunk'.partitionKey
          completionId := chunk'.completionId }) ∧
      ∀ partitionKey completionId, FlushesWith partitionKey completionId ops →
        FlushesWith partitionKey completionId ops' → emitted stdHash kvBuffer ops' = chunks := by
  obtain rfl : emitted stdHash kvBuffer ops = chunks := congrArg Prod.fst h
  have hstreams := converse_streams stdHash kvBuffer ops
  rw [h] at hstreams
  obtain ⟨hall, htotal⟩ := hstreams.totals
  refine ⟨fun j chunk hj => ⟨?_, emitted_chunk hj⟩, ?_, hall, ?_, hstreams.buffers.tokens_eq,
    hstreams.buffers.complete, hstreams.buffers.current, htotal, hstreams.processed,
    fun ops' htokens hlength => ⟨fun j chunk chunk' hj hj' => ?_, ?_⟩⟩
  · obtain ⟨hlt, -⟩ := List.getElem?_eq_some_iff.mp hj
    exact hstreams.full (hlt.trans_eq (Nat.zero_add _).symm)
  · rw [hstreams.written, Nat.zero_add]
  · rw [hstreams.hashes, Nat.zero_add]
    refine List.ext_getElem (by simp) fun j hj hj' => ?_
    rw [List.length_map] at hj'
    rw [List.getElem_map, List.getElem_map, List.getElem_range,
      emitted_chunk (List.getElem?_eq_getElem hj')]
    rfl
  · rw [emitted_chunk hj]
    have hchunk := emitted_chunk hj'
    rwa [htokens] at hchunk
  · exact fun partitionKey completionId hops hops' =>
      emitted_eq_of_flushesWith htokens hlength hops hops'

end

/-- Two blocks and four tokens more. -/
def turnTokens : List Token := List.replicate blockSize 7 ++ List.replicate 132 9

def oneTurn : List ConversationOp := [.addTokens turnTokens, .flush [] []]

/-- The same tokens, in two portions; the flush between them writes the parent of the second
block. -/
def twoTurns : List ConversationOp :=
  [.addTokens (turnTokens.take 200), .flush [] [], .addTokens (turnTokens.drop 200), .flush [] []]

theorem emitted_stream_turns :
    emitted Int64.toUInt64 (fun _ => []) twoTurns =
      emitted Int64.toUInt64 (fun _ => []) oneTurn ∧
    (emitted Int64.toUInt64 (fun _ => []) twoTurns).map
        (fun chunk => (chunk.parentHash, chunk.hash)) =
      [(0, combinedHash Int64.toUInt64 (List.replicate blockSize 7)),
        (combinedHash Int64.toUInt64 (List.replicate blockSize 7),
          combinedHash Int64.toUInt64 (List.replicate blockSize 9))] := by
  have hstream := emitted_stream Int64.toUInt64 (fun _ => []) oneTurn (Prod.eta _).symm
  obtain ⟨-, -, -, -, -, -, -, -, -, hindependent⟩ := hstream
  have hturns : emitted Int64.toUInt64 (fun _ => []) twoTurns =
      emitted Int64.toUInt64 (fun _ => []) oneTurn := by
    apply (hindependent twoTurns (by decide +kernel) (by decide +kernel)).2 [] []
    · simp [FlushesWith, oneTurn]
    · simp [FlushesWith, twoTurns]
  refine ⟨hturns, ?_⟩
  rw [hturns]
  decide +kernel

end KVStore
