import KVStore.TokenBuffer

/-!
# Retrying a failed flush

`flushCompletedBlocks` moves the counters and lists of the buffer on with every block that it hands
to `WriteAsync`, before any future is ready, and keeps the blocks when one throws. The next flush
writes them again, so it counts them twice, and the first of them as a child of the last
(`retry_chunks`, `retry_state`). `retrySafe_iff`: after no failed flush is the retry what one
successful flush would have been.
-/

namespace KVStore

open TokenBufferManager

section

variable (stdHash : Token → Hash) (kvBuffer : List Token → List UInt8)
  (partitionKey completionId : Text)

/-- One of the futures of the batch throws. -/
def flushThrows (m : TokenBufferManager) (throws : Nat → Bool) : Bool :=
  (List.range m.completedBlocks.length).any throws

/-- `flushCompletedBlocks` when the futures given by `throws` do so. -/
def flushWith (m : TokenBufferManager) (throws : Nat → Bool) :
    List PromptChunk × TokenBufferManager :=
  m.flushCompletedBlocks stdHash kvBuffer partitionKey completionId (!flushThrows m throws)

/-- A flush that nothing goes wrong in. -/
def flushOnce (m : TokenBufferManager) : List PromptChunk × TokenBufferManager :=
  flushWith stdHash kvBuffer partitionKey completionId m fun _ => false

/-- The flush after the failed one, in a later turn that has added tokens. -/
def retryFlush (m : TokenBufferManager) (throws : Nat → Bool) (more : List Token) :
    List PromptChunk × TokenBufferManager :=
  flushOnce stdHash kvBuffer partitionKey completionId
    ((flushWith stdHash kvBuffer partitionKey completionId m throws).2.addTokens more)

/-- The retry leaves what one successful flush of the blocks would, and emits the blocks of the
first attempt with the same parents. -/
structure RetrySafe (m : TokenBufferManager) (throws : Nat → Bool) (more : List Token) :
    Prop where
  totalTokensWritten :
    (retryFlush stdHash kvBuffer partitionKey completionId m throws more).2.totalTokensWritten =
      (flushOnce stdHash kvBuffer partitionKey completionId
        (m.addTokens more)).2.totalTokensWritten
  writtenBlockHashes :
    (retryFlush stdHash kvBuffer partitionKey completionId m throws more).2.writtenBlockHashes =
      (flushOnce stdHash kvBuffer partitionKey completionId
        (m.addTokens more)).2.writtenBlockHashes
  allWrittenTokens :
    (retryFlush stdHash kvBuffer partitionKey completionId m throws more).2.allWrittenTokens =
      (flushOnce stdHash kvBuffer partitionKey completionId (m.addTokens more)).2.allWrittenTokens
  lastWrittenHash :
    (retryFlush stdHash kvBuffer partitionKey completionId m throws more).2.lastWrittenHash =
      (flushOnce stdHash kvBuffer partitionKey completionId (m.addTokens more)).2.lastWrittenHash
  parentHash :
    ((flushWith stdHash kvBuffer partitionKey completionId m throws).1.map
      PromptChunk.parentHash) <+:
      (retryFlush stdHash kvBuffer partitionKey completionId m throws more).1.map
        PromptChunk.parentHash

variable {stdHash kvBuffer partitionKey completionId}

/-! ## What a flush writes -/

/-- The hash of the last block written, after the blocks. -/
def lastHashAfter (stdHash : Token → Hash) (blocks : List (List Token)) (parent : Hash) : Hash :=
  ((blocks.map (combinedHash stdHash)).getLast?).getD parent

theorem lastHashAfter_cons (block : List Token) (blocks : List (List Token)) (parent : Hash) :
    lastHashAfter stdHash (block :: blocks) parent =
      lastHashAfter stdHash blocks (combinedHash stdHash block) := by
  unfold lastHashAfter
  rw [List.map_cons, List.getLast?_cons]
  rfl

/-- The parents of the chunks: the hash before them, and then the hashes of the blocks. -/
theorem flushLoop_parents (blocks : List (List Token)) (parent : Hash) (m : TokenBufferManager) :
    (flushLoop stdHash kvBuffer partitionKey completionId blocks parent m).1.map
        PromptChunk.parentHash =
      (parent :: blocks.map (combinedHash stdHash)).take blocks.length := by
  induction blocks generalizing parent m with
  | nil => rfl
  | cons block blocks ih =>
    simp only [flushLoop, List.map_cons, List.length_cons, List.take_succ_cons, List.cons.injEq,
      true_and]
    exact ih ..

/-- What the loop does to the buffer. -/
theorem flushLoop_state (blocks : List (List Token)) (parent : Hash) (m : TokenBufferManager) :
    (flushLoop stdHash kvBuffer partitionKey completionId blocks parent m).2 = {
      m with
      writtenBlockHashes := m.writtenBlockHashes ++ blocks.map (combinedHash stdHash)
      allWrittenTokens := m.allWrittenTokens ++ blocks.flatten
      lastWrittenHash := lastHashAfter stdHash blocks m.lastWrittenHash
      totalTokensWritten := m.totalTokensWritten + blocks.length * blockSize } := by
  induction blocks generalizing parent m with
  | nil => simp [flushLoop, lastHashAfter]
  | cons block blocks ih =>
    simp only [flushLoop, ih, lastHashAfter_cons, List.map_cons, List.flatten_cons,
      List.length_cons, List.append_assoc, List.singleton_append, Nat.succ_mul, Nat.add_assoc,
      Nat.add_comm blockSize]

/-- The buffer after a flush, without or with its blocks. -/
theorem flush_state (m : TokenBufferManager) (throws : Nat → Bool) :
    (flushWith stdHash kvBuffer partitionKey completionId m throws).2 = {
      m with
      completedBlocks := if flushThrows m throws then m.completedBlocks else []
      writtenBlockHashes :=
        m.writtenBlockHashes ++ m.completedBlocks.map (combinedHash stdHash)
      allWrittenTokens := m.allWrittenTokens ++ m.completedBlocks.flatten
      lastWrittenHash := lastHashAfter stdHash m.completedBlocks m.lastWrittenHash
      totalTokensWritten := m.totalTokensWritten + m.completedBlocks.length * blockSize } := by
  unfold flushWith flushCompletedBlocks
  by_cases hempty : m.completedBlocks = []
  · have hnone : flushThrows m throws = false := by
      rw [flushThrows, hempty]
      rfl
    rw [if_pos hempty, hnone]
    obtain ⟨completedBlocks⟩ := m
    subst hempty
    simp [lastHashAfter]
  · rw [if_neg hempty]
    cases hthrows : flushThrows m throws with
    | true => exact flushLoop_state ..
    | false =>
      simp only [Bool.not_false, if_true, flushLoop_state]
      rfl

/-- The parents of the chunks that a flush emits. -/
theorem flush_parents (m : TokenBufferManager) (throws : Nat → Bool) :
    (flushWith stdHash kvBuffer partitionKey completionId m throws).1.map PromptChunk.parentHash =
      (m.lastWrittenHash :: m.completedBlocks.map (combinedHash stdHash)).take
        m.completedBlocks.length := by
  unfold flushWith flushCompletedBlocks
  by_cases hempty : m.completedBlocks = []
  · rw [if_pos hempty, hempty]
    rfl
  · rw [if_neg hempty]
    exact flushLoop_parents ..

/-! ## The retry -/

/-- Which blocks are complete does not depend on what has been written. -/
theorem addTokens_blocks {m m' : TokenBufferManager} (more : List Token)
    (hcompleted : m.completedBlocks = m'.completedBlocks)
    (hcurrent : m.currentBlock = m'.currentBlock) :
    (m.addTokens more).completedBlocks = (m'.addTokens more).completedBlocks := by
  induction more generalizing m m' with
  | nil => exact hcompleted
  | cons token more ih =>
    apply ih
    · unfold addToken
      dsimp only
      rw [hcurrent, hcompleted]
      split <;> rfl
    · unfold addToken
      dsimp only
      rw [hcurrent]
      split <;> rfl

variable {m : TokenBufferManager} {throws : Nat → Bool}

/-- The blocks that the retry flushes: those of the failed flush, and newer ones. -/
theorem retry_blocks (hthrows : flushThrows m throws = true) (more : List Token) :
    ((flushWith stdHash kvBuffer partitionKey completionId m throws).2.addTokens
      more).completedBlocks = (m.addTokens more).completedBlocks := by
  apply addTokens_blocks
  · rw [flush_state, hthrows]
    rfl
  · rw [flush_state]

variable (stdHash kvBuffer partitionKey completionId) in
/-- The retry counts the blocks of the failed flush a second time, and does the rest as one flush
would. -/
theorem retry_state (hthrows : flushThrows m throws = true) (more : List Token) :
    (retryFlush stdHash kvBuffer partitionKey completionId m throws more).2.totalTokensWritten =
        m.totalTokensWritten + m.completedBlocks.length * blockSize +
          (m.addTokens more).completedBlocks.length * blockSize ∧
      (retryFlush stdHash kvBuffer partitionKey completionId m throws more).2.writtenBlockHashes =
        m.writtenBlockHashes ++ m.completedBlocks.map (combinedHash stdHash) ++
          (m.addTokens more).completedBlocks.map (combinedHash stdHash) ∧
      (retryFlush stdHash kvBuffer partitionKey completionId m throws more).2.allWrittenTokens =
        m.allWrittenTokens ++ m.completedBlocks.flatten ++
          (m.addTokens more).completedBlocks.flatten ∧
      (retryFlush stdHash kvBuffer partitionKey completionId m throws more).2.lastWrittenHash =
        lastHashAfter stdHash (m.addTokens more).completedBlocks
          (lastHashAfter stdHash m.completedBlocks m.lastWrittenHash) := by
  obtain ⟨-, hwritten, hall, hhashes, hlast⟩ := addTokens_written more
    (flushWith stdHash kvBuffer partitionKey completionId m throws).2
  unfold retryFlush flushOnce
  rw [flush_state _ (fun _ => false), retry_blocks hthrows, hwritten, hall, hhashes, hlast,
    flush_state]
  exact ⟨rfl, rfl, rfl, rfl⟩

/-- The retry emits the first block as a child of the last block of the failed flush, and each other
one as a child of the block before it. -/
theorem retry_chunks (hthrows : flushThrows m throws = true) (more : List Token) :
    (retryFlush stdHash kvBuffer partitionKey completionId m throws more).1.map
        PromptChunk.parentHash =
      (lastHashAfter stdHash m.completedBlocks m.lastWrittenHash ::
        (m.addTokens more).completedBlocks.map (combinedHash stdHash)).take
          (m.addTokens more).completedBlocks.length := by
  obtain ⟨-, -, -, -, hlast⟩ := addTokens_written more
    (flushWith stdHash kvBuffer partitionKey completionId m throws).2
  unfold retryFlush flushOnce
  rw [flush_parents, retry_blocks hthrows, hlast, flush_state]

end

/-- A flush whose futures throw can not be retried safely: the retry is what one successful flush
would have been exactly when nothing threw. -/
theorem retrySafe_iff (stdHash : Token → Hash) (kvBuffer : List Token → List UInt8)
    (partitionKey completionId : Text) (m : TokenBufferManager) (throws : Nat → Bool)
    (more : List Token) :
    (flushThrows m throws = true →
      RetrySafe stdHash kvBuffer partitionKey completionId m throws more) ↔
      ∀ i < m.completedBlocks.length, throws i = false := by
  constructor
  · intro h
    have hsafe : ¬ flushThrows m throws = true := by
      intro hthrows
      obtain ⟨htotal, -⟩ :=
        retry_state stdHash kvBuffer partitionKey completionId hthrows more
      obtain ⟨-, hwritten, -⟩ := addTokens_written more m
      have honce := (h hthrows).totalTokensWritten
      unfold flushOnce at honce
      rw [htotal, flush_state] at honce
      dsimp only at honce
      rw [hwritten] at honce
      -- so the failed flush had no block, and no future
      obtain ⟨i, hi, -⟩ := List.any_eq_true.mp hthrows
      have hpos : 0 < m.completedBlocks.length * blockSize :=
        Nat.mul_pos (Nat.zero_lt_of_lt (List.mem_range.mp hi)) (by decide)
      omega
    intro i hi
    by_contra hthrow
    apply hsafe
    exact List.any_eq_true.mpr ⟨i, List.mem_range.mpr hi, Bool.not_eq_false _ ▸ hthrow⟩
  · intro h hthrows
    obtain ⟨i, hi, hthrow⟩ := List.any_eq_true.mp hthrows
    rw [h i (List.mem_range.mp hi)] at hthrow
    cases hthrow

/-- One block of zeros is complete, and its write fails. -/
def failedFlush : TokenBufferManager where
  completedBlocks := [List.replicate blockSize 0]
  totalTokensProcessed := blockSize

/-- The retry counts 256 tokens where one flush counts 128. -/
theorem retry_countsTwice : flushThrows failedFlush (fun _ => true) = true ∧
    (retryFlush Int64.toUInt64 (fun _ => []) [] [] failedFlush (fun _ => true)
      []).2.totalTokensWritten = 256 ∧
    ¬ RetrySafe Int64.toUInt64 (fun _ => []) [] [] failedFlush (fun _ => true) [] := by
  have hthrows : flushThrows failedFlush (fun _ => true) = true := by decide
  refine ⟨hthrows, by decide +kernel, fun h => ?_⟩
  have htotal := h.totalTokensWritten
  exact absurd htotal (by decide +kernel)

end KVStore
