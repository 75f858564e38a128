import KVStore.Chain
import KVStore.StreamOrder

/-!
# Cache validation (`validateCacheRetrieval`)

The client looks its tokens up, reads the blocks back and compares the tokens of each chunk, as many
as the chunk has (`validate_eq_true_iff`). `ReadAsync` fills no tokens in, and no answer of a stream
carries any (`AnswersStreams.tokens_eq_nil`), so nothing is compared. `validation_sound_iff`: what a
validation that passes reports is true only where there is no block to verify.
-/

namespace KVStore

open Transition

/-! ## The function -/

/-- What `Lookup` and `StreamingReadAsync` of the client's store answer. -/
structure StoreAnswers where
  lookup : List Token → List Hash → LookupResult
  streamingRead : List Text → List (Bool × PromptChunk)

/-- The counters that the validation changes. -/
structure CacheStats where
  tokensFromCache : Int32 := 0
  cacheHits : Int32 := 0
  validationAttempts : Int32 := 0
  validationSuccesses : Int32 := 0
  validationFailures : Int32 := 0
  tokensMissingFromCache : Int32 := 0
  tokensFailedToRead : Int32 := 0
  tokensMismatched : Int32 := 0
deriving DecidableEq

/-- The loop over the tokens of a chunk, against the expected ones from the block on. The code has
no bound for the expected tokens; a token past their end counts as different here. -/
def tokensDiffer : List Token → List Token → Bool
  | [], _ => false
  | _ :: _, [] => true
  | token :: tokens, expected :: rest => if token ≠ expected then true else tokensDiffer tokens rest

/-- The loop over the results, from result `i` on. -/
def verifyBlocks (expectedTokens : List Token) :
    List (Bool × PromptChunk) → Nat → CacheStats → Bool → CacheStats × Bool
  | [], _, stats, hasErrors => (stats, hasErrors)
  | (success, chunk) :: readResults, i, stats, hasErrors =>
    if success = false ∨ chunk.bufferSize = 0 then
      verifyBlocks expectedTokens readResults (i + 1)
        { stats with tokensFailedToRead := stats.tokensFailedToRead + 128 } true
    else if tokensDiffer chunk.tokens (expectedTokens.drop (i * blockSize)) then
      verifyBlocks expectedTokens readResults (i + 1)
        { stats with tokensMismatched := stats.tokensMismatched + 1 } true
    else verifyBlocks expectedTokens readResults (i + 1) stats hasErrors

/-- `matchedLength`, which is `cachedBlocks * 128` as an `int`. -/
def LookupResult.matchedInt (r : LookupResult) : Int32 := Int32.ofNat r.cachedBlocks * 128

/-- The verdict, once all blocks have been looked at. -/
def updateStats (matchedLength : Int32) (checked : CacheStats × Bool) : Bool × CacheStats :=
  let (stats, hasErrors) := checked
  if hasErrors then
    (false, { stats with validationFailures := stats.validationFailures + 1 })
  else
    (true, { stats with
      tokensFromCache := stats.tokensFromCache + matchedLength
      cacheHits := stats.cacheHits + 1
      validationSuccesses := stats.validationSuccesses + 1 })

def validateCacheRetrieval (kvStore : StoreAnswers) (expectedTokens : List Token)
    (blockHashes : List Hash) (stats : CacheStats) : Bool × CacheStats :=
  if expectedTokens = [] then (true, stats)
  else
    let stats := { stats with validationAttempts := stats.validationAttempts + 1 }
    let lookupResult := kvStore.lookup expectedTokens blockHashes
    let size := Int32.ofNat expectedTokens.length
    if lookupResult.cachedBlocks = 0 then
      (false, { stats with
        tokensMissingFromCache := stats.tokensMissingFromCache + size
        validationFailures := stats.validationFailures + 1 })
    else
      let partialMatch : Bool := lookupResult.matchedInt ≠ size
      let stats := if partialMatch then { stats with
          tokensMissingFromCache :=
            stats.tokensMissingFromCache + (size - lookupResult.matchedInt) }
        else stats
      let readResults := kvStore.streamingRead (lookupResult.locations.map BlockLocation.location)
      updateStats lookupResult.matchedInt
        (verifyBlocks expectedTokens readResults 0 stats partialMatch)

/-! ## When the validation passes -/

theorem tokensDiffer_eq_false_iff {tokens expected : List Token} :
    tokensDiffer tokens expected = false ↔ tokens <+: expected := by
  induction tokens generalizing expected with
  | nil => simp [tokensDiffer]
  | cons token tokens ih =>
    cases expected with
    | nil => simp [tokensDiffer]
    | cons e rest =>
      rw [List.cons_prefix_cons, ← ih, tokensDiffer]
      by_cases he : token = e <;> simp [he]

/-- The result was read, has a buffer, and its tokens are the expected ones as far as they go. -/
def Verifies (expectedTokens : List Token) (i : Nat) (result : Bool × PromptChunk) : Prop :=
  result.1 = true ∧ result.2.bufferSize ≠ 0 ∧
    result.2.tokens <+: expectedTokens.drop (i * blockSize)

theorem verifyBlocks_errors {expectedTokens : List Token} {readResults : List (Bool × PromptChunk)}
    {i : Nat} {stats : CacheStats} {hasErrors : Bool} :
    (verifyBlocks expectedTokens readResults i stats hasErrors).2 = false ↔
      hasErrors = false ∧
        ∀ k result, readResults[k]? = some result → Verifies expectedTokens (i + k) result := by
  induction readResults generalizing i stats hasErrors with
  | nil => simp [verifyBlocks]
  | cons result readResults ih =>
    obtain ⟨success, chunk⟩ := result
    -- the first result, and the ones after it
    have hsplit : (∀ k result, ((success, chunk) :: readResults)[k]? = some result →
        Verifies expectedTokens (i + k) result) ↔ Verifies expectedTokens i (success, chunk) ∧
          ∀ k result, readResults[k]? = some result →
            Verifies expectedTokens (i + 1 + k) result := by
      constructor
      · intro h
        refine ⟨h 0 _ rfl, fun k result hk => ?_⟩
        have hrest := h (k + 1) result hk
        rwa [← Nat.add_assoc, Nat.add_right_comm] at hrest
      · rintro ⟨hfirst, hrest⟩ k result hk
        cases k with
        | zero =>
          cases hk
          exact hfirst
        | succ k =>
          rw [← Nat.add_assoc, Nat.add_right_comm]
          exact hrest k result hk
    rw [hsplit, verifyBlocks]
    split
    · next hfail =>
      rw [ih]
      simp only [Bool.true_eq_false, false_and, false_iff, not_and]
      rintro - ⟨hsuccess, hbuffer, -⟩
      rcases hfail with hfail | hfail
      · cases hfail.symm.trans hsuccess
      · exact absurd hfail hbuffer
    · next hread =>
      obtain ⟨hsuccess, hbuffer⟩ := not_or.mp hread
      split
      · next hdiffer =>
        rw [ih]
        simp only [Bool.true_eq_false, false_and, false_iff, not_and]
        rintro - ⟨-, -, htokens⟩
        rw [tokensDiffer_eq_false_iff.mpr htokens] at hdiffer
        cases hdiffer
      · next hsame =>
        have htokens := tokensDiffer_eq_false_iff.mp (Bool.eq_false_iff.mpr hsame)
        have hverifies : Verifies expectedTokens i (success, chunk) :=
          ⟨by simpa using hsuccess, hbuffer, htokens⟩
        rw [ih]
        simp [hverifies]

theorem updateStats_eq_true_iff {matchedLength : Int32} {checked : CacheStats × Bool} :
    (updateStats matchedLength checked).1 = true ↔ checked.2 = false := by
  obtain ⟨stats, hasErrors⟩ := checked
  unfold updateStats
  cases hasErrors <;> simp

section

variable (kvStore : StoreAnswers) (expectedTokens : List Token) (blockHashes : List Hash)

/-- The results that the validation reads. -/
def readResults : List (Bool × PromptChunk) :=
  kvStore.streamingRead
    ((kvStore.lookup expectedTokens blockHashes).locations.map BlockLocation.location)

/-- The lookup finds as many tokens as expected, and every result passes its checks. -/
structure Passes : Prop where
  found : (kvStore.lookup expectedTokens blockHashes).cachedBlocks ≠ 0
  complete : (kvStore.lookup expectedTokens blockHashes).matchedInt =
    Int32.ofNat expectedTokens.length
  verifies : ∀ i result, (readResults kvStore expectedTokens blockHashes)[i]? = some result →
    Verifies expectedTokens i result

/-- The lookup finds as many tokens as expected, and every read succeeds with a buffer. -/
structure Retrieved : Prop where
  found : (kvStore.lookup expectedTokens blockHashes).cachedBlocks ≠ 0
  complete : (kvStore.lookup expectedTokens blockHashes).matchedInt =
    Int32.ofNat expectedTokens.length
  read : ∀ result ∈ readResults kvStore expectedTokens blockHashes,
    result.1 = true ∧ result.2.bufferSize ≠ 0

/-- Every full block of the tokens was read back, with its tokens. -/
def TokensVerified : Prop :=
  ∀ i < expectedTokens.length / blockSize, ∃ success chunk,
    (readResults kvStore expectedTokens blockHashes)[i]? = some (success, chunk) ∧
      chunk.tokens = blockTokens expectedTokens i

end

variable {kvStore : StoreAnswers} {expectedTokens : List Token} {blockHashes : List Hash}

theorem validate_eq_true_iff {stats : CacheStats} :
    (validateCacheRetrieval kvStore expectedTokens blockHashes stats).1 = true ↔
      expectedTokens = [] ∨ Passes kvStore expectedTokens blockHashes := by
  unfold validateCacheRetrieval
  by_cases hempty : expectedTokens = []
  · simp [hempty]
  · rw [if_neg hempty]
    dsimp only
    by_cases hfound : (kvStore.lookup expectedTokens blockHashes).cachedBlocks = 0
    · rw [if_pos hfound]
      simp only [Bool.false_eq_true, hempty, false_or, false_iff]
      exact fun h => h.found hfound
    · rw [if_neg hfound, updateStats_eq_true_iff, verifyBlocks_errors]
      simp only [Nat.zero_add, decide_eq_false_iff_not, not_not, hempty, false_or]
      exact ⟨fun h => ⟨hfound, h.1, h.2⟩, fun h => ⟨h.complete, h.verifies⟩⟩

/-! ## What a stream can deliver -/

/-- The responses come from the service, for whatever requests and in whatever state. -/
def FromService (responses : List ReadResponse) : Prop :=
  ∀ response ∈ responses, ∃ (service : ReadService) (request : ReadRequest),
    response = service.response request

/-- The results of streaming reads are made of responses of the service, in any order, and of empty
ones where the stream broke. -/
def AnswersStreams (kvStore : StoreAnswers) : Prop :=
  ∀ locations, ∃ responses, FromService responses ∧
    kvStore.streamingRead locations = streamingResults locations responses

/-- A chunk that the client takes from a response has no tokens. -/
theorem ReadService.response_tokens (service : ReadService) (request : ReadRequest) :
    (service.response request).result.2.tokens = [] := by
  unfold response
  split
  · rfl
  · cases hstore : service.resolveStore request.resource_name request.container_name with
    | none => rfl
    | some store =>
      dsimp only
      unfold threadResponse
      cases hread : readAsync store request.location with
      | error e => rfl
      | ok answer =>
        obtain ⟨found, chunk⟩ := answer
        cases found with
        | false => rfl
        | true =>
          show chunk.toProtoChunk.toPromptChunk.tokens = []
          rw [toPromptChunk_toProtoChunk]
          unfold readAsync at hread
          split at hread
          · cases hread
          · obtain ⟨parentHash, -, hread⟩ := bind_eq_ok hread
            obtain ⟨hash, -, hread⟩ := bind_eq_ok hread
            cases hread
            rfl

theorem AnswersStreams.tokens_eq_nil (h : AnswersStreams kvStore) {locations : List Text}
    {result : Bool × PromptChunk} (hresult : result ∈ kvStore.streamingRead locations) :
    result.2.tokens = [] := by
  obtain ⟨responses, hservice, heq⟩ := h locations
  rw [heq, streamingResults, List.mem_append] at hresult
  rcases hresult with hresult | hresult
  · obtain ⟨response, hmem, rfl⟩ := List.mem_map.mp hresult
    obtain ⟨service, request, rfl⟩ := hservice response hmem
    exact service.response_tokens request
  · rw [List.eq_of_mem_replicate hresult]
    rfl

/-- With the service's chunks, the validation passes whenever everything can be read. -/
theorem AnswersStreams.passes_iff (h : AnswersStreams kvStore) :
    Passes kvStore expectedTokens blockHashes ↔ Retrieved kvStore expectedTokens blockHashes := by
  constructor
  · intro hp
    refine ⟨hp.found, hp.complete, fun result hresult => ?_⟩
    obtain ⟨i, hi⟩ := List.mem_iff_getElem?.mp hresult
    obtain ⟨hsuccess, hbuffer, -⟩ := hp.verifies i result hi
    exact ⟨hsuccess, hbuffer⟩
  · intro hr
    refine ⟨hr.found, hr.complete, fun i result hi => ?_⟩
    have hmem := List.mem_of_getElem? hi
    obtain ⟨hsuccess, hbuffer⟩ := hr.read result hmem
    refine ⟨hsuccess, hbuffer, ?_⟩
    rw [h.tokens_eq_nil hmem]
    exact List.nil_prefix

/-- Whatever the service answers, a validation that passes reports the truth exactly when there is
no full block to verify, or something is missing or can not be read, so that it does not pass. -/
theorem validation_sound_iff (h : AnswersStreams kvStore) (expectedTokens : List Token)
    (blockHashes : List Hash) (stats : CacheStats) :
    ((validateCacheRetrieval kvStore expectedTokens blockHashes stats).1 = true →
      TokensVerified kvStore expectedTokens blockHashes) ↔
      expectedTokens.length < blockSize ∨ ¬ Retrieved kvStore expectedTokens blockHashes := by
  rw [validate_eq_true_iff, h.passes_iff]
  constructor
  · intro hsound
    by_contra hno
    obtain ⟨hlen, hretrieved⟩ := not_or.mp hno
    have hpos : 0 < expectedTokens.length / blockSize :=
      Nat.div_pos (Nat.le_of_not_lt hlen) (by decide)
    obtain ⟨success, chunk, hi, htokens⟩ := hsound (Or.inr (not_not.mp hretrieved)) 0 hpos
    have hnil : chunk.tokens = [] := h.tokens_eq_nil (List.mem_of_getElem? hi)
    rw [hnil] at htokens
    have hblock := congrArg List.length htokens
    rw [blockTokens, Nat.zero_mul, List.drop_zero, List.length_take_of_le (Nat.le_of_not_lt hlen),
      List.length_nil] at hblock
    cases hblock
  · rintro (hlen | hno) hpass
    · intro i hi
      rw [Nat.div_eq_of_lt hlen] at hi
      exact absurd hi (Nat.not_lt_zero i)
    · rcases hpass with rfl | hretrieved
      · intro i hi
        exact absurd hi (Nat.not_lt_zero i)
      · exact absurd hretrieved hno

/-! ## Runs of a stream -/

namespace Operation

def written : Operation → Option ReadResponse
  | .startWrite response => some response
  | _ => none

end Operation

section

variable {service : ReadService} {requests : List ReadRequest} {s s' : Stream} {e : StreamEvent}

/-- Everything that a stream has queued, sent or delivered is an answer of the service. -/
def Stream.Answers (service : ReadService) (s : Stream) : Prop :=
  ∀ response ∈ s.delivered ++ (s.writes ++ s.reactor.response_queue_),
    ∃ request, response = service.response request

theorem Stream.foldl_start_members (operations : List Operation) (s : Stream) :
    (operations.foldl start s).reactor = s.reactor ∧
      (operations.foldl start s).delivered = s.delivered ∧
      (operations.foldl start s).writes = s.writes ++ operations.filterMap Operation.written := by
  induction operations generalizing s with
  | nil => exact ⟨rfl, rfl, (List.append_nil _).symm⟩
  | cons o operations ih =>
    rw [List.foldl_cons]
    obtain ⟨hreactor, hdelivered, hwrites⟩ := ih (s.start o)
    rw [hreactor, hdelivered, hwrites]
    cases o with
    | startWrite response =>
      rw [List.filterMap_cons_some (f := Operation.written) (b := response) rfl]
      exact ⟨rfl, rfl, List.append_assoc ..⟩
    | startRead | finish | startThread => exact ⟨rfl, rfl, rfl⟩

/-- What is sent comes out of the queue. -/
theorem StreamingReadReactor.trySendNextResponse_queued (r : StreamingReadReactor) :
    r.trySendNextResponse.2.filterMap Operation.written ++
      r.trySendNextResponse.1.response_queue_ = r.response_queue_ := by
  rcases r.trySendNextResponse_cases with ⟨he, -⟩ | ⟨response, queue, -, hq, he⟩
  · rw [he]
    rfl
  · rw [he, hq]
    rfl

theorem StreamingReadReactor.finishIfDone_written (r : StreamingReadReactor) :
    r.finishIfDone.filterMap Operation.written = [] := by
  unfold finishIfDone
  split <;> rfl

theorem StreamingReadReactor.pushResponse_queued (r : StreamingReadReactor)
    (response : ReadResponse) :
    (r.pushResponse response).2.filterMap Operation.written ++
      (r.pushResponse response).1.response_queue_ = r.response_queue_ ++ [response] :=
  trySendNextResponse_queued _

variable (service) in
/-- A request is answered at once, or starts a thread. -/
theorem StreamingReadReactor.processRequest_queued (r : StreamingReadReactor)
    (request : ReadRequest) :
    (r.processRequest service request).2.filterMap Operation.written ++
        (r.processRequest service request).1.response_queue_ =
      r.response_queue_ ++ [service.response request] ∨
    (r.processRequest service request).2.filterMap Operation.written ++
        (r.processRequest service request).1.response_queue_ = r.response_queue_ := by
  unfold processRequest
  by_cases hincomplete : ReadService.Incomplete request
  · have hresponse : service.response request = ReadService.invalidRequest := if_pos hincomplete
    rw [if_pos hincomplete, hresponse]
    exact Or.inl (pushResponse_queued ..)
  · rw [if_neg hincomplete]
    cases hstore : service.resolveStore request.resource_name request.container_name with
    | none =>
      have hresponse : service.response request = ReadService.noStorage := by
        unfold ReadService.response
        rw [if_neg hincomplete, hstore]
      rw [hresponse]
      exact Or.inl (pushResponse_queued ..)
    | some store => exact Or.inr rfl

/-- A callback whose writes and queue hold nothing new but an answer keeps the stream's answers. -/
theorem Stream.Answers.run (h : s.Answers service) (s₀ : Stream)
    {callback : StreamingReadReactor × List Operation}
    (hold : ∀ response ∈ s₀.delivered ++ s₀.writes,
      response ∈ s.delivered ++ (s.writes ++ s.reactor.response_queue_))
    (hnew : ∀ response ∈ callback.2.filterMap Operation.written ++ callback.1.response_queue_,
      response ∈ s.delivered ++ (s.writes ++ s.reactor.response_queue_) ∨
        ∃ request, response = service.response request) :
    (s₀.run callback).Answers service := by
  obtain ⟨hreactor, hdelivered, hwrites⟩ :=
    foldl_start_members callback.2 { s₀ with reactor := callback.1 }
  intro response hresponse
  unfold Stream.run at hresponse
  rw [hreactor, hdelivered, hwrites, List.append_assoc, ← List.append_assoc, List.mem_append]
    at hresponse
  rcases hresponse with hresponse | hresponse
  · exact h response (hold response hresponse)
  · rcases hnew response hresponse with hmem | hanswer
    · exact h response hmem
    · exact hanswer

theorem Stream.Answers.step (h : s.Answers service) (hs : StreamStep service requests s e s') :
    s'.Answers service := by
  have hqueue : ∀ response ∈ s.reactor.response_queue_,
      response ∈ s.delivered ++ (s.writes ++ s.reactor.response_queue_) := fun response hmem =>
    List.mem_append_right _ (List.mem_append_right _ hmem)
  have hsent : ∀ response ∈ s.delivered ++ s.writes,
      response ∈ s.delivered ++ (s.writes ++ s.reactor.response_queue_) := by
    intro response hmem
    rw [← List.append_assoc]
    exact List.mem_append_left _ hmem
  cases hs with
  | @request request hr hreq =>
    refine Stream.Answers.run h { s with reading := false } hsent ?_
    intro response hmem
    unfold StreamingReadReactor.onReadDone at hmem
    dsimp only at hmem
    rw [List.filterMap_append, List.append_assoc] at hmem
    rcases StreamingReadReactor.processRequest_queued service s.reactor request with he | he
    · have hmem' := List.mem_append.mp (he ▸ hmem)
      rcases hmem' with hmem' | hmem'
      · exact Or.inl (hqueue response hmem')
      · exact Or.inr ⟨request, List.mem_singleton.mp hmem'⟩
    · exact Or.inl (hqueue response (he ▸ hmem))
  | readEnd hr hend =>
    refine Stream.Answers.run h { s with reading := false } hsent ?_
    intro response hmem
    left
    apply hqueue
    unfold StreamingReadReactor.onReadDone at hmem
    dsimp only at hmem
    split at hmem <;> exact hmem
  | @written response rest hw =>
    refine Stream.Answers.run h
      { s with writes := rest, delivered := s.delivered ++ [response] } ?_ ?_
    · intro response' hmem
      apply hsent
      rw [hw, List.append_cons]
      exact hmem
    · intro response' hmem
      left
      apply hqueue
      unfold StreamingReadReactor.onWriteDone at hmem
      dsimp only at hmem
      rw [if_pos rfl, List.filterMap_append, StreamingReadReactor.finishIfDone_written,
        List.append_nil, StreamingReadReactor.trySendNextResponse_queued] at hmem
      exact hmem
  | @failed response rest hw =>
    refine Stream.Answers.run h { s with writes := rest, broken := true } ?_ ?_
    · intro response' hmem
      apply hsent
      rw [hw]
      rcases List.mem_append.mp hmem with hmem | hmem
      · exact List.mem_append_left _ hmem
      · exact List.mem_append_right _ (List.mem_cons_of_mem _ hmem)
    · exact fun response' hmem => Or.inl (hqueue response' hmem)
  | @threadDone thread ht =>
    refine Stream.Answers.run h { s with threads := s.threads.erase thread } hsent ?_
    intro response hmem
    unfold StreamingReadReactor.onThreadDone at hmem
    split at hmem
    · exact Or.inl (hqueue response hmem)
    · dsimp only at hmem
      rw [List.filterMap_append, StreamingReadReactor.finishIfDone_written, List.append_nil,
        StreamingReadReactor.pushResponse_queued] at hmem
      rcases List.mem_append.mp hmem with hmem | hmem
      · exact Or.inl (hqueue response hmem)
      · exact Or.inr ⟨thread.1, List.mem_singleton.mp hmem⟩
  | done hf hr hw => exact h

/-- What a stream has delivered, in whatever run, are answers of the service. -/
theorem StreamRuns.fromService {tr : List (Stream × StreamEvent)}
    (h : StreamRuns service requests tr s) : FromService s.delivered := by
  have hanswers : s.Answers service := by
    refine Run.invariant (P := fun _ s => s.Answers service) ?_ ?_ h
    · intro response hmem
      cases hmem
    · intro tr s e s' _ ih hs
      exact ih.step hs
  intro response hmem
  obtain ⟨request, heq⟩ := hanswers response (List.mem_append_left _ hmem)
  exact ⟨service, request, heq⟩

end

/-! ## One block, read back -/

section

attribute [local instance] Base64Url.unpadded

/-- One call has written a block of zeros with a buffer of one byte. -/
def storedBlock : Calls UInt64 :=
  numberedCalls fun _ => { tokens := zeroBlock, hash := 7, buffer := [1] }

def storedBlockRun : List (System UInt64 × Event UInt64) × System UInt64 :=
  execute storedBlock (served [0]) (System.initial Container.empty)

def storedBlockService : ReadService where
  resolveStore _ _ := some storedBlockRun.2.store
  what _ := []

def blockRequests (locations : List Text) : List ReadRequest :=
  streamingRequests "resource".toList "container".toList [] locations

/-- The requests are read; then the threads end, one after the other, and the answers are sent. -/
def blockStream (locations : List Text) : List (Stream × StreamEvent) × Stream :=
  replay (Stream.next storedBlockService (blockRequests locations))
    ((blockRequests locations).map (fun request => .readDone (some request)) ++ [.readDone none] ++
      (blockRequests locations).zipIdx.map .threadDone ++
      locations.map fun _ => .writeDone true) {}

theorem blockStream_run (locations : List Text) :
    StreamRuns storedBlockService (blockRequests locations) (blockStream locations).1
      (blockStream locations).2 :=
  replay_run fun _ _ _ _ _ he => Stream.next_step he

/-- The answers for the stored block; a lookup that fails finds nothing. -/
def storedAnswers : StoreAnswers where
  lookup tokens precomputedHashes :=
    (lookup storedBlockRun.2.store tokens precomputedHashes).toOption.getD {}
  streamingRead locations := streamingResults locations (blockStream locations).2.delivered

theorem storedAnswers_serves : AnswersStreams storedAnswers := fun locations =>
  ⟨_, StreamRuns.fromService (blockStream_run locations), rfl⟩

theorem validation_sound_storedBlock :
    ((validateCacheRetrieval storedAnswers zeroBlock [7] {}).1 = true →
      TokensVerified storedAnswers zeroBlock [7]) ↔
      zeroBlock.length < blockSize ∨ ¬ Retrieved storedAnswers zeroBlock [7] :=
  validation_sound_iff storedAnswers_serves zeroBlock [7] {}

/-- The block is reported as verified, and the chunk that was read has no tokens. -/
theorem validation_unverified :
    AnswersStreams storedAnswers ∧
      (validateCacheRetrieval storedAnswers zeroBlock [7] {}).1 = true ∧
      ¬ TokensVerified storedAnswers zeroBlock [7] := by
  refine ⟨storedAnswers_serves, by decide +kernel, fun h => ?_⟩
  have hpos : 0 < zeroBlock.length / blockSize := by decide +kernel
  obtain ⟨success, chunk, hi, htokens⟩ := h 0 hpos
  have hnil : chunk.tokens = [] := storedAnswers_serves.tokens_eq_nil (List.mem_of_getElem? hi)
  rw [hnil] at htokens
  exact absurd htokens (by decide +kernel)

end

end KVStore
