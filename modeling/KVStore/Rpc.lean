import KVStore.Types

/-!
# Messages of the RPCs (`kvstore.proto`) and `WriteReactor`

A chunk travels as a `ProtoChunk`: one side fills it in and the other reads it back
(`toPromptChunk_toProtoChunk`). `startProcessing` answers a Write: `success = true` means that the
future of `WriteAsync` returned (`startProcessing_success`). The server metrics in the responses are
left out.
-/

namespace KVStore

/-- The chunk of a request (`kvstore::PromptChunk`). -/
structure ProtoChunk where
  hash : Hash := 0
  partition_key : Text := []
  parent_hash : Hash := 0
  completion_id : Text := []
  buffer : List UInt8 := []
  tokens : List Int64 := []
deriving DecidableEq

def ProtoChunk.toPromptChunk (protoChunk : ProtoChunk) : PromptChunk where
  hash := protoChunk.hash
  partitionKey := protoChunk.partition_key
  parentHash := protoChunk.parent_hash
  completionId := protoChunk.completion_id
  buffer := protoChunk.buffer
  tokens := protoChunk.tokens

/-- The message that a chunk is copied into. -/
def PromptChunk.toProtoChunk (chunk : PromptChunk) : ProtoChunk where
  hash := chunk.hash
  partition_key := chunk.partitionKey
  parent_hash := chunk.parentHash
  completion_id := chunk.completionId
  buffer := chunk.buffer
  tokens := chunk.tokens

/-- A chunk survives the way through the message. -/
@[simp] theorem toPromptChunk_toProtoChunk (chunk : PromptChunk) :
    chunk.toProtoChunk.toPromptChunk = chunk := by
  obtain ⟨hash, partitionKey, parentHash, buffer, bufferSize, tokens, completionId, hsize⟩ := chunk
  subst hsize
  rfl

/-! ## The Write RPC -/

structure WriteRequest where
  resource_name : Text
  container_name : Text
  chunk : Option ProtoChunk

structure WriteResponse where
  success : Bool := false
  error : Text := []
deriving DecidableEq, Repr

inductive StatusCode
  | OK
  | INVALID_ARGUMENT
  | INTERNAL
deriving DecidableEq, Repr

/-- `WriteReactor::StartProcessing`. `store` is what `ResolveStore` found, as what the future of its
`WriteAsync` does; `what` is the text of an exception. -/
def startProcessing (what : StdError → Text) (request : WriteRequest)
    (store : Option (PromptChunk → Except StdError Unit)) : (StatusCode × Text) × WriteResponse :=
  if request.resource_name = [] then
    ((.INVALID_ARGUMENT, "resource_name is required".toList), {})
  else if request.container_name = [] then
    ((.INVALID_ARGUMENT, "container_name is required".toList), {})
  else
    match request.chunk with
    | none => ((.INVALID_ARGUMENT, "chunk is required".toList), {})
    | some protoChunk =>
      match store with
      | none =>
        ((.INTERNAL, "Failed to initialize storage".toList),
          { success := false, error := "Failed to initialize storage for account".toList })
      | some writeAsync =>
        match writeAsync protoChunk.toPromptChunk with
        | .ok () => ((.OK, []), { success := true })
        | .error e => ((.INTERNAL, what e), { success := false, error := what e })

theorem startProcessing_success {what : StdError → Text} {request : WriteRequest}
    {store : Option (PromptChunk → Except StdError Unit)}
    (h : (startProcessing what request store).2.success = true) :
    ∃ protoChunk ∈ request.chunk, ∃ writeAsync ∈ store,
      writeAsync protoChunk.toPromptChunk = .ok () := by
  unfold startProcessing at h
  split at h
  · cases h
  · split at h
    · cases h
    · split at h
      · cases h
      · next protoChunk hchunk =>
        split at h
        · cases h
        · next writeAsync =>
          split at h
          · next hf => exact ⟨protoChunk, hchunk, writeAsync, rfl, hf⟩
          · cases h

end KVStore
