import KVStore.History
import KVStore.Schedule
import KVStore.StreamingRead

/-!
# Reading a write back

`ReadReactor` and the client copy every field of a chunk, so the client gets the chunk that
`ReadAsync` found (`clientRead_found`). `readAsync_undoes_iff`: of the first version of a block that
is the hash, the parent's hash and the buffer, always; the partition key and the tokens are not
stored, so the chunk is the one that was written exactly when it has none.
-/

namespace KVStore

open Transition

universe u

/-! ## The Read RPC -/

/-- `ReadReactor::StartProcessing`: the status and the response. -/
def ReadService.startReading (service : ReadService) (request : ReadRequest) :
    Status × ReadResponse :=
  if request.resource_name = [] then
    ((.INVALID_ARGUMENT, "resource_name is required".toList), {})
  else if request.container_name = [] then
    ((.INVALID_ARGUMENT, "container_name is required".toList), {})
  else if request.location = [] then
    ((.INVALID_ARGUMENT, "location is required".toList), {})
  else
    match service.resolveStore request.resource_name request.container_name with
    | none =>
      ((.INTERNAL, "Failed to initialize storage".toList),
        { success := false, error := "Failed to initialize storage for account".toList })
    | some store =>
      match readAsync store request.location with
      | .ok (found, chunk) =>
        ((.OK, []), {
          success := true, found
          chunk := if found then some chunk.toProtoChunk else none })
      | .error e =>
        ((.INTERNAL, service.what e), { success := false, error := service.what e })

/-- `ReadAsync` of the client, from the status and the response of the call. -/
def clientRead (answer : Status × ReadResponse) : Bool × PromptChunk :=
  let (status, response) := answer
  if status.1 ≠ .OK then (false, .empty)
  else if response.success = false ∨ response.found = false then (false, .empty)
  else (true, (response.chunk.getD {}).toPromptChunk)

/-- The client gets the chunk that the library found. -/
theorem clientRead_found {service : ReadService} {request : ReadRequest} {store : Container}
    {chunk : PromptChunk} (hrequest : ¬ ReadService.Incomplete request)
    (hstore : service.resolveStore request.resource_name request.container_name = some store)
    (h : readAsync store request.location = .ok (true, chunk)) :
    clientRead (service.startReading request) = (true, chunk) := by
  obtain ⟨hresource, hrest⟩ := not_or.mp hrequest
  obtain ⟨hcontainer, hlocation⟩ := not_or.mp hrest
  have hanswer : service.startReading request = ((.OK, []), {
      success := true, found := true, chunk := some chunk.toProtoChunk }) := by
    unfold ReadService.startReading
    rw [if_neg hresource, if_neg hcontainer, if_neg hlocation, hstore]
    simp only [h]
    rfl
  rw [hanswer]
  exact congrArg (Prod.mk true) (toPromptChunk_toProtoChunk chunk)

/-! ## The first version of a block -/

/-- The fields of the chunk that was read are those of the chunk that was written. -/
structure Undoes (read written : PromptChunk) : Prop where
  hash : read.hash = written.hash
  parentHash : read.parentHash = written.parentHash
  partitionKey : read.partitionKey = written.partitionKey
  tokens : read.tokens = written.tokens
  buffer : read.buffer = written.buffer

/-- What the first version of a block keeps of its chunk. -/
def PromptChunk.persisted (chunk : PromptChunk) : PromptChunk where
  hash := chunk.hash
  parentHash := chunk.parentHash
  buffer := chunk.buffer

theorem undoes_persisted_iff {chunk : PromptChunk} :
    Undoes chunk.persisted chunk ↔ chunk.partitionKey = [] ∧ chunk.tokens = [] := by
  constructor
  · intro h
    exact ⟨h.partitionKey.symm, h.tokens.symm⟩
  · rintro ⟨hpartitionKey, htokens⟩
    exact ⟨rfl, rfl, hpartitionKey.symm, htokens.symm, rfl⟩

section

variable {ι : Type u} [Base64Url] {calls : Calls ι} {j : Journal.State ι Text} {s : System ι}
  {tr : List (System ι × Event ι)}

variable [DecidableEq ι]

/-- In every run, the location of a block is read back with the hash, the parent's hash and the
buffer of the call that wrote its first version, by the library and by a client of the Read RPC. Of
the partition key and the tokens nothing is left: they come back exactly when there were none. -/
theorem readAsync_undoes_iff (h : Runs serviceFaults calls Container.empty tr s) {i : ι}
    (hi : s.point i = .finished .uploaded) :
    ∃ chunk, readAsync s.store (encodeTokensToBlobName (calls.call i).chunk.tokens) =
        .ok (true, chunk) ∧
      (∀ (service : ReadService) (request : ReadRequest), ¬ ReadService.Incomplete request →
        service.resolveStore request.resource_name request.container_name = some s.store →
        request.location = encodeTokensToBlobName (calls.call i).chunk.tokens →
        clientRead (service.startReading request) = (true, chunk)) ∧
      chunk.hash = (calls.call i).chunk.hash ∧
      chunk.parentHash = (calls.call i).chunk.parentHash ∧
      chunk.buffer = (calls.call i).chunk.buffer ∧
      (Undoes chunk (calls.call i).chunk ↔
        (calls.call i).chunk.partitionKey = [] ∧ (calls.call i).chunk.tokens = []) := by
  obtain ⟨j, hr, -, hhistory⟩ := Runs.history id h
  have hcreator : j.creator (calls.call i).blobName = some i :=
    hhistory.created (hr.phase_of_uploaded hi)
  have hread : readAsync s.store (encodeTokensToBlobName (calls.call i).chunk.tokens) =
      .ok (true, (calls.call i).chunk.persisted) := hr.readAsync_creator hcreator
  refine ⟨_, hread, ?_, rfl, rfl, rfl, undoes_persisted_iff⟩
  intro service request hrequest hstore hlocation
  exact clientRead_found hrequest hstore (hlocation ▸ hread)

end

section

attribute [local instance] Base64Url.unpadded

def partitionChunk : ProtoChunk where
  hash := 5
  partition_key := "my-partition".toList
  buffer := [1, 2]
  tokens := [7]

def partitionCalls : Calls UInt64 := numberedCalls fun _ => partitionChunk

def partitionRun : List (System UInt64 × Event UInt64) × System UInt64 :=
  execute partitionCalls (served [0]) (System.initial Container.empty)

theorem partitionRun_uploaded : partitionRun.2.point 0 = .finished .uploaded := by
  decide +kernel

theorem readAsync_undoes_iff_partition :
    ∃ chunk, readAsync partitionRun.2.store (encodeTokensToBlobName [7]) = .ok (true, chunk) ∧
      chunk.hash = 5 ∧ chunk.parentHash = 0 ∧ chunk.buffer = [1, 2] := by
  obtain ⟨chunk, hread, -, hhash, hparent, hbuffer, -⟩ :=
    readAsync_undoes_iff (served_run _ _) partitionRun_uploaded
  exact ⟨chunk, hread, hhash, hparent, hbuffer⟩

/-- The chunk comes back without its partition key and its token. -/
theorem readAsync_loses : ∃ tr s, Runs noFaults partitionCalls Container.empty tr s ∧
    s.point 0 = .finished .uploaded ∧
    (partitionCalls.call 0).chunk.partitionKey = "my-partition".toList ∧
    (partitionCalls.call 0).chunk.tokens = [7] ∧
    ∃ chunk, readAsync s.store (encodeTokensToBlobName [7]) = .ok (true, chunk) ∧
      chunk.partitionKey = [] ∧ chunk.tokens = [] :=
  ⟨partitionRun.1, partitionRun.2, served_run _ _, partitionRun_uploaded, rfl, rfl,
    PromptChunk.persisted (partitionCalls.call 0).chunk, by decide +kernel, rfl, rfl⟩

end

end KVStore
