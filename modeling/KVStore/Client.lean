import KVStore.LookupRead
import KVStore.ReadBack
import KVStore.Lib.TextSearch

/-!
# The client, and the Lookup RPC

Each call of the client library is one RPC. The server checks the request, resolves the store and
calls its library; the client copies the answer back. So the client returns what the library has
returned (`lookup_startLookup`, `writeAsync_startProcessing`), and in every other case nothing at
all: no blocks, or an exception. The metrics in the messages are left out.
-/

namespace KVStore

open TextSearch

/-! ## The Lookup RPC -/

structure LookupResponse where
  cached_blocks : Nat := 0
  last_hash : Hash := 0
  locations : List BlockLocation := []
  error : Text := []
  success : Bool := false
deriving DecidableEq

/-- `AzureStorageKVStoreLibV2::Impl` of the client library. -/
structure ClientImpl where
  initialized_ : Bool := false
  resourceName_ : Text := []
  containerName_ : Text := []
deriving DecidableEq

/-- What a stub returns: the status and the response of the server, or else the text of the status
that gRPC makes up when the connection fails. -/
abbrev StubAnswer (α : Type) := Except Text (Status × α)

namespace ClientImpl

def extractResourceName (accountUrl : Text) : Text :=
  match find accountUrl "://".toList 0 with
  | none => accountUrl
  | some pos =>
    let start := pos + 3
    match find accountUrl ['.'] start with
    | none => accountUrl.drop start
    | some stop => (accountUrl.drop start).take (stop - start)

/-- What `Initialize` leaves; it always returns true. -/
def afterInitialize (accountUrl containerName : Text) : ClientImpl where
  initialized_ := true
  resourceName_ := extractResourceName accountUrl
  containerName_ := containerName

variable (client : ClientImpl)

/-- `Lookup`, from what the stub returned. -/
def lookup (answer : StubAnswer LookupResponse) : LookupResult :=
  if client.initialized_ = false then {}
  else
    match answer with
    | .error _ => {}
    | .ok (status, response) =>
      if status.1 ≠ .OK then {}
      else if response.success = false then {}
      else
        { cachedBlocks := response.cached_blocks
          lastHash := response.last_hash
          locations := response.locations }

def writeRequest (chunk : PromptChunk) : WriteRequest where
  resource_name := client.resourceName_
  container_name := client.containerName_
  chunk := some chunk.toProtoChunk

/-- `WriteAsync`, from what the stub returned: the future returns, or has an exception. -/
def writeAsync (answer : StubAnswer WriteResponse) : Except Text Unit :=
  if client.initialized_ = false then .error "KVClient not initialized".toList
  else
    match answer with
    | .error message => .error ("Write RPC failed: ".toList ++ message)
    | .ok (status, response) =>
      if status.1 ≠ .OK then .error ("Write RPC failed: ".toList ++ status.2)
      else if response.success = false then .error ("Write failed: ".toList ++ response.error)
      else .ok ()

/-- The client knows an account and a container. -/
def Ready : Prop :=
  client.initialized_ = true ∧ client.resourceName_ ≠ [] ∧ client.containerName_ ≠ []

instance : Decidable client.Ready := inferInstanceAs (Decidable (_ ∧ _))

variable {client} {what : StdError → Text} {partitionKey completionId : Text}
  {tokens : List Token} {precomputedHashes : List Hash} {chunk : PromptChunk}

/-- The client is given the account by its URL. -/
theorem extractResourceName_url {scheme name : Text} (suffix : Text)
    (hscheme : ':' ∉ scheme) (hname : '.' ∉ name) :
    extractResourceName (scheme ++ "://".toList ++ name ++ '.' :: suffix) = name := by
  have hpat : "://".toList = [':', '/', '/'] := rfl
  have hscheme' : find (scheme ++ "://".toList ++ name ++ '.' :: suffix) "://".toList 0 =
      some scheme.length := by
    rw [hpat, find_of_le (Nat.zero_le _), List.drop_zero, List.append_assoc, List.append_assoc,
      findFrom_append hscheme, Nat.zero_add]
    exact findFrom_self ..
  have hlength : scheme.length + 3 = (scheme ++ "://".toList).length := by
    rw [hpat, List.length_append]
    rfl
  have hname' : find (scheme ++ "://".toList ++ name ++ '.' :: suffix) ['.']
      (scheme.length + 3) = some (scheme.length + 3 + name.length) := by
    rw [hlength, List.append_assoc (scheme ++ _), find_skip hname]
  unfold extractResourceName
  simp only [hscheme', hname']
  rw [hlength, List.append_assoc (scheme ++ _), List.drop_left, Nat.add_sub_cancel_left,
    List.take_left]

/-- The server is given the chunk of the client. -/
theorem writeRequest_chunk : (client.writeRequest chunk).chunk.map ProtoChunk.toPromptChunk =
    some chunk :=
  congrArg some (toPromptChunk_toProtoChunk chunk)

/-- The future of the client returns exactly when that of the library on the server has. -/
theorem writeAsync_startProcessing (hclient : client.Ready)
    (store : Option (PromptChunk → Except StdError Unit)) :
    client.writeAsync (.ok (startProcessing what (client.writeRequest chunk) store)) = .ok () ↔
      ∃ libraryWrite ∈ store, libraryWrite chunk = .ok () := by
  obtain ⟨hinit, hresource, hcontainer⟩ := hclient
  cases store with
  | none => simp [writeAsync, startProcessing, writeRequest, hinit, hresource, hcontainer]
  | some libraryWrite =>
    cases hresult : libraryWrite chunk with
    | ok => simp [writeAsync, startProcessing, writeRequest, hinit, hresource, hcontainer, hresult]
    | error e =>
      simp [writeAsync, startProcessing, writeRequest, hinit, hresource, hcontainer, hresult]

end ClientImpl

end KVStore
