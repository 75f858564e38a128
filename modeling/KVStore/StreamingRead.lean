import KVStore.Read
import KVStore.Rpc
import KVStore.Lib.Run

/-!
# Streaming reads (`StreamingReadReactor`, the client's `StreamingReadAsync`)

The reactor of a stream reads requests one after the other. A request that cannot be served is
answered at once, every other one by a thread of its own. Answers wait in a queue; one write is
outstanding at a time. Each callback, and the end of each thread, is a function from the members of
the reactor to their new values and to the operations it starts; the mutex makes it one step.

`Stream` adds what gRPC keeps: the outstanding operations, the threads, and what was delivered.
-/

namespace KVStore

open Transition

structure ReadRequest where
  resource_name : Text
  container_name : Text
  location : Text
  completion_id : Text := []
deriving DecidableEq

structure ReadResponse where
  success : Bool := false
  found : Bool := false
  chunk : Option ProtoChunk := none
  error : Text := []
deriving DecidableEq

abbrev Status := StatusCode × Text

/-! ## The reactor -/

structure StreamingReadReactor where
  current_response_ : Option ReadResponse := none
  response_queue_ : List ReadResponse := []
  write_in_progress_ : Bool := false
  client_done_ : Bool := false
  shutdown_ : Bool := false
  pending_writes_ : Int := 0
  active_threads_ : Int := 0
deriving DecidableEq

/-- What a callback starts. -/
inductive Operation
  | startRead
  | startWrite (response : ReadResponse)
  | finish (status : Status)
  | startThread (request : ReadRequest)
deriving DecidableEq

/-- What one `AccountResolver` resolves, and the text of an exception. -/
structure ReadService where
  resolveStore : Text → Text → Option Container
  what : StdError → Text

namespace ReadService

variable (service : ReadService)

/-- The answer of the thread that reads a location. -/
def threadResponse (store : Container) (location : Text) : ReadResponse :=
  match readAsync store location with
  | .ok (found, chunk) =>
    { success := true, found, chunk := if found then some chunk.toProtoChunk else none }
  | .error e => { success := false, found := false, error := service.what e }

def invalidRequest : ReadResponse where
  success := false
  found := false
  error := "Invalid request: missing required fields".toList

def noStorage : ReadResponse where
  success := false
  found := false
  error := "Failed to initialize storage".toList

/-- A request lacks a field. -/
def Incomplete (request : ReadRequest) : Prop :=
  request.resource_name = [] ∨ request.container_name = [] ∨ request.location = []

instance (request : ReadRequest) : Decidable (Incomplete request) :=
  inferInstanceAs (Decidable (_ ∨ _))

/-- The answer to a request, whoever gives it. -/
def response (request : ReadRequest) : ReadResponse :=
  if Incomplete request then invalidRequest
  else
    match service.resolveStore request.resource_name request.container_name with
    | none => noStorage
    | some store => service.threadResponse store request.location

/-- A thread serves the request. -/
def StartsThread (request : ReadRequest) : Prop :=
  ¬ Incomplete request ∧
    (service.resolveStore request.resource_name request.container_name).isSome = true

instance (request : ReadRequest) : Decidable (service.StartsThread request) :=
  inferInstanceAs (Decidable (_ ∧ _))

end ReadService

namespace StreamingReadReactor

def trySendNextResponse (r : StreamingReadReactor) : StreamingReadReactor × List Operation :=
  match r.write_in_progress_, r.response_queue_ with
  | false, response :: queue =>
    ({ r with
       current_response_ := some response
       response_queue_ := queue
       write_in_progress_ := true
       pending_writes_ := r.pending_writes_ + 1 }, [.startWrite response])
  | _, _ => (r, [])

/-- A response enters the queue, and is sent if no other is on its way. -/
def pushResponse (r : StreamingReadReactor) (response : ReadResponse) :
    StreamingReadReactor × List Operation :=
  trySendNextResponse { r with response_queue_ := r.response_queue_ ++ [response] }

def processRequest (service : ReadService) (r : StreamingReadReactor) (request : ReadRequest) :
    StreamingReadReactor × List Operation :=
  if ReadService.Incomplete request then r.pushResponse ReadService.invalidRequest
  else
    match service.resolveStore request.resource_name request.container_name with
    | none => r.pushResponse ReadService.noStorage
    | some _ => ({ r with active_threads_ := r.active_threads_ + 1 }, [.startThread request])

/-- `OnReadDone`, with the request that was read, or with `ok = false`. -/
def onReadDone (service : ReadService) (r : StreamingReadReactor) :
    Option ReadRequest → StreamingReadReactor × List Operation
  | none =>
    let r := { r with client_done_ := true }
    (r, if r.pending_writes_ = 0 ∧ r.active_threads_ = 0 then [.finish (.OK, [])] else [])
  | some request =>
    let (r, operations) := r.processRequest service request
    (r, operations ++ [.startRead])

/-- The test after a write and at the end of a thread. -/
def finishIfDone (r : StreamingReadReactor) : List Operation :=
  if r.client_done_ = true ∧ r.pending_writes_ = 0 ∧ r.active_threads_ = 0 ∧
      r.response_queue_ = [] then [.finish (.OK, [])]
  else []

def onWriteDone (r : StreamingReadReactor) (ok : Bool) : StreamingReadReactor × List Operation :=
  let r := { r with pending_writes_ := r.pending_writes_ - 1, write_in_progress_ := false }
  if ok then
    let (r, operations) := r.trySendNextResponse
    (r, operations ++ r.finishIfDone)
  else (r, [.finish (.INTERNAL, "Write failed".toList)])

/-- The end of a thread, once it holds the mutex. -/
def onThreadDone (r : StreamingReadReactor) (response : ReadResponse) :
    StreamingReadReactor × List Operation :=
  if r.shutdown_ then ({ r with active_threads_ := r.active_threads_ - 1 }, [])
  else
    let (r, operations) := r.pushResponse response
    let r := { r with active_threads_ := r.active_threads_ - 1 }
    (r, operations ++ r.finishIfDone)

/-- `OnDone` up to its wait for the threads. -/
def onDone (r : StreamingReadReactor) : StreamingReadReactor := { r with shutdown_ := true }

end StreamingReadReactor

/-! ## The stream -/

/-- A stream in progress. A thread is known by its request and the request's position. -/
structure Stream where
  reactor : StreamingReadReactor := {}
  received : Nat := 0
  reading : Bool := true
  writes : List ReadResponse := []
  threads : List (ReadRequest × Nat) := []
  delivered : List ReadResponse := []
  finishes : List Status := []
  /-- A write has failed: the client is gone. -/
  broken : Bool := false

/-- What gRPC calls, and the end of a thread. -/
inductive StreamEvent
  | readDone (request : Option ReadRequest)
  | writeDone (ok : Bool)
  | threadDone (thread : ReadRequest × Nat)
  | done
deriving DecidableEq

namespace Stream

def start (s : Stream) : Operation → Stream
  | .startRead => { s with reading := true }
  | .startWrite response => { s with writes := s.writes ++ [response] }
  | .finish status => { s with finishes := s.finishes ++ [status] }
  | .startThread request => { s with threads := s.threads ++ [(request, s.received)] }

/-- A callback runs: the reactor changes, and the operations start in their order. -/
def run (s : Stream) (callback : StreamingReadReactor × List Operation) : Stream :=
  callback.2.foldl start { s with reactor := callback.1 }

variable (service : ReadService)

def afterRequest (s : Stream) (request : ReadRequest) : Stream :=
  let s := { s with reading := false }.run (s.reactor.onReadDone service (some request))
  { s with received := s.received + 1 }

def afterReadEnd (s : Stream) : Stream :=
  { s with reading := false }.run (s.reactor.onReadDone service none)

def afterWrite (s : Stream) (response : ReadResponse) (rest : List ReadResponse) : Stream :=
  { s with writes := rest, delivered := s.delivered ++ [response] }.run
    (s.reactor.onWriteDone true)

def afterFailedWrite (s : Stream) (rest : List ReadResponse) : Stream :=
  { s with writes := rest, broken := true }.run (s.reactor.onWriteDone false)

def afterThread (s : Stream) (thread : ReadRequest × Nat) : Stream :=
  { s with threads := s.threads.erase thread }.run
    (s.reactor.onThreadDone (service.response thread.1))

end Stream

/-- One callback on a stream whose client sends the requests and then ends its side. -/
inductive StreamStep (service : ReadService) (requests : List ReadRequest) :
    Stream → StreamEvent → Stream → Prop
  | request {s : Stream} {request : ReadRequest} (hr : s.reading = true)
      (h : requests[s.received]? = some request) :
      StreamStep service requests s (.readDone (some request)) (s.afterRequest service request)
  | readEnd {s : Stream} (hr : s.reading = true)
      (h : s.received = requests.length ∨ s.broken = true) :
      StreamStep service requests s (.readDone none) (s.afterReadEnd service)
  | written {s : Stream} {response : ReadResponse} {rest : List ReadResponse}
      (h : s.writes = response :: rest) :
      StreamStep service requests s (.writeDone true) (s.afterWrite response rest)
  | failed {s : Stream} {response : ReadResponse} {rest : List ReadResponse}
      (h : s.writes = response :: rest) :
      StreamStep service requests s (.writeDone false) (s.afterFailedWrite rest)
  | threadDone {s : Stream} {thread : ReadRequest × Nat} (h : thread ∈ s.threads) :
      StreamStep service requests s (.threadDone thread) (s.afterThread service thread)
  | done {s : Stream} (hf : s.finishes ≠ []) (hr : s.reading = false) (hw : s.writes = []) :
      StreamStep service requests s .done { s with reactor := s.reactor.onDone }

/-- The callback that an event is, where it can come. -/
def Stream.next (service : ReadService) (requests : List ReadRequest) (s : Stream) :
    StreamEvent → Option (StreamEvent × Stream)
  | .readDone (some request) =>
    if s.reading = true ∧ requests[s.received]? = some request then
      some (.readDone (some request), s.afterRequest service request)
    else none
  | .readDone none =>
    if s.reading = true ∧ (s.received = requests.length ∨ s.broken = true) then
      some (.readDone none, s.afterReadEnd service)
    else none
  | .writeDone ok =>
    match s.writes with
    | [] => none
    | response :: rest =>
      some (.writeDone ok, if ok then s.afterWrite response rest else s.afterFailedWrite rest)
  | .threadDone thread =>
    if thread ∈ s.threads then some (.threadDone thread, s.afterThread service thread) else none
  | .done =>
    if s.finishes ≠ [] ∧ s.reading = false ∧ s.writes = [] then
      some (.done, { s with reactor := s.reactor.onDone })
    else none

theorem Stream.next_step {service : ReadService} {requests : List ReadRequest} {s s' : Stream}
    {e e' : StreamEvent} (h : s.next service requests e = some (e', s')) :
    StreamStep service requests s e' s' := by
  unfold Stream.next at h
  split at h
  · split at h
    · next hreq =>
      cases h
      exact .request hreq.1 hreq.2
    · cases h
  · split at h
    · next hend =>
      cases h
      exact .readEnd hend.1 hend.2
    · cases h
  · next ok =>
    split at h
    · cases h
    · next hw =>
      cases ok <;> cases h
      · exact .failed hw
      · exact .written hw
  · split at h
    · next ht =>
      cases h
      exact .threadDone ht
    · cases h
  · split at h
    · next hdone =>
      cases h
      exact .done hdone.1 hdone.2.1 hdone.2.2
    · cases h

/-- The runs of a stream from its start. -/
abbrev StreamRuns (service : ReadService) (requests : List ReadRequest) :
    List (Stream × StreamEvent) → Stream → Prop :=
  Run (StreamStep service requests) {}

/-! ## The client -/

/-- A response as the client stores it. -/
def ReadResponse.result (response : ReadResponse) : Bool × PromptChunk :=
  (response.found,
    match response.found, response.chunk with
    | true, some protoChunk => protoChunk.toPromptChunk
    | _, _ => .empty)

/-- The requests that `StreamingReadAsync` sends. -/
def streamingRequests (resourceName containerName completionId : Text) (locations : List Text) :
    List ReadRequest :=
  locations.map fun location => {
    resource_name := resourceName
    container_name := containerName
    location
    completion_id := completionId }

/-- The results of `StreamingReadAsync`, from the responses that it reads. -/
def streamingResults (locations : List Text) (responses : List ReadResponse) :
    List (Bool × PromptChunk) :=
  responses.map ReadResponse.result ++
    List.replicate (locations.length - responses.length) (false, PromptChunk.empty)

end KVStore
