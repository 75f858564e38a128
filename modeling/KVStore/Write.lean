import KVStore.Blob

/-!
# `WriteAsync`, operation by operation

A call of `WriteAsync` talks to the service one blob operation at a time; other calls act between
two of them. `WritePoint` lists the places where the code is about to issue an operation, with the
locals that are alive there, `request` is the operation issued, and `resume` is the code that runs
on its answer, up to the next operation or the end.

Every `StorageException` that leaves the retry loop, or is raised before it, is caught by the
outermost handler, whose assertion is a no-op in a release build: the future becomes ready as after
a successful write. Exceptions of other types leave through the future.
-/

namespace KVStore

/-- A call: its chunk, and the two numbers that its `GenerateGuid` draws. -/
structure Call where
  chunk : PromptChunk
  part1 : UInt64
  part2 : UInt64
deriving DecidableEq

def maxRetries : Nat := 5

def maxVersions : Nat := 60

/-- How a call ended. -/
inductive WriteOutcome
  /-- The conditional upload created the blob. -/
  | uploaded
  /-- The default version is the chunk's. -/
  | identical
  /-- An additional version is the chunk's. -/
  | alreadyListed
  /-- `SetMetadata` published the chunk's version. -/
  | updated
  /-- The outermost handler swallowed a `StorageException`. -/
  | storageException (status : HttpStatusCode)
  | stdException (e : StdError)
deriving DecidableEq, Repr

/-- What `future.get()` does: return, or rethrow. -/
def WriteOutcome.future : WriteOutcome → Except StdError Unit
  | .stdException e => .error e
  | _ => .ok ()

/-- The locals of the multi-version part. -/
structure WriteLocals where
  currentETag : ETag
  metadata : Metadata
  existingVersions : List AdditionalVersion
deriving DecidableEq, Repr

inductive WritePoint
  /-- `blockBlobClient.Upload` with `IfNoneMatch = *`. -/
  | upload
  /-- The first `blockBlobClient.GetProperties`. -/
  | getProperties
  /-- `guidBlobClient.Upload`. -/
  | guidUpload (l : WriteLocals)
  /-- `blockBlobClient.GetProperties` at the top of a retry. -/
  | refetch (retry : Nat) (l : WriteLocals)
  /-- `oldBlobClient.Delete` in the eviction loop. -/
  | evict (retry : Nat) (l : WriteLocals)
  /-- `blockBlobClient.SetMetadata`. -/
  | setMetadata (retry : Nat) (l : WriteLocals)
  | finished (o : WriteOutcome)
deriving DecidableEq, Repr

namespace Call

variable [Base64Url] (call : Call)

def blobName : Text := encodeTokensToBlobName call.chunk.tokens

def guidLocation : Text := generateGuid call.part1 call.part2

def newVersion : AdditionalVersion where
  hash := call.chunk.hash
  parentHash := call.chunk.parentHash
  location := call.guidLocation

/-- What the uploads send: the first `bufferSize` bytes of the buffer. -/
def content : List UInt8 := call.chunk.buffer.take call.chunk.bufferSize

/-- `uploadOptions.Metadata` for a blob stored under `location`. -/
def uploadMetadata (location : Text) : Metadata :=
  [("hash".toList, toText call.chunk.hash), ("parenthash".toList, toText call.chunk.parentHash),
    ("location".toList, location)]

omit [Base64Url] in
theorem plainLocation_newVersion : PlainLocation call.newVersion.location := by
  have hquote : '"' ∉ "0123456789abcdef-".toList := by decide
  have hbrace : '}' ∉ "0123456789abcdef-".toList := by decide
  exact ⟨fun h => hquote (mem_generateGuid h),
    fun h => hbrace (mem_generateGuid (List.mem_of_mem_dropLast h))⟩

end Call

/-- The metadata sent by `SetMetadata`; the log statements before it read `metadata["hash"]` and
`metadata["parenthash"]`. -/
def updatedMetadata (l : WriteLocals) : Metadata :=
  touchEntry (touchEntry (setEntry l.metadata "additionalversions".toList
    (serializeAdditionalVersions l.existingVersions)) "hash".toList) "parenthash".toList

/-- The top of the eviction loop. -/
def evictOrUpdate (retry : Nat) (l : WriteLocals) : WritePoint :=
  if maxVersions < l.existingVersions.length then .evict retry l else .setMetadata retry l

/-- The part of an attempt after the properties are known: the new version joins the list. -/
def appendVersion (call : Call) (retry : Nat) (l : WriteLocals) : WritePoint :=
  evictOrUpdate retry { l with existingVersions := l.existingVersions ++ [call.newVersion] }

/-- The handler inside the retry loop. -/
def onMetadataException (retry : Nat) (l : WriteLocals) (status : HttpStatusCode) : WritePoint :=
  if status = .PreconditionFailed then
    if retry = maxRetries - 1 then .finished (.storageException status)
    else .refetch (retry + 1) l
  else .finished (.storageException status)

/-- The checks after the first `GetProperties`. -/
def onProperties (call : Call) (etag : ETag) (metadata : Metadata) : WritePoint :=
  if metadata.lookup "hash".toList = some (toText call.chunk.hash) ∧
      metadata.lookup "parenthash".toList = some (toText call.chunk.parentHash) then
    .finished .identical
  else
    match metadata.lookup "additionalversions".toList with
    | none => .guidUpload { currentETag := etag, metadata, existingVersions := [] }
    | some text =>
      if text = [] then .guidUpload { currentETag := etag, metadata, existingVersions := [] }
      else
        match parseAdditionalVersions text with
        | .error e => .finished (.stdException e)
        | .ok existingVersions =>
          if existingVersions.any fun ver =>
              ver.hash = call.chunk.hash ∧ ver.parentHash = call.chunk.parentHash then
            .finished .alreadyListed
          else .guidUpload { currentETag := etag, metadata, existingVersions }

/-- The code after a retry's `GetProperties`. The versions are parsed again where the metadata has
them; otherwise `existingVersions` stays as it is. -/
def onRefetch (call : Call) (retry : Nat) (l : WriteLocals) (etag : ETag) (metadata : Metadata) :
    WritePoint :=
  match metadata.lookup "additionalversions".toList with
  | none => appendVersion call retry { l with currentETag := etag, metadata }
  | some text =>
    match parseAdditionalVersions text with
    | .error e => .finished (.stdException e)
    | .ok existingVersions =>
      appendVersion call retry { currentETag := etag, metadata, existingVersions }

namespace WritePoint

variable (call : Call)

/-- The blob operation issued at a point. -/
def request [Base64Url] : WritePoint → Option BlobOp
  | .upload => some (.uploadIfNoneMatch call.blobName call.content
      (call.uploadMetadata call.blobName))
  | .getProperties => some (.getProperties call.blobName)
  | .guidUpload _ => some (.upload call.guidLocation call.content
      (call.uploadMetadata call.guidLocation))
  | .refetch _ _ => some (.getProperties call.blobName)
  | .evict _ l => l.existingVersions.head?.map fun oldestVersion => .delete oldestVersion.location
  | .setMetadata _ l => some (.setMetadata call.blobName (updatedMetadata l) l.currentETag)
  | .finished _ => none

/-- The code that runs on the answer to the operation issued at a point. -/
def resume : WritePoint → BlobResponse → WritePoint
  | .upload, .storageException status =>
    if status = .Conflict then .getProperties else .finished (.storageException status)
  | .upload, _ => .finished .uploaded
  | .getProperties, .properties etag metadata => onProperties call etag metadata
  | .getProperties, .storageException status => .finished (.storageException status)
  | .guidUpload _, .storageException status => .finished (.storageException status)
  | .guidUpload l, _ => appendVersion call 0 l
  | .refetch retry l, .properties etag metadata => onRefetch call retry l etag metadata
  | .refetch retry l, .storageException status => onMetadataException retry l status
  -- a failed delete is only logged
  | .evict retry l, _ => evictOrUpdate retry { l with existingVersions := l.existingVersions.tail }
  | .setMetadata retry l, .storageException status => onMetadataException retry l status
  | .setMetadata _ _, _ => .finished .updated
  | point, _ => point

theorem resume_evict (retry : Nat) (l : WriteLocals) (response : BlobResponse) :
    (WritePoint.evict retry l).resume call response =
      evictOrUpdate retry { l with existingVersions := l.existingVersions.tail } := by
  cases response <;> rfl

end WritePoint

end KVStore
