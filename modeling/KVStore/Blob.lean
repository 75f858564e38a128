import KVStore.BlobName
import KVStore.Versions
import Mathlib.Logic.Function.Basic

/-!
# The blob container

The storage service as the store uses it: named blobs with content, metadata and an ETag that
changes with every modification, and five operations, each one atomic. A conditional upload
(`IfNoneMatch = *`) is a conflict when the blob exists; `SetMetadata` with `IfMatch` fails its
precondition when the ETag has changed. The SDK reports metadata names in lower case, and its map
of them is searched without regard to case.
-/

namespace KVStore

inductive HttpStatusCode
  | Conflict
  | PreconditionFailed
  | NotFound
  | Other (code : Nat)
deriving DecidableEq, Repr

abbrev ETag := Nat

abbrev Metadata := List (Text × Text)

/-- `find` of the SDK's case-insensitive map. -/
def findMetadata (m : Metadata) (name : Text) : Option Text :=
  m.lookup (name.map Char.toLower)

/-- `m[name] = value`. -/
def setEntry : Metadata → Text → Text → Metadata
  | [], name, value => [(name, value)]
  | (n, v) :: m, name, value =>
    if n = name then (n, value) :: m else (n, v) :: setEntry m name value

/-- Reading `m[name]`, which inserts an empty value where there is none. -/
def touchEntry (m : Metadata) (name : Text) : Metadata :=
  if (m.lookup name).isSome then m else setEntry m name []

structure Blob where
  content : List UInt8
  metadata : Metadata
  etag : ETag
deriving DecidableEq, Repr

structure Container where
  blobs : Text → Option Blob
  /-- The ETag that the next modification gives out. -/
  clock : ETag

inductive BlobOp
  | uploadIfNoneMatch (name : Text) (content : List UInt8) (metadata : Metadata)
  | upload (name : Text) (content : List UInt8) (metadata : Metadata)
  | getProperties (name : Text)
  | setMetadata (name : Text) (metadata : Metadata) (ifMatch : ETag)
  | delete (name : Text)
deriving DecidableEq, Repr

inductive BlobResponse
  | done
  | properties (etag : ETag) (metadata : Metadata)
  | storageException (status : HttpStatusCode)
deriving DecidableEq, Repr

namespace Container

def empty : Container where
  blobs _ := none
  clock := 0

def put (c : Container) (name : Text) (content : List UInt8) (metadata : Metadata) : Container where
  blobs := Function.update c.blobs name (some { content, metadata, etag := c.clock })
  clock := c.clock + 1

def remove (c : Container) (name : Text) : Container :=
  { c with blobs := Function.update c.blobs name none }

/-- What the service does for one operation. -/
def perform (c : Container) : BlobOp → BlobResponse × Container
  | .uploadIfNoneMatch name content metadata =>
    match c.blobs name with
    | some _ => (.storageException .Conflict, c)
    | none => (.done, c.put name content metadata)
  | .upload name content metadata => (.done, c.put name content metadata)
  | .getProperties name =>
    match c.blobs name with
    | some blob => (.properties blob.etag blob.metadata, c)
    | none => (.storageException .NotFound, c)
  | .setMetadata name metadata ifMatch =>
    match c.blobs name with
    | some blob =>
      if blob.etag = ifMatch then (.done, c.put name blob.content metadata)
      else (.storageException .PreconditionFailed, c)
    | none => (.storageException .NotFound, c)
  | .delete name =>
    match c.blobs name with
    | some _ => (.done, c.remove name)
    | none => (.storageException .NotFound, c)

variable (c : Container) {name name' : Text} {content : List UInt8} {metadata : Metadata}

@[simp] theorem blobs_put_self : (c.put name content metadata).blobs name =
    some { content, metadata, etag := c.clock } := by
  simp [put]

@[simp] theorem blobs_put_ne (h : name' ≠ name) :
    (c.put name content metadata).blobs name' = c.blobs name' := by
  simp [put, h]

@[simp] theorem blobs_remove_self : (c.remove name).blobs name = none := by
  simp [remove]

@[simp] theorem blobs_remove_ne (h : name' ≠ name) :
    (c.remove name).blobs name' = c.blobs name' := by
  simp [remove, h]

theorem perform_setMetadata {blob : Blob} {ifMatch : ETag} (h : c.blobs name = some blob) :
    c.perform (.setMetadata name metadata ifMatch) =
      if blob.etag = ifMatch then (.done, c.put name blob.content metadata)
      else (.storageException .PreconditionFailed, c) := by
  simp only [perform, h]

/-- A deletion leaves no blob, whether there was one or not. -/
theorem perform_delete : (c.perform (.delete name)).2 = c.remove name := by
  rcases h : c.blobs name with _ | blob
  · simp only [perform, h, remove]
    rw [← h, Function.update_eq_self]
  · simp only [perform, h]

end Container

end KVStore
