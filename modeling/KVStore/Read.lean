import KVStore.Blob

/-!
# `Lookup` and `ReadAsync`

`Lookup` fetches the properties of every full block's blob and then walks the blocks in order,
choosing for each one a version whose parent is the hash chosen before; `lookupLoop` is that walk,
over the fetched properties. `ReadAsync` downloads one location.
-/

namespace KVStore

def blockSize : Nat := 128

/-- What the `GetProperties` future of a block delivers. -/
structure BlockProperties where
  found : Bool := false
  storedHash : Hash := 0
  parentHash : Hash := 0
  multiVersion : Text := []
  additionalVersions : Text := []
deriving DecidableEq, Repr

/-- A hash in the metadata, 0 where it is missing. -/
def hashEntry (m : Metadata) (name : Text) : Except StdError Hash :=
  match findMetadata m name with
  | some value => stoull value
  | none => .ok 0

def textEntry (m : Metadata) (name : Text) : Text :=
  (findMetadata m name).getD []

def blockProperties : BlobResponse → Except StdError BlockProperties
  | .properties _ m => do
    let storedHash ← hashEntry m "hash".toList
    let parentHash ← hashEntry m "parenthash".toList
    return {
      found := true, storedHash, parentHash,
      multiVersion := textEntry m "multiversion".toList,
      additionalVersions := textEntry m "additionalversions".toList }
  | _ => .ok {}

structure BlockInfo where
  blobName : Text
  expectedHash : Hash
deriving DecidableEq, Repr

/-- The version that the walk takes for a block, as a location with its hash; `none` breaks the
chain. -/
def chooseVersion (blockNum : Nat) (blobName : Text) (p : BlockProperties)
    (expectedParentHash : Hash) : Except StdError (Option BlockLocation) :=
  if p.additionalVersions ≠ [] then
    if blockNum = 0 ∨ p.parentHash = expectedParentHash then
      .ok (some { hash := p.storedHash, location := blobName })
    else do
      let versions ← parseAdditionalVersions p.additionalVersions
      return (versions.find? fun version => version.parentHash = expectedParentHash).map
        fun version => { hash := version.hash, location := version.location }
  else if 0 < blockNum ∧ p.parentHash ≠ expectedParentHash then .ok none
  else .ok (some { hash := p.storedHash, location := blobName })

def lookupLoop : List (BlockInfo × Except StdError BlockProperties) → Nat → Hash → LookupResult →
    Except StdError LookupResult
  | [], _, _, result => .ok result
  | (block, future) :: blocks, blockNum, expectedParentHash, result => do
    let p ← future
    if p.found then
      match ← chooseVersion blockNum block.blobName p expectedParentHash with
      | none => return result
      | some loc =>
        lookupLoop blocks (blockNum + 1) loc.hash {
          cachedBlocks := result.cachedBlocks + 1
          lastHash := loc.hash
          locations := result.locations ++ [loc] }
    else return result

/-- The tokens of full block `i`. -/
def blockTokens (tokens : List Token) (i : Nat) : List Token :=
  (tokens.drop (i * blockSize)).take blockSize

section

variable [Base64Url]

def blockInfo (tokens : List Token) (precomputedHashes : List Hash) (i : Nat) : BlockInfo where
  blobName := encodeTokensToBlobName (blockTokens tokens i)
  expectedHash := precomputedHashes.getD i 0

/-- `Lookup` on one state of the store. -/
def lookup (c : Container) (tokens : List Token) (precomputedHashes : List Hash) :
    Except StdError LookupResult :=
  let numFullBlocks := tokens.length / blockSize
  if numFullBlocks = 0 then .ok {}
  else
    lookupLoop ((List.range numFullBlocks).map fun i =>
      let block := blockInfo tokens precomputedHashes i
      (block, blockProperties (c.perform (.getProperties block.blobName)).1)) 0 0 {}

end

def readAsync (c : Container) (location : Text) : Except StdError (Bool × PromptChunk) :=
  match c.blobs location with
  | none => .ok (false, .empty)
  | some blob => do
    let parentHash ← hashEntry blob.metadata "parentHash".toList
    let hash ← hashEntry blob.metadata "hash".toList
    return (true, {
      partitionKey := textEntry blob.metadata "partitionKey".toList,
      parentHash, hash,
      buffer := blob.content })

/-- The additional versions in the metadata of a blob. -/
def additionalVersionsOf (m : Metadata) : Except StdError (List AdditionalVersion) :=
  parseAdditionalVersions (textEntry m "additionalversions".toList)

/-- The additional versions listed for a block, under the name of its blob. -/
def listedVersions (c : Container) (blobName : Text) : Except StdError (List AdditionalVersion) :=
  match c.blobs blobName with
  | none => .ok []
  | some blob => additionalVersionsOf blob.metadata

/-- The default version of a blob, stored under the blob's own name. -/
def defaultVersion (m : Metadata) (blobName : Text) : Except StdError AdditionalVersion := do
  let hash ← hashEntry m "hash".toList
  let parentHash ← hashEntry m "parenthash".toList
  return { hash, parentHash, location := blobName }

/-- All versions of a block, the default version first. -/
def recordedVersions (c : Container) (blobName : Text) : Except StdError (List AdditionalVersion) :=
  match c.blobs blobName with
  | none => .ok []
  | some blob => do
    let version ← defaultVersion blob.metadata blobName
    let versions ← additionalVersionsOf blob.metadata
    return version :: versions

/-- The version is the default version of the blob. -/
def RecordsDefault (c : Container) (blobName : Text) (v : AdditionalVersion) : Prop :=
  ∃ blob, c.blobs blobName = some blob ∧ defaultVersion blob.metadata blobName = .ok v

/-- The version is in the list of the blob. -/
def RecordsAdditional (c : Container) (blobName : Text) (v : AdditionalVersion) : Prop :=
  ∃ blob versions, c.blobs blobName = some blob ∧
    additionalVersionsOf blob.metadata = .ok versions ∧ v ∈ versions

def Records (c : Container) (blobName : Text) (v : AdditionalVersion) : Prop :=
  RecordsDefault c blobName v ∨ RecordsAdditional c blobName v

/-- The pair is recorded for the block, as the default version or in the list. -/
def RecordsPair (c : Container) (blobName : Text) (hash parentHash : Hash) : Prop :=
  ∃ v, Records c blobName v ∧ v.hash = hash ∧ v.parentHash = parentHash

/-- What is recorded for a block, once its metadata can be read. -/
theorem records_iff {c : Container} {blobName : Text} {versions : List AdditionalVersion}
    (h : recordedVersions c blobName = .ok versions) {v : AdditionalVersion} :
    Records c blobName v ↔ v ∈ versions := by
  unfold recordedVersions at h
  unfold Records RecordsDefault RecordsAdditional
  rcases hblob : c.blobs blobName with _ | blob
  · simp only [hblob] at h
    cases h
    simp
  · simp only [hblob] at h
    obtain ⟨default, hdefault, h⟩ := bind_eq_ok h
    obtain ⟨additional, hadditional, h⟩ := bind_eq_ok h
    cases h
    simp [hdefault, hadditional, eq_comm]

end KVStore
