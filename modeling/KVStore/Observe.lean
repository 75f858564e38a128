import KVStore.Read
import KVStore.Refine

/-!
# What readers see of a journal

In a container that represents a journal, the versions listed and recorded for a block and the
answers of `ReadAsync` are determined by the creator and the window of the block's slot
(`Refines.listedVersions`, `Refines.recordedVersions`, `Refines.readAsync_creator`,
`Refines.readAsync_staged`).
-/

namespace KVStore

open Transition RecentWindow

universe u

section

variable {m : Metadata}

theorem hashEntry_of_lookup {name lower : Text} {n : Hash} (hn : name.map Char.toLower = lower)
    (h : m.lookup lower = some (toText n)) : hashEntry m name = .ok n := by
  unfold hashEntry findMetadata
  rw [hn, h]
  exact stoull_toText n

theorem hashEntry_hash {n : Hash} (h : m.lookup "hash".toList = some (toText n)) :
    hashEntry m "hash".toList = .ok n :=
  hashEntry_of_lookup rfl h

theorem hashEntry_parenthash {n : Hash} (h : m.lookup "parenthash".toList = some (toText n)) :
    hashEntry m "parenthash".toList = .ok n :=
  hashEntry_of_lookup rfl h

/-- The map of the SDK is searched without regard to case. -/
theorem hashEntry_parentHash {n : Hash} (h : m.lookup "parenthash".toList = some (toText n)) :
    hashEntry m "parentHash".toList = .ok n :=
  hashEntry_of_lookup rfl h

theorem textEntry_of_lookup {name lower value : Text} (hn : name.map Char.toLower = lower)
    (h : m.lookup lower = some value) : textEntry m name = value := by
  unfold textEntry findMetadata
  rw [hn, h]
  rfl

theorem additionalVersionsOf_of_lookup {text : Text}
    (h : m.lookup "additionalversions".toList = some text) :
    additionalVersionsOf m = parseAdditionalVersions text :=
  congrArg parseAdditionalVersions (textEntry_of_lookup rfl h)

theorem textEntry_of_lookup_none {name lower : Text} (hn : name.map Char.toLower = lower)
    (h : m.lookup lower = none) : textEntry m name = [] := by
  unfold textEntry findMetadata
  rw [hn, h]
  rfl

end

section

variable {ι : Type u} [Base64Url] {calls : Calls ι} {j : Journal.State ι Text} {s : System ι}

/-- The version that the creator of a slot records. -/
def creatorVersion (calls : Calls ι) (c : ι) : AdditionalVersion where
  hash := (calls.call c).chunk.hash
  parentHash := (calls.call c).chunk.parentHash
  location := (calls.call c).blobName

omit [Base64Url] in
theorem Call.content_eq (call : Call) : call.content = call.chunk.buffer := by
  unfold Call.content
  rw [call.chunk.bufferSize_eq, List.take_length]

theorem textEntry_slotMetadata (c : ι) (log : List ι) :
    textEntry (slotMetadata calls c log) "additionalversions".toList =
      if log = [] then []
      else serializeAdditionalVersions (versions calls (log.rtake maxVersions)) := by
  split
  · next h =>
    subst h
    exact textEntry_of_lookup_none rfl (lookup_slotMetadata_nil c)
  · next h => exact textEntry_of_lookup rfl (lookup_slotMetadata_cons c h)

theorem additionalVersionsOf_slotMetadata (c : ι) (log : List ι) :
    additionalVersionsOf (slotMetadata calls c log) =
      .ok (versions calls (log.rtake maxVersions)) := by
  unfold additionalVersionsOf
  rw [textEntry_slotMetadata]
  split
  · next h =>
    subst h
    rfl
  · exact parse_versions _

theorem defaultVersion_slotMetadata {c : ι} {b : Text} (hb : (calls.call c).blobName = b)
    (log : List ι) :
    defaultVersion (slotMetadata calls c log) b = .ok (creatorVersion calls c) := by
  subst hb
  unfold defaultVersion
  rw [hashEntry_hash (lookup_slotMetadata_hash c log),
    hashEntry_parenthash (lookup_slotMetadata_parenthash c log)]
  rfl

/-- A block that no call created has no blob. -/
theorem Refines.blobs_eq_none (h : Refines calls j s) {tokens : List Token}
    (hc : j.creator (encodeTokensToBlobName tokens) = none) :
    s.store.blobs (encodeTokensToBlobName tokens) = none :=
  h.absent hc fun i _ => generateGuid_ne_blobName (calls.call i).part1 (calls.call i).part2 tokens

theorem Refines.listedVersions (h : Refines calls j s) (hinv : Journal.Inv (protocol calls) j)
    (tokens : List Token) :
    listedVersions s.store (encodeTokensToBlobName tokens) =
      .ok (versions calls (j.view (protocol calls) (encodeTokensToBlobName tokens))) := by
  unfold KVStore.listedVersions Journal.State.view
  rcases hc : j.creator (encodeTokensToBlobName tokens) with _ | c
  · rw [h.blobs_eq_none hc, hinv.log_eq_nil hc, List.rtake_nil]
    rfl
  · obtain ⟨etag, -, hblob⟩ := h.base hc
    rw [hblob]
    exact additionalVersionsOf_slotMetadata c _

theorem Refines.recordedVersions (h : Refines calls j s) (hinv : Journal.Inv (protocol calls) j)
    {b : Text} {c : ι} (hc : j.creator b = some c) :
    recordedVersions s.store b =
      .ok (creatorVersion calls c :: versions calls (j.view (protocol calls) b)) := by
  obtain ⟨etag, -, hblob⟩ := h.base hc
  obtain rfl : (calls.call c).blobName = b := hinv.slot_creator hc
  unfold KVStore.recordedVersions
  rw [hblob]
  show (do
    let version ← defaultVersion (slotMetadata calls c _) _
    let versions ← additionalVersionsOf (slotMetadata calls c _)
    return version :: versions) = _
  rw [defaultVersion_slotMetadata rfl, additionalVersionsOf_slotMetadata]
  rfl

/-- The default version of a block is its creator's. -/
theorem Refines.recordsDefault_iff (h : Refines calls j s) (hinv : Journal.Inv (protocol calls) j)
    {tokens : List Token} {v : AdditionalVersion} :
    RecordsDefault s.store (encodeTokensToBlobName tokens) v ↔
      ∃ c, j.creator (encodeTokensToBlobName tokens) = some c ∧ v = creatorVersion calls c := by
  constructor
  · rintro ⟨blob, hblob, hv⟩
    rcases hc : j.creator (encodeTokensToBlobName tokens) with _ | c
    · cases (h.blobs_eq_none hc).symm.trans hblob
    · obtain ⟨etag, -, hblob'⟩ := h.base hc
      cases hblob'.symm.trans hblob
      cases hv.symm.trans (defaultVersion_slotMetadata (hinv.slot_creator hc) _)
      exact ⟨c, rfl, rfl⟩
  · rintro ⟨c, hc, rfl⟩
    obtain ⟨etag, -, hblob⟩ := h.base hc
    exact ⟨_, hblob, defaultVersion_slotMetadata (hinv.slot_creator hc) _⟩

/-- The additional versions of a block are those of the window of its slot. -/
theorem Refines.recordsAdditional_iff (h : Refines calls j s)
    (hinv : Journal.Inv (protocol calls) j) {tokens : List Token} {v : AdditionalVersion} :
    RecordsAdditional s.store (encodeTokensToBlobName tokens) v ↔
      ∃ a ∈ j.view (protocol calls) (encodeTokensToBlobName tokens),
        v = (calls.call a).newVersion := by
  constructor
  · rintro ⟨blob, listed, hblob, hlist, hv⟩
    rcases hc : j.creator (encodeTokensToBlobName tokens) with _ | c
    · cases (h.blobs_eq_none hc).symm.trans hblob
    · obtain ⟨etag, -, hblob'⟩ := h.base hc
      cases hblob'.symm.trans hblob
      cases hlist.symm.trans (additionalVersionsOf_slotMetadata c _)
      obtain ⟨a, ha, rfl⟩ := List.mem_map.mp hv
      exact ⟨a, ha, rfl⟩
  · rintro ⟨a, ha, rfl⟩
    have hsound := hinv.sound a
    obtain ⟨hslot, hpub⟩ := hinv.mem_log (mem_of_mem_rtake ha)
    rw [hpub] at hsound
    obtain ⟨-, c, hc⟩ := hsound
    rw [hslot] at hc
    obtain ⟨etag, -, hblob⟩ := h.base hc
    exact ⟨_, _, hblob, additionalVersionsOf_slotMetadata c _, List.mem_map_of_mem ha⟩

theorem Refines.readAsync_creator (h : Refines calls j s) {b : Text} {c : ι}
    (hc : j.creator b = some c) :
    readAsync s.store b = .ok (true, {
      parentHash := (calls.call c).chunk.parentHash
      hash := (calls.call c).chunk.hash
      buffer := (calls.call c).chunk.buffer }) := by
  obtain ⟨etag, -, hblob⟩ := h.base hc
  have hpartition : textEntry (slotMetadata calls c (j.log b)) "partitionKey".toList = [] := by
    apply textEntry_of_lookup_none rfl
    unfold slotMetadata
    split
    · rfl
    · exact (lookup_setEntry_ne _ _ (by decide)).trans rfl
  unfold readAsync
  rw [hblob, ← Call.content_eq]
  show (do
    let parentHash ← hashEntry (slotMetadata calls c _) _
    let hash ← hashEntry (slotMetadata calls c _) _
    let chunk : PromptChunk := {
      partitionKey := textEntry (slotMetadata calls c _) _, parentHash, hash,
      buffer := (calls.call c).content }
    return (true, chunk)) = _
  rw [hashEntry_hash (lookup_slotMetadata_hash c _),
    hashEntry_parentHash (lookup_slotMetadata_parenthash c _), hpartition]
  rfl

theorem Refines.readAsync_staged (h : Refines calls j s) {i : ι} (hi : i ∈ j.staged) :
    readAsync s.store (calls.call i).guidLocation = .ok (true, {
      parentHash := (calls.call i).chunk.parentHash
      hash := (calls.call i).chunk.hash
      buffer := (calls.call i).chunk.buffer }) := by
  obtain ⟨etag, hblob⟩ := h.staged hi
  unfold readAsync
  rw [hblob, ← Call.content_eq]
  show (do
    let parentHash ← hashEntry ((calls.call i).uploadMetadata _) _
    let hash ← hashEntry ((calls.call i).uploadMetadata _) _
    let chunk : PromptChunk := {
      partitionKey := textEntry ((calls.call i).uploadMetadata _) _, parentHash, hash,
      buffer := (calls.call i).content }
    return (true, chunk)) = _
  rw [hashEntry_hash (Call.lookup_hash (calls.call i) _),
    hashEntry_parentHash (Call.lookup_parenthash (calls.call i) _)]
  rfl

/-- A recorded version is that of a call on the block; its location can be read when the windows are
dense. -/
theorem Refines.records (h : Refines calls j s) (hinv : Journal.Inv (protocol calls) j)
    (hd : Journal.Dense (protocol calls) j) {tokens : List Token} {v : AdditionalVersion}
    (hv : Records s.store (encodeTokensToBlobName tokens) v) :
    ∃ i, (calls.call i).blobName = encodeTokensToBlobName tokens ∧
      v.hash = (calls.call i).chunk.hash ∧ v.parentHash = (calls.call i).chunk.parentHash ∧
      readAsync s.store v.location = .ok (true, {
        parentHash := (calls.call i).chunk.parentHash
        hash := (calls.call i).chunk.hash
        buffer := (calls.call i).chunk.buffer }) := by
  rcases hv with hv | hv
  · obtain ⟨c, hc, rfl⟩ := (h.recordsDefault_iff hinv).mp hv
    have hslot : (calls.call c).blobName = _ := hinv.slot_creator hc
    rw [← hslot] at hc
    exact ⟨c, hslot, rfl, rfl, h.readAsync_creator hc⟩
  · obtain ⟨a, ha, rfl⟩ := (h.recordsAdditional_iff hinv).mp hv
    exact ⟨a, (hinv.mem_log (mem_of_mem_rtake ha)).1, rfl, rfl, h.readAsync_staged (hd ha)⟩

/-- The GUID blobs are the blobs of the staged entries. -/
theorem Refines.isSome_guid_iff (h : Refines calls j s) (hinv : Journal.Inv (protocol calls) j)
    (part1 part2 : UInt64) : (s.store.blobs (generateGuid part1 part2)).isSome ↔
      ∃ i ∈ j.staged, (calls.call i).guidLocation = generateGuid part1 part2 := by
  refine ⟨fun hs => ?_, ?_⟩
  · by_contra hno
    have hc : j.creator (generateGuid part1 part2) = none := by
      rw [Option.eq_none_iff_forall_not_mem]
      intro c hc
      exact generateGuid_ne_blobName part1 part2 _ (hinv.slot_creator hc).symm
    rw [h.absent hc fun i hi he => hno ⟨i, hi, he⟩] at hs
    cases hs
  · rintro ⟨i, hi, he⟩
    obtain ⟨etag, hblob⟩ := h.staged hi
    rw [← he, hblob]
    rfl

theorem Refines.isSome_guidLocation_iff (h : Refines calls j s)
    (hinv : Journal.Inv (protocol calls) j) {i : ι} :
    (s.store.blobs (calls.call i).guidLocation).isSome ↔ i ∈ j.staged := by
  refine (h.isSome_guid_iff hinv _ _).trans ⟨?_, fun hi => ⟨i, hi, rfl⟩⟩
  rintro ⟨a, ha, he⟩
  exact calls.guid_injective he ▸ ha

end

end KVStore
