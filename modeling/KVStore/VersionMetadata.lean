import KVStore.Retrieval

/-!
# The version metadata of a block

The versions of a block travel through the metadata of its blob as text. What was written is read
back (`additionalVersions_roundTrip`), and it always fits: every number has at most 20 digits, a
GUID has 33 characters, and no list is longer than `maxVersions` (`metadata_fits`).
-/

namespace KVStore

open RecentWindow

universe u

/-! ## The text of a list -/

/-- A location without the characters that end a field or an object. -/
def BareLocation (location : Text) : Prop :=
  '"' ∉ location ∧ '}' ∉ location

theorem BareLocation.plain {location : Text} (h : BareLocation location) : PlainLocation location :=
  ⟨h.1, fun hmem => h.2 (List.mem_of_mem_dropLast hmem)⟩

theorem bareLocation_generateGuid (part1 part2 : UInt64) :
    BareLocation (generateGuid part1 part2) := by
  constructor
  · intro h
    exact absurd (mem_generateGuid h) (by decide)
  · intro h
    exact absurd (mem_generateGuid h) (by decide)

/-- The parser returns every list that was printed, in order and without throwing, when no location
has a quote or a closing brace; no GUID has one. -/
theorem additionalVersions_roundTrip :
    (∀ part1 part2, BareLocation (generateGuid part1 part2)) ∧
      ∀ vs : List AdditionalVersion, (∀ v ∈ vs, BareLocation v.location) →
        parseAdditionalVersions (serializeAdditionalVersions vs) = .ok vs := by
  refine ⟨bareLocation_generateGuid, fun vs h => ?_⟩
  apply parse_serialize
  intro v hv
  exact (h v hv).plain

theorem additionalVersions_roundTrip_pair : parseAdditionalVersions (serializeAdditionalVersions
    [{ hash := 7, parentHash := 18446744073709551615, location := generateGuid 1 2 },
      { hash := 0, parentHash := 7, location := "a,b:[\x7b".toList }]) =
    .ok [{ hash := 7, parentHash := 18446744073709551615, location := generateGuid 1 2 },
      { hash := 0, parentHash := 7, location := "a,b:[\x7b".toList }] := by
  apply additionalVersions_roundTrip.2
  intro v hv
  rw [List.mem_cons, List.mem_singleton] at hv
  rcases hv with rfl | rfl
  · exact bareLocation_generateGuid 1 2
  · exact ⟨by decide, by decide⟩

theorem length_toText_le (n : UInt64) : (toText n).length ≤ 20 := by
  have hlt : n.toNat < 10 ^ 20 := n.toNat_lt.trans (by decide)
  exact (Nat.length_toDigits_le_iff (by decide) (by decide)).mpr hlt

/-- The printed object of a version that `WriteAsync` adds. -/
theorem length_serializeVersion_le (call : Call) :
    (serializeVersion call.newVersion).length ≤ 114 := by
  have hguid : call.newVersion.location.length = 33 := length_generateGuid _ _
  have hend : ("\"\x7d".toList).length = 2 := rfl
  have hhash := length_toText_le call.newVersion.hash
  have hparent := length_toText_le call.newVersion.parentHash
  rw [serializeVersion_eq, List.length_append, List.length_append, length_versionHead]
  omega

/-- A printed list, by the length of its longest object. -/
theorem length_serialize_le {vs : List AdditionalVersion} {k : Nat}
    (h : ∀ v ∈ vs, (serializeVersion v).length ≤ k) :
    (serializeAdditionalVersions vs).length ≤ 2 + (k + 1) * vs.length := by
  have hbody : ([','].intercalate (vs.map serializeVersion)).length ≤ (k + 1) * vs.length := by
    induction vs with
    | nil => exact Nat.zero_le _
    | cons v vs ih =>
      have hv := h v List.mem_cons_self
      have hrest := ih fun w hw => h w (List.mem_cons_of_mem _ hw)
      rw [List.length_cons, Nat.mul_succ]
      cases vs with
      | nil =>
        simp only [List.map_cons, List.map_nil, List.intercalate, List.intersperse_singleton,
          List.flatten_cons, List.flatten_nil, List.append_nil]
        omega
      | cons w vs =>
        simp only [List.map_cons, List.intercalate, List.intersperse_cons_cons, List.flatten_cons,
          List.length_append, List.length_cons, List.length_nil] at hrest ⊢
        omega
  have hopen : ("[".toList).length = 1 := rfl
  have hclose : ("]".toList).length = 1 := rfl
  have hempty : ("[]".toList).length = 2 := rfl
  unfold serializeAdditionalVersions
  split
  · omega
  · rw [List.length_append, List.length_append]
    omega

/-! ## The metadata of a blob -/

/-- The total length of the names and values. -/
def metadataSize : Metadata → Nat
  | [] => 0
  | (name, value) :: m => name.length + value.length + metadataSize m

theorem metadataSize_append (m m' : Metadata) :
    metadataSize (m ++ m') = metadataSize m + metadataSize m' := by
  induction m with
  | nil => exact (Nat.zero_add _).symm
  | cons entry m ih =>
    rw [List.cons_append, metadataSize, ih, metadataSize]
    omega

section

variable {ι : Type u} [Base64Url] {calls : Calls ι}

variable (calls) in
omit [Base64Url] in
/-- A window holds at most `maxVersions` versions, and each of them takes at most 115 characters. -/
theorem length_serialize_window (log : List ι) :
    (serializeAdditionalVersions (versions calls (log.rtake maxVersions))).length ≤ 6902 := by
  have hobject : ∀ v ∈ versions calls (log.rtake maxVersions),
      (serializeVersion v).length ≤ 114 := by
    intro v hv
    obtain ⟨i, -, rfl⟩ := List.mem_map.mp hv
    exact length_serializeVersion_le _
  have hcount : (versions calls (log.rtake maxVersions)).length ≤ 60 := by
    rw [length_versions, List.rtake, List.length_drop]
    have hmax : maxVersions = 60 := rfl
    omega
  have hlen := length_serialize_le hobject
  omega

omit [Base64Url] in
theorem metadataSize_upload (call : Call) (location : Text) :
    metadataSize (call.uploadMetadata location) ≤ 62 + location.length := by
  have hhash := length_toText_le call.chunk.hash
  have hparent := length_toText_le call.chunk.parentHash
  have hsize : metadataSize (call.uploadMetadata location) =
      4 + (toText call.chunk.hash).length +
        (10 + (toText call.chunk.parentHash).length + (8 + location.length + 0)) := rfl
  omega

variable (calls) in
/-- The metadata of a base blob, by the length of its name. -/
theorem metadataSize_slot (c : ι) (log : List ι) :
    metadataSize (slotMetadata calls c log) ≤ 6982 + (calls.call c).blobName.length := by
  have hupload := metadataSize_upload (calls.call c) (calls.call c).blobName
  unfold slotMetadata
  split
  · exact hupload.trans (by omega)
  · have hlist := length_serialize_window calls log
    have hset : ∀ text : Text, metadataSize (setEntry ((calls.call c).uploadMetadata
        (calls.call c).blobName) "additionalversions".toList text) =
          metadataSize ((calls.call c).uploadMetadata (calls.call c).blobName) +
            (18 + text.length) := by
      intro text
      have hentries : setEntry ((calls.call c).uploadMetadata (calls.call c).blobName)
          "additionalversions".toList text = (calls.call c).uploadMetadata
            (calls.call c).blobName ++ [("additionalversions".toList, text)] := rfl
      rw [hentries, metadataSize_append]
      rfl
    exact (Nat.le_of_eq (hset _)).trans (by omega)

variable [DecidableEq ι] {tr : List (System ι × Event ι)} {s : System ι}

/-- On every store that calls have written, the metadata of a base blob whose name has at most 1024
characters takes at most 8192, and so does what any call is about to send with `SetMetadata`. -/
theorem metadata_fits (h : Runs serviceFaults calls Container.empty tr s) :
    (∀ tokens blob, s.store.blobs (encodeTokensToBlobName tokens) = some blob →
      (encodeTokensToBlobName tokens).length ≤ 1024 → metadataSize blob.metadata ≤ 8192) ∧
    ∀ i retry l, s.point i = .setMetadata retry l → (calls.call i).blobName.length ≤ 1024 →
      metadataSize (updatedMetadata l) ≤ 8192 := by
  obtain ⟨j, hr, hinv⟩ := Runs.refines id h
  constructor
  · intro tokens blob hblob hname
    rcases hc : j.creator (encodeTokensToBlobName tokens) with _ | c
    · cases (hr.blobs_eq_none hc).symm.trans hblob
    · obtain ⟨etag, -, hslot⟩ := hr.base hc
      cases hblob.symm.trans hslot
      have hsize := metadataSize_slot calls c (j.log (encodeTokensToBlobName tokens))
      have hcreator : (calls.call c).blobName = encodeTokensToBlobName tokens :=
        hinv.slot_creator hc
      rw [hcreator] at hsize
      exact hsize.trans (by omega)
  · intro i retry l hpoint hname
    have hat := hr.point i
    have hsound := hinv.sound i
    rw [hpoint] at hat
    generalize j.phase i = p at hat hsound
    cases hat with
    | @publishing r k l hsnap hv =>
      obtain ⟨-, ⟨c, hc⟩, -⟩ := hsound
      rw [updatedMetadata_slotMetadata (hsnap.metadata hc) hv]
      have hsize := metadataSize_slot calls c
        ((j.log (calls.call i).blobName).take k ++ [i])
      have hcreator : (calls.call c).blobName = (calls.call i).blobName := hinv.slot_creator hc
      rw [hcreator] at hsize
      exact hsize.trans (by omega)

end

section

attribute [local instance] Base64Url.unpadded

theorem metadata_fits_repeated :
    ∃ blob, repeatedBlockRun.2.store.blobs (encodeTokensToBlobName zeroBlock) = some blob ∧
      metadataSize blob.metadata ≤ 8192 := by
  have hname : (encodeTokensToBlobName zeroBlock).length ≤ 1024 := by decide +kernel
  have hsome :
      (repeatedBlockRun.2.store.blobs (encodeTokensToBlobName zeroBlock)).isSome = true := by
    decide +kernel
  obtain ⟨blob, hblob⟩ := Option.isSome_iff_exists.mp hsome
  exact ⟨blob, hblob, (metadata_fits repeatedBlockRun_run).1 zeroBlock blob hblob hname⟩

end

end KVStore
