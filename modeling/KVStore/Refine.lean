import KVStore.System
import KVStore.Lib.Journal

/-!
# The calls of `WriteAsync` maintain a journal

The abstract model of the store is a journal: a slot per block name, created by the first call that
writes the block, whose log holds the calls that published an additional version. `Refines` says
how the container and the points of the calls represent a journal: a base blob carries the chunk of
its creator and the last `maxVersions` entries of its log as metadata, the GUID blobs are the staged
entries, and the locals of a call are a snapshot of a prefix of the log whose ETag is current
exactly when the log has not grown.

`Refines.served` and `Refines.fault`: every step of a call is a step of its writer in the journal.
`Runs.refines` carries this to runs from the empty container.
-/

namespace KVStore

open Transition RecentWindow

universe u

/-! ## Metadata entries -/

theorem lookup_setEntry_self (m : Metadata) (name value : Text) :
    (setEntry m name value).lookup name = some value := by
  induction m with
  | nil => simp [setEntry]
  | cons p m ih =>
    rw [setEntry]
    split
    · next h => simp [h]
    · next h => rw [List.lookup_cons, beq_false_of_ne (Ne.symm h), ih]

theorem lookup_setEntry_ne (m : Metadata) {name name' : Text} (value : Text) (h : name' ≠ name) :
    (setEntry m name value).lookup name' = m.lookup name' := by
  induction m with
  | nil => simp [setEntry, List.lookup_cons, beq_false_of_ne h]
  | cons p m ih =>
    rw [setEntry]
    split
    · next he =>
      obtain ⟨n, v⟩ := p
      subst he
      rw [List.lookup_cons, List.lookup_cons, beq_false_of_ne h]
    · rw [List.lookup_cons, List.lookup_cons, ih]

theorem setEntry_setEntry (m : Metadata) (name value value' : Text) :
    setEntry (setEntry m name value) name value' = setEntry m name value' := by
  induction m with
  | nil => simp [setEntry]
  | cons p m ih =>
    by_cases h : p.1 = name
    · simp [setEntry, h]
    · simp [setEntry, h, ih]

theorem touchEntry_of_lookup {m : Metadata} {name value : Text} (h : m.lookup name = some value) :
    touchEntry m name = m := by
  rw [touchEntry, h]
  rfl

theorem Call.lookup_hash (call : Call) (location : Text) :
    (call.uploadMetadata location).lookup "hash".toList = some (toText call.chunk.hash) := rfl

theorem Call.lookup_parenthash (call : Call) (location : Text) :
    (call.uploadMetadata location).lookup "parenthash".toList =
      some (toText call.chunk.parentHash) := rfl

theorem Call.lookup_additionalversions (call : Call) (location : Text) :
    (call.uploadMetadata location).lookup "additionalversions".toList = none := rfl

/-! ## The journal of a container -/

section

variable {ι : Type u} [Base64Url] (calls : Calls ι)

def protocol : Journal.Protocol ι Text (Hash × Hash) where
  slot i := (calls.call i).blobName
  key i := ((calls.call i).chunk.hash, (calls.call i).chunk.parentHash)
  window := maxVersions
  attempts := maxRetries
  window_pos := by decide

def versions (l : List ι) : List AdditionalVersion :=
  l.map fun i => (calls.call i).newVersion

/-- The metadata of the blob that `c` created and to which the calls `log` were published. -/
def slotMetadata (c : ι) (log : List ι) : Metadata :=
  let uploaded := (calls.call c).uploadMetadata (calls.call c).blobName
  if log = [] then uploaded
  else setEntry uploaded "additionalversions".toList
    (serializeAdditionalVersions (versions calls (log.rtake maxVersions)))

def slotBlob (c : ι) (log : List ι) (etag : ETag) : Blob where
  content := (calls.call c).content
  metadata := slotMetadata calls c log
  etag

/-- The blob of a staged entry. -/
def entryBlob (i : ι) (etag : ETag) : Blob where
  content := (calls.call i).content
  metadata := (calls.call i).uploadMetadata (calls.call i).guidLocation
  etag

variable {calls}

theorem lookup_slotMetadata_hash (c : ι) (log : List ι) :
    (slotMetadata calls c log).lookup "hash".toList =
      some (toText (calls.call c).chunk.hash) := by
  unfold slotMetadata
  split
  · exact Call.lookup_hash ..
  · exact (lookup_setEntry_ne _ _ (by decide)).trans (Call.lookup_hash ..)

theorem lookup_slotMetadata_parenthash (c : ι) (log : List ι) :
    (slotMetadata calls c log).lookup "parenthash".toList =
      some (toText (calls.call c).chunk.parentHash) := by
  unfold slotMetadata
  split
  · exact Call.lookup_parenthash ..
  · exact (lookup_setEntry_ne _ _ (by decide)).trans (Call.lookup_parenthash ..)

theorem lookup_slotMetadata_nil (c : ι) :
    (slotMetadata calls c []).lookup "additionalversions".toList = none :=
  Call.lookup_additionalversions ..

theorem lookup_slotMetadata_cons (c : ι) {log : List ι} (h : log ≠ []) :
    (slotMetadata calls c log).lookup "additionalversions".toList =
      some (serializeAdditionalVersions (versions calls (log.rtake maxVersions))) := by
  unfold slotMetadata
  rw [if_neg h]
  exact lookup_setEntry_self ..

omit [Base64Url] in
theorem parse_versions (l : List ι) :
    parseAdditionalVersions (serializeAdditionalVersions (versions calls l)) =
      .ok (versions calls l) := by
  refine parse_serialize fun v hv => ?_
  obtain ⟨i, -, rfl⟩ := List.mem_map.mp hv
  exact Call.plainLocation_newVersion _

omit [Base64Url] in
theorem length_versions (l : List ι) : (versions calls l).length = l.length :=
  List.length_map ..

/-- What `SetMetadata` sends when the snapshot is of the whole log. -/
theorem updatedMetadata_slotMetadata {l : WriteLocals} {c i : ι} {log : List ι}
    (hm : l.metadata = slotMetadata calls c log)
    (hv : l.existingVersions = versions calls ((log ++ [i]).rtake maxVersions)) :
    updatedMetadata l = slotMetadata calls c (log ++ [i]) := by
  have hset : setEntry l.metadata "additionalversions".toList
      (serializeAdditionalVersions l.existingVersions) = slotMetadata calls c (log ++ [i]) := by
    rw [hm, hv]
    unfold slotMetadata
    rw [if_neg (List.append_ne_nil_of_right_ne_nil _ (List.cons_ne_nil _ _))]
    split
    · rfl
    · exact setEntry_setEntry ..
  unfold updatedMetadata
  rw [hset, touchEntry_of_lookup (lookup_slotMetadata_hash c _),
    touchEntry_of_lookup (lookup_slotMetadata_parenthash c _)]

theorem guidLocation_ne_blobName (call call' : Call) : call.guidLocation ≠ call'.blobName :=
  generateGuid_ne_blobName call.part1 call.part2 call'.chunk.tokens

/-! ## Snapshots -/

section

variable (calls) (creator : Text → Option ι) (log : Text → List ι) (store : Container) (i : ι)

/-- The locals of call `i` come from the first `k` entries of the log of its block. -/
structure Snapshot (k : Nat) (l : WriteLocals) : Prop where
  metadata : ∀ {c}, creator (calls.call i).blobName = some c →
    l.metadata = slotMetadata calls c ((log (calls.call i).blobName).take k)
  etag_lt : l.currentETag < store.clock
  current : ∀ {blob}, store.blobs (calls.call i).blobName = some blob →
    (blob.etag = l.currentETag ↔ k = (log (calls.call i).blobName).length)

/-- The point of call `i` that represents a phase of its writer. -/
inductive At : Journal.Phase → WritePoint → Prop
  | starting : At .starting .upload
  | reading : At .reading .getProperties
  | staging {k l} (h : Snapshot calls creator log store i k l)
      (hv : l.existingVersions =
        versions calls (((log (calls.call i).blobName).take k).rtake maxVersions)) :
      At (.staging k) (.guidUpload l)
  | rereading {r k l} : At (.rereading r k) (.refetch r l)
  | evicting {r k l} (h : Snapshot calls creator log store i k l)
      (hv : l.existingVersions =
        versions calls (((log (calls.call i).blobName).take k).rtake maxVersions ++ [i])) :
      At (.evicting r k) (.evict r l)
  | publishing {r k l} (h : Snapshot calls creator log store i k l)
      (hv : l.existingVersions =
        versions calls (((log (calls.call i).blobName).take k ++ [i]).rtake maxVersions)) :
      At (.publishing r k) (.setMetadata r l)
  | created : At (.done .created) (.finished .uploaded)
  | own : At (.done .own) (.finished .identical)
  | listed : At (.done .listed) (.finished .alreadyListed)
  | published : At (.done .published) (.finished .updated)
  | rejected {status} : At (.done .rejected) (.finished (.storageException status))
  | abandoned {status} : At (.done .abandoned) (.finished (.storageException status))

end

/-- A blob that another call leaves alone, or replaces while its log grows. -/
def Succeeds (store store' : Container) (log log' : Text → List ι) (b : Text) : Prop :=
  store'.blobs b = store.blobs b ∧ log' b = log b ∨
    (∃ blob, store'.blobs b = some blob ∧ store.clock ≤ blob.etag) ∧
      log b <+: log' b ∧ (log b).length < (log' b).length

variable {creator creator' : Text → Option ι} {log log' : Text → List ι}
  {store store' : Container} {i : ι}

theorem Snapshot.frame {k : Nat} {l : WriteLocals} (h : Snapshot calls creator log store i k l)
    (hk : k ≤ (log (calls.call i).blobName).length)
    (hc : creator' (calls.call i).blobName = creator (calls.call i).blobName)
    (hclock : store.clock ≤ store'.clock)
    (hb : Succeeds store store' log log' (calls.call i).blobName) :
    Snapshot calls creator' log' store' i k l := by
  have hlt := h.etag_lt.trans_le hclock
  rcases hb with ⟨hblob, hlog⟩ | ⟨⟨blob, hblob, hetag⟩, hpre, hlen⟩
  · refine ⟨?_, hlt, ?_⟩
    · rw [hc, hlog]
      exact h.metadata
    · rw [hblob, hlog]
      exact h.current
  · refine ⟨?_, hlt, ?_⟩
    · obtain ⟨t, ht⟩ := hpre
      rw [hc, ← ht, List.take_append_of_le_length hk]
      exact h.metadata
    · intro blob' hblob'
      rw [hblob] at hblob'
      cases hblob'
      apply iff_of_false (Nat.ne_of_gt (h.etag_lt.trans_le hetag))
      omega

theorem At.frame {p : Journal.Phase} {pt : WritePoint} {j : Journal.State ι Text}
    (h : At calls j.creator j.log store i p pt) (hs : Journal.Sound (protocol calls) j i p)
    (hc : ∀ {c}, j.creator (calls.call i).blobName = some c →
      creator' (calls.call i).blobName = some c)
    (hclock : store.clock ≤ store'.clock)
    (hb : ∀ c, j.creator (calls.call i).blobName = some c →
      Succeeds store store' j.log log' (calls.call i).blobName) :
    At calls creator' log' store' i p pt := by
  have hsame : ∀ {k}, (∃ c, j.creator (calls.call i).blobName = some c) →
      k ≤ (j.log (calls.call i).blobName).length →
      (∀ {l}, Snapshot calls j.creator j.log store i k l →
        Snapshot calls creator' log' store' i k l) ∧
      (log' (calls.call i).blobName).take k = (j.log (calls.call i).blobName).take k := by
    rintro k ⟨c, hcc⟩ hk
    have hsucc := hb c hcc
    refine ⟨fun hsnap => hsnap.frame hk ((hc hcc).trans hcc.symm) hclock hsucc, ?_⟩
    rcases hsucc with ⟨-, hlog⟩ | ⟨-, ⟨t, ht⟩, -⟩
    · rw [hlog]
    · rw [← ht, List.take_append_of_le_length hk]
  cases h with
  | staging hsnap hv =>
    obtain ⟨hframe, htake⟩ := hsame hs.2.1 hs.2.2
    exact .staging (hframe hsnap) (by rw [htake, hv])
  | evicting hsnap hv =>
    obtain ⟨hframe, htake⟩ := hsame hs.2.1 hs.2.2.1
    exact .evicting (hframe hsnap) (by rw [htake, hv])
  | publishing hsnap hv =>
    obtain ⟨hframe, htake⟩ := hsame hs.2.1 hs.2.2
    exact .publishing (hframe hsnap) (by rw [htake, hv])
  | starting => exact .starting
  | reading => exact .reading
  | rereading => exact .rereading
  | created => exact .created
  | own => exact .own
  | listed => exact .listed
  | published => exact .published
  | rejected => exact .rejected
  | abandoned => exact .abandoned

/-! ## The code between two operations -/

section

omit [Base64Url]

theorem versions_append_tail {k : Nat} {log : List ι} (hk : k ≤ log.length)
    (hw : maxVersions ≤ k) :
    (versions calls ((log.take k).rtake maxVersions ++ [i])).tail =
      versions calls ((log.take k ++ [i]).rtake maxVersions) := by
  have hlen : (log.take k).length = k := List.length_take_of_le hk
  rw [rtake_append_singleton (by decide), rtake_eq_cons (by omega) (by decide)]
  unfold versions
  rw [← List.map_tail, List.cons_append, List.tail_cons, List.rtake]
  congr 3
  have : 0 < maxVersions := by decide
  omega

theorem head?_versions {k : Nat} {log : List ι} (hk : k ≤ log.length) (hw : maxVersions ≤ k) :
    ∃ a, log[k - maxVersions]? = some a ∧
      (versions calls ((log.take k).rtake maxVersions ++ [i])).head? =
        some (calls.call a).newVersion := by
  have hlen : (log.take k).length = k := List.length_take_of_le hk
  have hpos : 0 < maxVersions := by decide
  refine ⟨log[k - maxVersions], List.getElem?_eq_getElem _, ?_⟩
  rw [rtake_eq_cons (by omega) hpos]
  simp [versions, hk]

end

/-- The eviction loop deletes the entry that the append pushes out of the window. -/
theorem request_evict {r k : Nat} {l : WriteLocals} {log : List ι} (hk : k ≤ log.length)
    (hw : maxVersions ≤ k)
    (hv : l.existingVersions = versions calls ((log.take k).rtake maxVersions ++ [i])) :
    ∃ a, log[k - maxVersions]? = some a ∧
      (WritePoint.evict r l).request (calls.call i) =
        some (.delete (calls.call a).guidLocation) := by
  obtain ⟨a, ha, hhead⟩ := @head?_versions _ calls i _ _ hk hw
  refine ⟨a, ha, ?_⟩
  simp only [WritePoint.request, hv, hhead]
  rfl

/-- The first list of versions is within the cap or exceeds it by one, as the read log is. -/
theorem At.attempt {r k : Nat} {l : WriteLocals} (h : Snapshot calls creator log store i k l)
    (hk : k ≤ (log (calls.call i).blobName).length)
    (hv : l.existingVersions =
      versions calls (((log (calls.call i).blobName).take k).rtake maxVersions)) :
    At calls creator log store i ((protocol calls).attempt r k)
      (appendVersion (calls.call i) r l) := by
  have happ : l.existingVersions ++ [(calls.call i).newVersion] =
      versions calls (((log (calls.call i).blobName).take k).rtake maxVersions ++ [i]) := by
    rw [hv]
    simp [versions]
  have hlen : (l.existingVersions ++ [(calls.call i).newVersion]).length =
      min maxVersions k + 1 := by
    rw [happ, length_versions, List.length_append, length_rtake, List.length_take_of_le hk,
      List.length_singleton]
  have hsnap : Snapshot calls creator log store i k
      { l with existingVersions := l.existingVersions ++ [(calls.call i).newVersion] } :=
    ⟨h.metadata, h.etag_lt, h.current⟩
  unfold Journal.Protocol.attempt appendVersion evictOrUpdate
  have hwindow : (protocol calls).window = maxVersions := rfl
  rw [hwindow, hlen]
  by_cases hw : maxVersions ≤ k
  · rw [if_pos hw, if_pos (by omega)]
    exact .evicting hsnap happ
  · rw [if_neg hw, if_neg (by omega)]
    refine .publishing hsnap (happ.trans ?_)
    have htake : ((log (calls.call i).blobName).take k).length ≤ k := List.length_take_le ..
    rw [rtake_of_length_le (by omega), rtake_of_length_le]
    rw [List.length_append, List.length_singleton]
    omega

theorem At.evicted {r k : Nat} {l : WriteLocals} (h : Snapshot calls creator log store i k l)
    (hk : k ≤ (log (calls.call i).blobName).length) (hw : maxVersions ≤ k)
    (hv : l.existingVersions =
      versions calls (((log (calls.call i).blobName).take k).rtake maxVersions ++ [i])) :
    At calls creator log store i (.publishing r k)
      (evictOrUpdate r { l with existingVersions := l.existingVersions.tail }) := by
  have htail : l.existingVersions.tail =
      versions calls (((log (calls.call i).blobName).take k ++ [i]).rtake maxVersions) := by
    rw [hv, versions_append_tail hk hw]
  have hlen : ¬ maxVersions < l.existingVersions.tail.length := by
    rw [htail, length_versions, length_rtake]
    omega
  unfold evictOrUpdate
  rw [if_neg hlen]
  exact .publishing ⟨h.metadata, h.etag_lt, h.current⟩ htail

theorem default_eq_iff {c : ι} {log : List ι} :
    ((slotMetadata calls c log).lookup "hash".toList = some (toText (calls.call i).chunk.hash) ∧
      (slotMetadata calls c log).lookup "parenthash".toList =
        some (toText (calls.call i).chunk.parentHash)) ↔
      (protocol calls).key c = (protocol calls).key i := by
  rw [lookup_slotMetadata_hash, lookup_slotMetadata_parenthash, Option.some.injEq,
    Option.some.injEq, protocol, Prod.mk.injEq]
  exact ⟨fun h => ⟨toText_injective h.1, toText_injective h.2⟩,
    fun h => ⟨congrArg toText h.1, congrArg toText h.2⟩⟩

theorem any_versions_iff {log : List ι} :
    ((versions calls log).any fun ver => ver.hash = (calls.call i).chunk.hash ∧
      ver.parentHash = (calls.call i).chunk.parentHash) = true ↔
      ∃ a ∈ log, (protocol calls).key a = (protocol calls).key i := by
  simp [versions, protocol, Call.newVersion]

theorem onProperties_own {c : ι} {log : List ι} {etag : ETag}
    (hk : (protocol calls).key c = (protocol calls).key i) :
    onProperties (calls.call i) etag (slotMetadata calls c log) = .finished .identical := by
  unfold onProperties
  rw [if_pos (default_eq_iff.mpr hk)]

theorem onProperties_other {c : ι} {log : List ι} {etag : ETag}
    (hk : (protocol calls).key c ≠ (protocol calls).key i) :
    onProperties (calls.call i) etag (slotMetadata calls c log) =
      if ∃ a ∈ log.rtake maxVersions, (protocol calls).key a = (protocol calls).key i then
        .finished .alreadyListed
      else .guidUpload
        { currentETag := etag
          metadata := slotMetadata calls c log
          existingVersions := versions calls (log.rtake maxVersions) } := by
  unfold onProperties
  rw [if_neg (mt default_eq_iff.mp hk)]
  by_cases heq : log = []
  · subst heq
    rw [lookup_slotMetadata_nil, List.rtake_nil, if_neg (by simp)]
    rfl
  · rw [lookup_slotMetadata_cons c heq]
    simp only [serialize_ne_nil, if_false, parse_versions, any_versions_iff]

theorem onRefetch_slotMetadata {c : ι} {log : List ι} {etag : ETag} {r : Nat} {l : WriteLocals}
    (hne : log ≠ []) :
    onRefetch (calls.call i) r l etag (slotMetadata calls c log) =
      appendVersion (calls.call i) r
        { currentETag := etag
          metadata := slotMetadata calls c log
          existingVersions := versions calls (log.rtake maxVersions) } := by
  unfold onRefetch
  rw [lookup_slotMetadata_cons c hne]
  simp only [parse_versions]

/-! ## The simulation -/

section

variable (calls)

structure Refines (j : Journal.State ι Text) (s : System ι) : Prop where
  base : ∀ {b c}, j.creator b = some c →
    ∃ etag < s.store.clock, s.store.blobs b = some (slotBlob calls c (j.log b) etag)
  staged : ∀ {i}, i ∈ j.staged →
    ∃ etag, s.store.blobs (calls.call i).guidLocation = some (entryBlob calls i etag)
  absent : ∀ {name}, j.creator name = none →
    (∀ i ∈ j.staged, (calls.call i).guidLocation ≠ name) → s.store.blobs name = none
  point : ∀ i, At calls j.creator j.log s.store i (j.phase i) (s.point i)

theorem Refines.initial : Refines calls Journal.State.initial (System.initial Container.empty) where
  base h := by cases h
  staged h := absurd h (Set.notMem_empty _)
  absent _ _ := rfl
  point _ := .starting

end

variable {j : Journal.State ι Text} {s : System ι}

section

variable {i : ι}

theorem Refines.point_of_starting (h : Refines calls j s) (hi : j.phase i = .starting) :
    s.point i = .upload := by
  have hat := h.point i
  rw [hi] at hat
  generalize s.point i = pt at hat
  cases hat
  rfl

theorem Refines.point_of_created (h : Refines calls j s) (hi : j.phase i = .done .created) :
    s.point i = .finished .uploaded := by
  have hat := h.point i
  rw [hi] at hat
  generalize s.point i = pt at hat
  cases hat
  rfl

theorem Refines.point_of_published (h : Refines calls j s) (hi : j.phase i = .done .published) :
    s.point i = .finished .updated := by
  have hat := h.point i
  rw [hi] at hat
  generalize s.point i = pt at hat
  cases hat
  rfl

theorem Refines.phase_of_uploaded (h : Refines calls j s)
    (hi : s.point i = .finished .uploaded) : j.phase i = .done .created := by
  have hat := h.point i
  rw [hi] at hat
  generalize j.phase i = p at hat
  cases hat
  rfl

end

/-- At rest, every writer has not started or is done. -/
theorem Refines.phase_of_quiescent (h : Refines calls j s) (hq : Quiescent s) (i : ι) :
    j.phase i = .starting ∨ ∃ o, j.phase i = .done o := by
  have hat := h.point i
  generalize j.phase i = p at hat
  rcases hq i with hp | ⟨o, hp⟩
  · rw [hp] at hat
    cases hat
    exact Or.inl rfl
  · rw [hp] at hat
    cases hat <;> exact Or.inr ⟨_, rfl⟩

variable [DecidableEq ι]

/-- A step of call `i` with an update of the journal and of the container. -/
theorem Refines.update {j₁ : Journal.State ι Text} {store' : Container} {p : Journal.Phase}
    {pt : WritePoint} (h : Refines calls j s) (hinv : Journal.Inv (protocol calls) j)
    (hphase : j₁.phase = j.phase)
    (hbase : ∀ {b c}, j₁.creator b = some c →
      ∃ etag < store'.clock, store'.blobs b = some (slotBlob calls c (j₁.log b) etag))
    (hstaged : ∀ {i}, i ∈ j₁.staged →
      ∃ etag, store'.blobs (calls.call i).guidLocation = some (entryBlob calls i etag))
    (habsent : ∀ {name}, j₁.creator name = none →
      (∀ i ∈ j₁.staged, (calls.call i).guidLocation ≠ name) → store'.blobs name = none)
    (hp : At calls j₁.creator j₁.log store' i p pt)
    (hcreator : ∀ {b c}, j.creator b = some c → j₁.creator b = some c)
    (hclock : s.store.clock ≤ store'.clock)
    (hb : ∀ b c, j.creator b = some c → Succeeds s.store store' j.log j₁.log b) :
    Refines calls (j₁.goto i p) { store := store', point := Function.update s.point i pt } where
  base := hbase
  staged := hstaged
  absent := habsent
  point i' := by
    show At calls j₁.creator j₁.log store' i' ((j₁.goto i p).phase i')
      (Function.update s.point i pt i')
    rw [Journal.State.goto_phase, hphase]
    by_cases heq : i' = i
    · subst heq
      rw [Function.update_self, Function.update_self]
      exact hp
    · rw [Function.update_of_ne heq, Function.update_of_ne heq]
      exact (h.point i').frame (hinv.sound i') hcreator hclock (hb _)

/-- A step of call `i` that changes nothing else. -/
theorem Refines.goto {p : Journal.Phase} {pt : WritePoint} (h : Refines calls j s)
    (hinv : Journal.Inv (protocol calls) j) (hp : At calls j.creator j.log s.store i p pt) :
    Refines calls (j.goto i p) { s with point := Function.update s.point i pt } :=
  h.update hinv rfl h.base h.staged h.absent hp id le_rfl fun _ _ _ => Or.inl ⟨rfl, rfl⟩

/-- Call `i` creates the blob of its block. -/
theorem Refines.create (h : Refines calls j s) (hinv : Journal.Inv (protocol calls) j)
    (hc : j.creator (calls.call i).blobName = none) :
    Refines calls ((j.create (calls.call i).blobName i).goto i (.done .created))
      { store := s.store.put (calls.call i).blobName (calls.call i).content
          ((calls.call i).uploadMetadata (calls.call i).blobName)
        point := Function.update s.point i (.finished .uploaded) } := by
  have hother : ∀ {b c}, j.creator b = some c → b ≠ (calls.call i).blobName := by
    rintro b c hbc rfl
    rw [hc] at hbc
    cases hbc
  refine h.update hinv rfl ?_ ?_ ?_ .created ?_ (Nat.le_succ _) ?_
  · intro b c hbc
    rw [Journal.State.create_creator] at hbc
    rcases eq_or_ne b (calls.call i).blobName with rfl | hne
    · rw [Function.update_self] at hbc
      cases hbc
      refine ⟨s.store.clock, Nat.lt_succ_self _, ?_⟩
      rw [Container.blobs_put_self, Journal.State.create_log, hinv.log_eq_nil hc]
      rfl
    · rw [Function.update_of_ne hne] at hbc
      obtain ⟨etag, hlt, hblob⟩ := h.base hbc
      exact ⟨etag, Nat.lt_succ_of_lt hlt, by rw [Container.blobs_put_ne _ hne, hblob]; rfl⟩
  · intro a ha
    obtain ⟨etag, hblob⟩ := h.staged ha
    exact ⟨etag, by rw [Container.blobs_put_ne _ (guidLocation_ne_blobName _ _), hblob]⟩
  · intro name hname hst
    rw [Journal.State.create_creator] at hname
    have hne : name ≠ (calls.call i).blobName := by
      rintro rfl
      rw [Function.update_self] at hname
      cases hname
    rw [Function.update_of_ne hne] at hname
    rw [Container.blobs_put_ne _ hne]
    exact h.absent hname hst
  · intro b c hbc
    rw [Journal.State.create_creator, Function.update_of_ne (hother hbc), hbc]
  · intro b c hbc
    exact Or.inl ⟨Container.blobs_put_ne _ (hother hbc), rfl⟩

omit [DecidableEq ι] in
theorem Refines.creator_guidLocation (hinv : Journal.Inv (protocol calls) j) (a : ι) :
    j.creator (calls.call a).guidLocation = none := by
  rw [Option.eq_none_iff_forall_not_mem]
  intro c hc
  exact guidLocation_ne_blobName _ _ (hinv.slot_creator hc).symm

/-- Call `i` uploads its GUID blob. -/
theorem Refines.stage {pt : WritePoint} {p : Journal.Phase}
    (h : Refines calls j s) (hinv : Journal.Inv (protocol calls) j)
    (hp : At calls j.creator j.log (s.store.put (calls.call i).guidLocation
      (calls.call i).content ((calls.call i).uploadMetadata (calls.call i).guidLocation)) i p pt) :
    Refines calls ((j.stage i).goto i p)
      { store := s.store.put (calls.call i).guidLocation (calls.call i).content
          ((calls.call i).uploadMetadata (calls.call i).guidLocation)
        point := Function.update s.point i pt } := by
  have hother : ∀ {b c}, j.creator b = some c → b ≠ (calls.call i).guidLocation := by
    rintro b c hbc rfl
    rw [Refines.creator_guidLocation hinv] at hbc
    cases hbc
  refine h.update hinv rfl ?_ ?_ ?_ hp id (Nat.le_succ _) ?_
  · intro b c hbc
    obtain ⟨etag, hlt, hblob⟩ := h.base hbc
    exact ⟨etag, Nat.lt_succ_of_lt hlt, by rw [Container.blobs_put_ne _ (hother hbc), hblob]; rfl⟩
  · intro a ha
    by_cases heq : a = i
    · subst heq
      exact ⟨_, Container.blobs_put_self _⟩
    · obtain ⟨etag, hblob⟩ := h.staged (Set.mem_of_mem_insert_of_ne ha heq)
      refine ⟨etag, ?_⟩
      rw [Container.blobs_put_ne _ (fun he => heq (calls.guid_injective he)), hblob]
  · intro name hname hst
    rw [Container.blobs_put_ne _ (hst i (Set.mem_insert _ _)).symm]
    exact h.absent hname fun a ha => hst a (Set.mem_insert_of_mem _ ha)
  · intro b c hbc
    exact Or.inl ⟨Container.blobs_put_ne _ (hother hbc), rfl⟩

/-- Call `i` deletes the GUID blob of an entry. -/
theorem Refines.unstage {a : ι} {pt : WritePoint} {p : Journal.Phase}
    (h : Refines calls j s) (hinv : Journal.Inv (protocol calls) j)
    (hp : At calls j.creator j.log (s.store.remove (calls.call a).guidLocation) i p pt) :
    Refines calls ((j.unstage a).goto i p)
      { store := s.store.remove (calls.call a).guidLocation
        point := Function.update s.point i pt } := by
  have hother : ∀ {b c}, j.creator b = some c → b ≠ (calls.call a).guidLocation := by
    rintro b c hbc rfl
    rw [Refines.creator_guidLocation hinv] at hbc
    cases hbc
  refine h.update hinv rfl ?_ ?_ ?_ hp id le_rfl ?_
  · intro b c hbc
    obtain ⟨etag, hlt, hblob⟩ := h.base hbc
    exact ⟨etag, hlt, by rw [Container.blobs_remove_ne _ (hother hbc), hblob]; rfl⟩
  · intro a' ha'
    obtain ⟨etag, hblob⟩ := h.staged ha'.1
    refine ⟨etag, ?_⟩
    rw [Container.blobs_remove_ne _ (fun he => ha'.2 (calls.guid_injective he)), hblob]
  · intro name hname hst
    rcases eq_or_ne name (calls.call a).guidLocation with rfl | hne
    · exact Container.blobs_remove_self _
    · rw [Container.blobs_remove_ne _ hne]
      refine h.absent hname fun a' ha' => ?_
      by_cases heq' : a' = a
      · subst heq'
        exact hne.symm
      · exact hst a' ⟨ha', heq'⟩
  · intro b c hbc
    exact Or.inl ⟨Container.blobs_remove_ne _ (hother hbc), rfl⟩

/-- Call `i` publishes its version in the metadata of the blob that `c` created. -/
theorem Refines.publish {c : ι} (h : Refines calls j s) (hinv : Journal.Inv (protocol calls) j)
    (hc : j.creator (calls.call i).blobName = some c) :
    Refines calls ((j.append (calls.call i).blobName i).goto i (.done .published))
      { store := s.store.put (calls.call i).blobName (calls.call c).content
          (slotMetadata calls c (j.log (calls.call i).blobName ++ [i]))
        point := Function.update s.point i (.finished .updated) } := by
  refine h.update hinv rfl ?_ ?_ ?_ .published id (Nat.le_succ _) ?_
  · intro b c' hbc
    rw [Journal.State.append_log]
    rcases eq_or_ne b (calls.call i).blobName with rfl | hne
    · obtain rfl : c = c' := Option.some.inj (hc.symm.trans hbc)
      refine ⟨s.store.clock, Nat.lt_succ_self _, ?_⟩
      rw [Function.update_self, Container.blobs_put_self]
      rfl
    · obtain ⟨etag, hlt, hblob⟩ := h.base hbc
      refine ⟨etag, Nat.lt_succ_of_lt hlt, ?_⟩
      rw [Function.update_of_ne hne, Container.blobs_put_ne _ hne, hblob]
  · intro a ha
    obtain ⟨etag, hblob⟩ := h.staged ha
    exact ⟨etag, by rw [Container.blobs_put_ne _ (guidLocation_ne_blobName _ _), hblob]⟩
  · intro name hname hst
    have hne : name ≠ (calls.call i).blobName := by
      rintro rfl
      exact Option.some_ne_none c (hc.symm.trans hname)
    rw [Container.blobs_put_ne _ hne]
    exact h.absent hname hst
  · intro b c' hbc
    rcases eq_or_ne b (calls.call i).blobName with rfl | hne
    · refine Or.inr ⟨⟨_, Container.blobs_put_self _, le_rfl⟩, ?_⟩
      rw [Journal.State.append_log, Function.update_self]
      exact ⟨List.prefix_append _ _, by simp⟩
    · refine Or.inl ⟨Container.blobs_put_ne _ hne, ?_⟩
      rw [Journal.State.append_log, Function.update_of_ne hne]

omit [DecidableEq ι] in
theorem Snapshot.whole {c : ι} {etag : ETag} (hc : j.creator (calls.call i).blobName = some c)
    (hblob : s.store.blobs (calls.call i).blobName =
      some (slotBlob calls c (j.log (calls.call i).blobName) etag)) (hlt : etag < s.store.clock) :
    Snapshot calls j.creator j.log s.store i (j.log (calls.call i).blobName).length
      { currentETag := etag
        metadata := slotMetadata calls c (j.log (calls.call i).blobName)
        existingVersions := versions calls
          ((j.log (calls.call i).blobName).rtake maxVersions) } where
  metadata hc' := by
    rw [hc] at hc'
    cases hc'
    rw [List.take_length]
  etag_lt := hlt
  current hblob' := by
    rw [hblob] at hblob'
    cases hblob'
    exact iff_of_true rfl rfl

/-- The checks on the first properties are the step of a reading writer. -/
theorem At.onProperties {c : ι} {etag : ETag} (hphase : j.phase i = .reading)
    (hc : j.creator (calls.call i).blobName = some c)
    (hblob : s.store.blobs (calls.call i).blobName =
      some (slotBlob calls c (j.log (calls.call i).blobName) etag)) (hlt : etag < s.store.clock) :
    ∃ p, Journal.Step (protocol calls) j i true (j.goto i p) ∧
      At calls j.creator j.log s.store i p (onProperties (calls.call i) etag
        (slotMetadata calls c (j.log (calls.call i).blobName))) := by
  by_cases hk : (protocol calls).key c = (protocol calls).key i
  · refine ⟨_, .own hphase hc hk, ?_⟩
    rw [onProperties_own hk]
    exact .own
  · rw [onProperties_other hk]
    by_cases hl : ∃ a ∈ (j.log (calls.call i).blobName).rtake maxVersions,
        (protocol calls).key a = (protocol calls).key i
    · rw [if_pos hl]
      exact ⟨_, .listed hphase hc hk hl, .listed⟩
    · rw [if_neg hl]
      refine ⟨_, .fresh hphase hc hk fun a ha he => hl ⟨a, ha, he⟩, ?_⟩
      have hslot : (protocol calls).slot i = (calls.call i).blobName := rfl
      exact .staging (Snapshot.whole hc hblob hlt) (by rw [hslot, List.take_length])

/-- The answer to `SetMetadata` is the step of a publishing writer. -/
theorem Refines.setMetadata {r k : Nat} {l : WriteLocals} {c : ι} (h : Refines calls j s)
    (hinv : Journal.Inv (protocol calls) j) (hphase : j.phase i = .publishing r k)
    (hc : j.creator (calls.call i).blobName = some c)
    (hsnap : Snapshot calls j.creator j.log s.store i k l)
    (hv : l.existingVersions = versions calls
      (((j.log (calls.call i).blobName).take k ++ [i]).rtake maxVersions))
    {answer : BlobResponse × Container} (hanswer : answer = s.store.perform
      (.setMetadata (calls.call i).blobName (updatedMetadata l) l.currentETag)) :
    ∃ j', Journal.Step (protocol calls) j i true j' ∧ Refines calls j' {
      store := answer.2
      point := Function.update s.point i
        ((WritePoint.setMetadata r l).resume (calls.call i) answer.1) } := by
  obtain ⟨etag, hlt, hblob⟩ := h.base hc
  have hcurrent := hsnap.current hblob
  rw [Container.perform_setMetadata _ hblob, slotBlob] at hanswer
  dsimp only at hanswer
  by_cases he : etag = l.currentETag
  · have hlen := hcurrent.mp he
    have hmeta := hsnap.metadata hc
    rw [hlen, List.take_length] at hmeta hv
    rw [updatedMetadata_slotMetadata hmeta hv] at hanswer
    rw [hanswer, if_pos he]
    exact ⟨_, .publish hphase hlen, h.publish hinv hc⟩
  · have hlen := mt hcurrent.mpr he
    rw [hanswer, if_neg he]
    simp only [WritePoint.resume, onMetadataException, if_true]
    split
    · next hr => exact ⟨_, .giveUp hphase hlen hr, h.goto hinv .abandoned⟩
    · next hr => exact ⟨_, .retry hphase hlen hr, h.goto hinv .rereading⟩

/-- An operation of call `i` that the service performs is a step of its writer. -/
theorem Refines.served (h : Refines calls j s) (hinv : Journal.Inv (protocol calls) j) {op : BlobOp}
    (hreq : (s.point i).request (calls.call i) = some op) :
    ∃ j', Journal.Step (protocol calls) j i true j' ∧
      Refines calls j' (s.resume calls i (s.store.perform op).1 (s.store.perform op).2) := by
  have hat := h.point i
  have hsound := hinv.sound i
  have hslot : (protocol calls).slot i = (calls.call i).blobName := rfl
  unfold System.resume
  generalize hphase : j.phase i = p at hat hsound
  generalize s.point i = pt at hat hreq ⊢
  cases hat with
  | starting =>
    cases hreq
    unfold Container.perform
    rcases hc : j.creator (calls.call i).blobName with _ | c
    · have hblob := h.absent hc fun a _ => guidLocation_ne_blobName _ _
      simp only [hblob]
      exact ⟨_, .create hphase hc, h.create hinv hc⟩
    · obtain ⟨etag, -, hblob⟩ := h.base hc
      simp only [hblob]
      exact ⟨_, .occupied hphase hc, h.goto hinv .reading⟩
  | reading =>
    cases hreq
    unfold Container.perform
    rcases hc : j.creator (calls.call i).blobName with _ | c
    · have hblob := h.absent hc fun a _ => guidLocation_ne_blobName _ _
      simp only [hblob]
      exact ⟨_, .missing hphase hc, h.goto hinv .rejected⟩
    · obtain ⟨etag, hlt, hblob⟩ := h.base hc
      obtain ⟨p, hstep, hnext⟩ := At.onProperties hphase hc hblob hlt
      simp only [hblob]
      exact ⟨_, hstep, h.goto hinv hnext⟩
  | staging hsnap hv =>
    cases hreq
    obtain ⟨-, ⟨c, hc⟩, hk⟩ := hsound
    refine ⟨_, .stage hphase, h.stage hinv (At.attempt ?_ hk hv)⟩
    refine hsnap.frame hk rfl (Nat.le_succ _) (Or.inl ⟨?_, rfl⟩)
    exact Container.blobs_put_ne _ (guidLocation_ne_blobName _ _).symm
  | rereading =>
    cases hreq
    obtain ⟨-, ⟨c, hc⟩, hk⟩ := hsound
    obtain ⟨etag, hlt, hblob⟩ := h.base hc
    have hne : j.log (calls.call i).blobName ≠ [] := List.ne_nil_of_length_pos (by
      exact Nat.zero_lt_of_lt hk)
    unfold Container.perform
    rw [hslot] at hblob
    simp only [hblob]
    refine ⟨_, .reread hphase, h.goto hinv ?_⟩
    show At calls _ _ _ i _ (onRefetch _ _ _ _ (slotMetadata calls c _))
    rw [onRefetch_slotMetadata hne]
    refine At.attempt (Snapshot.whole hc hblob hlt) le_rfl ?_
    rw [hslot, List.take_length]
  | evicting hsnap hv =>
    obtain ⟨-, ⟨c, hc⟩, hk, hw⟩ := hsound
    obtain ⟨a, ha, hdelete⟩ := request_evict hk hw hv
    obtain rfl := Option.some.inj (hreq.symm.trans hdelete)
    refine ⟨_, .evict hphase ha, ?_⟩
    rw [Container.perform_delete, WritePoint.resume_evict]
    refine h.unstage hinv (At.evicted ?_ hk hw hv)
    refine hsnap.frame hk rfl le_rfl (Or.inl ⟨?_, rfl⟩)
    exact Container.blobs_remove_ne _ (guidLocation_ne_blobName _ _).symm
  | publishing hsnap hv =>
    cases hreq
    obtain ⟨-, ⟨c, hc⟩, -⟩ := hsound
    exact h.setMetadata hinv hphase hc hsnap hv rfl
  | created | own | listed | published | rejected | abandoned => cases hreq

/-- A storage error at an operation of call `i` is a step of its writer, unless it pretends that a
precondition failed. -/
theorem Refines.fault {op : BlobOp} {status : HttpStatusCode} (h : Refines calls j s)
    (hinv : Journal.Inv (protocol calls) j)
    (hreq : (s.point i).request (calls.call i) = some op) (hF : status ≠ .PreconditionFailed) :
    ∃ j', Journal.Step (protocol calls) j i false j' ∧
      Refines calls j' (s.resume calls i (.storageException status) s.store) := by
  have hat := h.point i
  have hsound := hinv.sound i
  unfold System.resume
  generalize hphase : j.phase i = p at hat hsound
  generalize s.point i = pt at hat hreq ⊢
  cases hat with
  | starting =>
    rw [WritePoint.resume]
    split
    · exact ⟨_, .startFault hphase (Or.inl rfl), h.goto hinv .reading⟩
    · exact ⟨_, .startFault hphase (Or.inr rfl), h.goto hinv .rejected⟩
  | reading => exact ⟨_, .readFault hphase, h.goto hinv .rejected⟩
  | staging hsnap hv => exact ⟨_, .stageFault hphase, h.goto hinv .rejected⟩
  | rereading =>
    refine ⟨_, .rereadFault hphase, h.goto hinv ?_⟩
    rw [WritePoint.resume, onMetadataException, if_neg hF]
    exact .abandoned
  | evicting hsnap hv =>
    obtain ⟨-, -, hk, hw⟩ := hsound
    refine ⟨_, .evictFault hphase, h.goto hinv ?_⟩
    rw [WritePoint.resume_evict]
    exact At.evicted hsnap hk hw hv
  | publishing hsnap hv =>
    refine ⟨_, .publishFault hphase, h.goto hinv ?_⟩
    rw [WritePoint.resume, onMetadataException, if_neg hF]
    exact .abandoned
  | created | own | listed | published | rejected | abandoned => cases hreq

/-! ## Runs -/

/-- Where the answer of an event comes from: the service, or an admitted fault. -/
def Origin (F : Faults) (s : System ι) (e : Event ι) (served : Bool) : Prop :=
  served = true ∧ e.response = (s.store.perform e.op).1 ∨
    served = false ∧ ∃ status, F e.op status ∧ e.response = .storageException status

variable {F : Faults} {s' : System ι} {e : Event ι}

theorem Step.store_of_done (hs : Step F calls s e s') (he : e.response = .done) :
    e.response = (s.store.perform e.op).1 ∧ s'.store = (s.store.perform e.op).2 := by
  apply hs.answer.resolve_right
  rintro ⟨status, hex⟩
  cases he.symm.trans hex

theorem Refines.step (hF : ∀ {op status}, F op status → status ≠ .PreconditionFailed)
    (h : Refines calls j s) (hinv : Journal.Inv (protocol calls) j) (hs : Step F calls s e s') :
    ∃ j' served, Journal.Step (protocol calls) j e.caller served j' ∧ Refines calls j' s' ∧
      Origin F s e served := by
  cases hs with
  | served hreq =>
    obtain ⟨j', hj, hr⟩ := h.served hinv hreq
    exact ⟨j', true, hj, hr, Or.inl ⟨rfl, rfl⟩⟩
  | fault hreq hf =>
    obtain ⟨j', hj, hr⟩ := h.fault hinv hreq (hF hf)
    exact ⟨j', false, hj, hr, Or.inr ⟨rfl, _, hf, rfl⟩⟩

/-- A property of journals, and of the trace so far, that the steps preserve holds at the end of a
run. -/
theorem Refines.run (Q : List (System ι × Event ι) → Journal.State ι Text → Prop)
    (hF : ∀ {op status}, F op status → status ≠ .PreconditionFailed) {s₀ : System ι}
    {j₀ : Journal.State ι Text} {tr : List (System ι × Event ι)} (h₀ : Refines calls j₀ s₀)
    (hinv₀ : Journal.Inv (protocol calls) j₀) (hQ₀ : Q [] j₀)
    (hQ : ∀ {tr s e s' j j' served}, Refines calls j s → Journal.Inv (protocol calls) j → Q tr j →
      Step F calls s e s' → Origin F s e served →
      Journal.Step (protocol calls) j e.caller served j' → Refines calls j' s' →
      Q (tr ++ [(s, e)]) j')
    (h : Run (Step F calls) s₀ tr s) :
    ∃ j, Refines calls j s ∧ Journal.Inv (protocol calls) j ∧ Q tr j := by
  induction h with
  | nil => exact ⟨j₀, h₀, hinv₀, hQ₀⟩
  | snoc _ hs ih =>
    obtain ⟨j, hr, hinv, hq⟩ := ih
    obtain ⟨j', served, hj, hr', horigin⟩ := hr.step hF hinv hs
    exact ⟨j', hr', hinv.step hj, hQ hr hinv hq hs horigin hj hr'⟩

theorem Runs.refines (hF : ∀ {op status}, F op status → status ≠ .PreconditionFailed)
    {tr : List (System ι × Event ι)} (h : Runs F calls Container.empty tr s) :
    ∃ j, Refines calls j s ∧ Journal.Inv (protocol calls) j := by
  obtain ⟨j, hr, hinv, -⟩ := Refines.run (fun _ _ => True) hF (Refines.initial calls)
    (Journal.Inv.initial _) trivial (fun _ _ _ _ _ _ _ => trivial) h
  exact ⟨j, hr, hinv⟩

end

end KVStore
