import KVStore.Observe
import KVStore.Schedule

/-!
# Calls that do not overlap

A call that nothing interrupts and that meets no storage error finishes after at most five
operations, and what it leaves behind is `Journal.State.write` of its writer (`Refines.alone`).

For readers the container then is a table of versions: a row for each block, with a default version
and at most `maxVersions` additional ones. `sequential_refines_table`: calls one after the other
write this table, and nothing else.
-/

namespace KVStore

open Transition RecentWindow Relation

universe u

section

variable {ι : Type u} [DecidableEq ι] [Base64Url] {calls : Calls ι} {j : Journal.State ι Text}
  {s : System ι} {i : ι}

/-- One step of a writer that the service performs. -/
def Served (calls : Calls ι) (i : ι) (j j' : Journal.State ι Text) : Prop :=
  Journal.Step (protocol calls) j i true j'

/-- Call `i` finishes on its own after at most `fuel` operations, and leaves the journal `j'`. -/
def FinishesAlone (calls : Calls ι) (i : ι) (fuel : Nat) (j : Journal.State ι Text) (s : System ι)
    (j' : Journal.State ι Text) : Prop :=
  ∃ o c, runAlone (calls.call i) fuel (s.point i) s.store = (.finished o, c) ∧
    Refines calls j' { store := c, point := Function.update s.point i (.finished o) } ∧
    ReflTransGen (Served calls i) j j'

/-- A call that is not finished issues an operation, and its writer takes a step. -/
theorem Refines.advance {p : Journal.Phase} (h : Refines calls j s)
    (hinv : Journal.Inv (protocol calls) j) (hi : j.phase i = p) (hp : ∀ o, p ≠ .done o) :
    ∃ op j', (s.point i).request (calls.call i) = some op ∧ Served calls i j j' ∧
      Refines calls j' (s.resume calls i (s.store.perform op).1 (s.store.perform op).2) := by
  have hreq : ∃ op, (s.point i).request (calls.call i) = some op := by
    have hat := h.point i
    have hsound := hinv.sound i
    rw [hi] at hat hsound
    generalize s.point i = pt at hat
    cases hat with
    | evicting hsnap hv =>
      obtain ⟨-, -, hk, hw⟩ := hsound
      obtain ⟨a, -, hdelete⟩ := request_evict hk hw hv
      exact ⟨_, hdelete⟩
    | created | own | listed | published | rejected | abandoned => exact absurd rfl (hp _)
    | _ => exact ⟨_, rfl⟩
  obtain ⟨op, hreq⟩ := hreq
  obtain ⟨j', hj, hr⟩ := h.served hinv hreq
  exact ⟨op, j', hreq, hj, hr⟩

theorem FinishesAlone.step {fuel : Nat} {op : BlobOp} {j₁ j' : Journal.State ι Text}
    (hreq : (s.point i).request (calls.call i) = some op) (hj : Served calls i j j₁)
    (h : FinishesAlone calls i fuel j₁
      (s.resume calls i (s.store.perform op).1 (s.store.perform op).2) j') :
    FinishesAlone calls i (fuel + 1) j s j' := by
  obtain ⟨o, c, hrun, hr, hsteps⟩ := h
  have hpoint : (s.resume calls i (s.store.perform op).1 (s.store.perform op).2).point i =
      (s.point i).resume (calls.call i) (s.store.perform op).1 := Function.update_self ..
  rw [hpoint] at hrun
  refine ⟨o, c, ?_, ?_, ReflTransGen.head hj hsteps⟩
  · rw [runAlone, hreq]
    exact hrun
  · rw [System.resume, Function.update_idem] at hr
    exact hr

theorem FinishesAlone.mono {fuel fuel' : Nat} {j' : Journal.State ι Text}
    (h : FinishesAlone calls i fuel j s j') (hle : fuel ≤ fuel') :
    FinishesAlone calls i fuel' j s j' := by
  obtain ⟨o, c, hrun, hr, hsteps⟩ := h
  obtain ⟨more, rfl⟩ := Nat.exists_eq_add_of_le hle
  exact ⟨o, c, runAlone_add more hrun, hr, hsteps⟩

theorem FinishesAlone.done {o : Journal.Outcome} (h : Refines calls j s)
    (hi : j.phase i = .done o) : FinishesAlone calls i 0 j s j := by
  have hat := h.point i
  rw [hi] at hat
  have hfin : ∃ o', s.point i = .finished o' := by
    generalize s.point i = pt at hat
    cases hat <;> exact ⟨_, rfl⟩
  obtain ⟨o', ho⟩ := hfin
  refine ⟨o', s.store, by rw [runAlone, ho], ?_, .refl⟩
  rw [← ho, Function.update_eq_self]
  exact h

section

variable (h : Refines calls j s) (hinv : Journal.Inv (protocol calls) j)
include h hinv

theorem Refines.alone_publishing {r : Nat}
    (hi : j.phase i = .publishing r (j.log (calls.call i).blobName).length) :
    FinishesAlone calls i 1 j s
      ((j.append (calls.call i).blobName i).goto i (.done .published)) := by
  obtain ⟨op, j', hreq, hj, hr⟩ := h.advance hinv hi (by simp)
  have hcases := hj.served_cases
  rw [hi] at hcases
  rcases hcases with ⟨-, rfl⟩ | ⟨hne, -⟩
  · exact .step hreq hj (.done hr (Function.update_self ..))
  · exact absurd rfl hne

theorem Refines.alone_evicting {r : Nat}
    (hi : j.phase i = .evicting r (j.log (calls.call i).blobName).length) :
    FinishesAlone calls i 2 j s
      (((j.evictOldest (protocol calls) (calls.call i).blobName).append
        (calls.call i).blobName i).goto i (.done .published)) := by
  obtain ⟨-, -, -, hw⟩ : Journal.Sound (protocol calls) j i (.evicting r _) := hi ▸ hinv.sound i
  obtain ⟨op, j', hreq, hj, hr⟩ := h.advance hinv hi (by simp)
  have hcases := hj.served_cases
  rw [hi] at hcases
  obtain ⟨a, ha, rfl⟩ := hcases
  refine .step hreq hj ?_
  have hdone := @Refines.alone_publishing _ _ _ _ _ _ i hr (hinv.step hj) r
    (Function.update_self ..)
  rw [Journal.State.evictOldest_of_le hw ha]
  simpa using hdone

theorem Refines.alone_attempt {r : Nat}
    (hi : j.phase i = (protocol calls).attempt r (j.log (calls.call i).blobName).length) :
    FinishesAlone calls i 2 j s
      (((j.evictOldest (protocol calls) (calls.call i).blobName).append
        (calls.call i).blobName i).goto i (.done .published)) := by
  unfold Journal.Protocol.attempt at hi
  split at hi
  · exact h.alone_evicting hinv hi
  · next hw =>
    rw [Journal.State.evictOldest_of_lt hw]
    exact (h.alone_publishing hinv hi).mono (by decide)

theorem Refines.alone_staging
    (hi : j.phase i = .staging (j.log (calls.call i).blobName).length) :
    FinishesAlone calls i 3 j s
      ((((j.stage i).evictOldest (protocol calls) (calls.call i).blobName).append
        (calls.call i).blobName i).goto i (.done .published)) := by
  obtain ⟨op, j', hreq, hj, hr⟩ := h.advance hinv hi (by simp)
  have hcases := hj.served_cases
  rw [hi] at hcases
  obtain rfl := hcases
  refine .step hreq hj ?_
  have hdone := @Refines.alone_attempt _ _ _ _ _ _ i hr (hinv.step hj) 0 (Function.update_self ..)
  simpa using hdone

theorem Refines.alone_reading {c : ι} (hi : j.phase i = .reading)
    (hc : j.creator (calls.call i).blobName = some c) :
    FinishesAlone calls i 4 j s
      (if (protocol calls).key c = (protocol calls).key i then j.goto i (.done .own)
      else if ∃ a ∈ j.view (protocol calls) (calls.call i).blobName,
          (protocol calls).key a = (protocol calls).key i then j.goto i (.done .listed)
      else (((j.stage i).evictOldest (protocol calls) (calls.call i).blobName).append
        (calls.call i).blobName i).goto i (.done .published)) := by
  obtain ⟨op, j', hreq, hj, hr⟩ := h.advance hinv hi (by simp)
  have hcases := hj.served_cases
  rw [hi] at hcases
  rcases hcases with ⟨hn, -⟩ | ⟨c', hc', hcases⟩
  · cases hc.symm.trans hn
  · obtain rfl : c = c' := Option.some.inj (hc.symm.trans hc')
    rcases hcases with ⟨hk, rfl⟩ | ⟨hk, hl, rfl⟩ | ⟨hk, hl, rfl⟩
    · rw [if_pos hk]
      exact (FinishesAlone.step hreq hj (.done hr (Function.update_self ..))).mono (by decide)
    · rw [if_neg hk, if_pos (show ∃ a ∈ j.view (protocol calls) (calls.call i).blobName, _ from hl)]
      exact (FinishesAlone.step hreq hj (.done hr (Function.update_self ..))).mono (by decide)
    · rw [if_neg hk, if_neg (fun ⟨a, ha, he⟩ => hl a ha he)]
      refine .step hreq hj ?_
      have hdone := @Refines.alone_staging _ _ _ _ _ _ i hr (hinv.step hj)
        (Function.update_self ..)
      simpa using hdone

/-- A call that has not started finishes on its own. -/
theorem Refines.alone (hi : j.phase i = .starting) :
    FinishesAlone calls i 5 j s (j.write (protocol calls) i) := by
  obtain ⟨op, j', hreq, hj, hr⟩ := h.advance hinv hi (by simp)
  have hcases := hj.served_cases
  rw [hi] at hcases
  unfold Journal.State.write
  rcases hcases with ⟨hc, rfl⟩ | ⟨⟨c, hc⟩, rfl⟩
  · rw [hc]
    exact (FinishesAlone.step hreq hj (.done hr (Function.update_self ..))).mono (by decide)
  · rw [hc]
    refine .step hreq hj ?_
    have hdone := @Refines.alone_reading _ _ _ _ _ _ i hr (hinv.step hj) c
      (Function.update_self ..) hc
    simp only [Journal.State.view_goto, Journal.State.stage_goto, Journal.State.evictOldest_goto,
      Journal.State.append_goto, Journal.State.goto_goto] at hdone
    exact hdone

end

omit [DecidableEq ι] in
/-- A call whose version is recorded finishes and changes nothing. -/
theorem Refines.alone_recorded {c : ι} (h : Refines calls j s)
    (hc : j.creator (calls.call i).blobName = some c)
    (hk : (protocol calls).key c = (protocol calls).key i ∨
      ∃ a ∈ j.view (protocol calls) (calls.call i).blobName,
        (protocol calls).key a = (protocol calls).key i) :
    ∃ o, runAlone (calls.call i) 2 .upload s.store = (.finished o, s.store) := by
  obtain ⟨etag, -, hblob⟩ := h.base hc
  have hprops : ∃ o, onProperties (calls.call i) etag
      (slotMetadata calls c (j.log (calls.call i).blobName)) = .finished o := by
    by_cases hown : (protocol calls).key c = (protocol calls).key i
    · exact ⟨_, onProperties_own hown⟩
    · refine ⟨.alreadyListed, ?_⟩
      exact (onProperties_other hown).trans (if_pos (hk.resolve_left hown))
  obtain ⟨o, ho⟩ := hprops
  refine ⟨o, ?_⟩
  simp only [runAlone, WritePoint.request, WritePoint.resume, Container.perform, hblob, if_true]
  rw [← ho]
  rfl

end

/-! ## Tables of versions -/

/-- A version as the table keeps it: what was written, and where. -/
structure Version where
  hash : Hash
  parentHash : Hash
  location : Text
  buffer : List UInt8
deriving DecidableEq

/-- The versions of one block. -/
@[ext] structure Row where
  default : Version
  additional : List Version
  length_le : additional.length ≤ maxVersions

def Row.versions (row : Row) : List Version := row.default :: row.additional

def Row.records (row : Row) (chunk : PromptChunk) : Bool :=
  row.versions.any fun v => v.hash = chunk.hash ∧ v.parentHash = chunk.parentHash

/-- A version joins a row, which drops its oldest additional version when there are too many. -/
def Row.append (row : Row) (v : Version) : Row where
  default := row.default
  additional := (row.additional ++ [v]).rtake maxVersions
  length_le := by
    rw [length_rtake]
    exact Nat.min_le_left _ _

/-- The purpose of the store: per block name, the versions written. -/
abbrev VersionTable := Text → Option Row

def VersionTable.empty : VersionTable := fun _ => none

section

variable [Base64Url]

def Call.version (call : Call) (location : Text) : Version where
  hash := call.chunk.hash
  parentHash := call.chunk.parentHash
  location
  buffer := call.chunk.buffer

def VersionTable.write (t : VersionTable) (call : Call) : VersionTable :=
  match t call.blobName with
  | none => Function.update t call.blobName (some {
      default := call.version call.blobName
      additional := []
      length_le := Nat.zero_le _ })
  | some row =>
    if row.records call.chunk then t
    else Function.update t call.blobName (some (row.append (call.version call.guidLocation)))

/-- A container holds a table: its metadata record the versions of the table, each location reads
as its version, and the GUID blobs are those of the additional versions. -/
structure Represents (t : VersionTable) (c : Container) : Prop where
  recorded : ∀ tokens, recordedVersions c (encodeTokensToBlobName tokens) =
    .ok ((t (encodeTokensToBlobName tokens)).elim [] fun row => row.versions.map fun v =>
      { hash := v.hash, parentHash := v.parentHash, location := v.location })
  read : ∀ {name row v}, t name = some row → v ∈ row.versions → readAsync c v.location =
    .ok (true, { hash := v.hash, parentHash := v.parentHash, buffer := v.buffer })
  guid : ∀ part1 part2, (c.blobs (generateGuid part1 part2)).isSome ↔
    ∃ name row v, t name = some row ∧ v ∈ row.additional ∧ v.location = generateGuid part1 part2

/-- `WriteAsync` called with nothing else going on. -/
def WritesTo (call : Call) (c c' : Container) : Prop :=
  ∃ fuel o, runAlone call fuel .upload c = (.finished o, c')

/-- Calls one after the other, from the empty container. -/
inductive WritesInOrder {ι : Type u} (calls : Calls ι) : List ι → Container → Prop
  | nil : WritesInOrder calls [] Container.empty
  | snoc {order c c' i} (h : WritesInOrder calls order c) (hw : WritesTo (calls.call i) c c') :
      WritesInOrder calls (order ++ [i]) c'

theorem WritesTo.functional {call : Call} {c c₁ c₂ : Container} (h₁ : WritesTo call c c₁)
    (h₂ : WritesTo call c c₂) : c₁ = c₂ := by
  obtain ⟨fuel₁, o₁, h₁⟩ := h₁
  obtain ⟨fuel₂, o₂, h₂⟩ := h₂
  have h₁' := runAlone_add fuel₂ h₁
  rw [Nat.add_comm, runAlone_add fuel₁ h₂] at h₁'
  cases h₁'
  rfl

theorem WritesInOrder.functional {ι : Type u} {calls : Calls ι} {order : List ι}
    {c₁ c₂ : Container} (h₁ : WritesInOrder calls order c₁) (h₂ : WritesInOrder calls order c₂) :
    c₁ = c₂ := by
  induction h₁ generalizing c₂ with
  | nil =>
    generalize hg : ([] : List ι) = order at h₂
    cases h₂ with
    | nil => rfl
    | snoc => simp at hg
  | @snoc order c c' i h hw ih =>
    generalize hg : order ++ [i] = order' at h₂
    cases h₂ with
    | nil => simp at hg
    | snoc h' hw' =>
      obtain ⟨rfl, he⟩ := List.append_inj' hg rfl
      cases he
      obtain rfl := ih h'
      exact hw.functional hw'

end

/-! ## The refinement -/

section

variable {ι : Type u} [Base64Url] (calls : Calls ι)

/-- The row of a slot that `c` created, whose window shows `view`. -/
def rowOf (c : ι) (view : List ι) (h : view.length ≤ maxVersions) : Row where
  default := (calls.call c).version (calls.call c).blobName
  additional := view.map fun i => (calls.call i).version (calls.call i).guidLocation
  length_le := by rwa [List.length_map]

theorem length_view_le (j : Journal.State ι Text) (b : Text) :
    (j.view (protocol calls) b).length ≤ maxVersions := by
  rw [Journal.State.view, length_rtake]
  exact Nat.min_le_left _ _

/-- The table that a journal keeps. -/
def tableOf (j : Journal.State ι Text) : VersionTable := fun b =>
  (j.creator b).map fun c => rowOf calls c (j.view (protocol calls) b) (length_view_le calls j b)

variable {calls} {j j' : Journal.State ι Text}

theorem tableOf_of_creator {b : Text} {c : ι} (hc : j.creator b = some c) :
    tableOf calls j b =
      some (rowOf calls c (j.view (protocol calls) b) (length_view_le calls j b)) := by
  unfold tableOf
  rw [hc]
  rfl

theorem tableOf_congr {b : Text} (hc : j'.creator b = j.creator b) (hl : j'.log b = j.log b) :
    tableOf calls j' b = tableOf calls j b := by
  unfold tableOf Journal.State.view
  rw [hc]
  simp only [hl]

theorem records_rowOf {c i : ι} {view : List ι} (h : view.length ≤ maxVersions) :
    (rowOf calls c view h).records (calls.call i).chunk = true ↔
      (protocol calls).key c = (protocol calls).key i ∨
        ∃ a ∈ view, (protocol calls).key a = (protocol calls).key i := by
  simp [Row.records, Row.versions, rowOf, Call.version, protocol]

variable [DecidableEq ι]

/-- A call that creates its slot starts a row. -/
theorem tableOf_create (hinv : Journal.Inv (protocol calls) j) {i : ι} {p : Journal.Phase}
    (hc : j.creator (calls.call i).blobName = none) :
    tableOf calls ((j.create (calls.call i).blobName i).goto i p) =
      (tableOf calls j).write (calls.call i) := by
  have hrow : tableOf calls j (calls.call i).blobName = none := by
    unfold tableOf
    rw [hc]
    rfl
  unfold VersionTable.write
  simp only [hrow]
  funext b
  rcases eq_or_ne b (calls.call i).blobName with rfl | hne
  · rw [Function.update_self, tableOf_of_creator (Function.update_self ..)]
    refine congrArg some (Row.ext rfl ?_)
    · show ((j.view (protocol calls) (calls.call i).blobName).map _) = []
      rw [Journal.State.view, hinv.log_eq_nil hc]
      rfl
  · rw [Function.update_of_ne hne]
    exact tableOf_congr (Function.update_of_ne hne ..) rfl

/-- A call that publishes its version appends it to the row. -/
theorem tableOf_append {i c : ι} {p : Journal.Phase} {j' : Journal.State ι Text}
    (hc : j.creator (calls.call i).blobName = some c) (hcreator : j'.creator = j.creator)
    (hlog : j'.log = j.log)
    (hk : ¬ ((protocol calls).key c = (protocol calls).key i ∨
      ∃ a ∈ j.view (protocol calls) (calls.call i).blobName,
        (protocol calls).key a = (protocol calls).key i)) :
    tableOf calls ((j'.append (calls.call i).blobName i).goto i p) =
      (tableOf calls j).write (calls.call i) := by
  unfold VersionTable.write
  rw [tableOf_of_creator hc]
  simp only [records_rowOf, if_neg hk]
  funext b
  rcases eq_or_ne b (calls.call i).blobName with rfl | hne
  · have hc' : ((j'.append (calls.call i).blobName i).goto i p).creator
        (calls.call i).blobName = some c := (congrFun hcreator _).trans hc
    rw [Function.update_self, tableOf_of_creator hc']
    have hview : ((j'.append (calls.call i).blobName i).goto i p).view (protocol calls)
        (calls.call i).blobName = (j.log (calls.call i).blobName ++ [i]).rtake maxVersions := by
      unfold Journal.State.view
      rw [Journal.State.goto_log, Journal.State.append_log, Function.update_self, hlog]
      rfl
    refine congrArg some (Row.ext rfl ?_)
    unfold rowOf Row.append
    simp only [hview]
    exact map_rtake_append ..
  · rw [Function.update_of_ne hne]
    refine tableOf_congr (congrFun hcreator b) ?_
    rw [Journal.State.goto_log, Journal.State.append_log, Function.update_of_ne hne, hlog]

/-- A writer on its own writes to the table. -/
theorem tableOf_write (hinv : Journal.Inv (protocol calls) j) (i : ι) :
    tableOf calls (j.write (protocol calls) i) = (tableOf calls j).write (calls.call i) := by
  unfold Journal.State.write
  rcases hc : j.creator ((protocol calls).slot i) with _ | c
  · exact tableOf_create hinv hc
  · have hno : ((protocol calls).key c = (protocol calls).key i ∨
        ∃ a ∈ j.view (protocol calls) (calls.call i).blobName,
          (protocol calls).key a = (protocol calls).key i) →
        (tableOf calls j).write (calls.call i) = tableOf calls j := by
      intro hk
      unfold VersionTable.write
      rw [tableOf_of_creator (show j.creator (calls.call i).blobName = some c from hc)]
      simp only [records_rowOf, if_pos hk]
    dsimp only
    split
    · next hk =>
      rw [hno (Or.inl hk)]
      rfl
    · next hk =>
      split
      · next hl =>
        rw [hno (Or.inr hl)]
        rfl
      · next hl =>
        refine tableOf_append hc ?_ ?_ (not_or.mpr ⟨hk, hl⟩)
        · exact Journal.State.creator_evictOldest ..
        · exact Journal.State.log_evictOldest ..

omit [DecidableEq ι] in
theorem tableOf_eq_some {name : Text} {row : Row} (h : tableOf calls j name = some row) :
    ∃ c, j.creator name = some c ∧
      row = rowOf calls c (j.view (protocol calls) name) (length_view_le calls j name) := by
  unfold tableOf at h
  obtain ⟨c, hc, rfl⟩ := Option.map_eq_some_iff.mp h
  exact ⟨c, hc, rfl⟩

omit [DecidableEq ι] in
/-- A container at rest, with full windows and nothing abandoned, holds the table of its journal. -/
theorem Refines.represents {s : System ι} (h : Refines calls j s)
    (hinv : Journal.Inv (protocol calls) j) (hd : Journal.Dense (protocol calls) j)
    (ht : Journal.Trimmed (protocol calls) j)
    (hq : ∀ i, j.phase i = .starting ∨ ∃ o, j.phase i = .done o ∧ o ≠ .abandoned) :
    Represents (tableOf calls j) s.store where
  recorded tokens := by
    rcases hc : j.creator (encodeTokensToBlobName tokens) with _ | c
    · unfold KVStore.recordedVersions tableOf
      rw [h.blobs_eq_none hc, hc]
      rfl
    · rw [h.recordedVersions hinv hc, tableOf_of_creator hc]
      obtain hname := hinv.slot_creator hc
      simp [Row.versions, rowOf, creatorVersion, Call.version, versions, Call.newVersion]
  read {name row v} hrow hv := by
    obtain ⟨c, hc, rfl⟩ := tableOf_eq_some hrow
    obtain rfl := hinv.slot_creator hc
    rcases List.mem_cons.mp hv with rfl | hv
    · exact h.readAsync_creator hc
    · obtain ⟨a, ha, rfl⟩ := List.mem_map.mp hv
      exact h.readAsync_staged (hd ha)
  guid part1 part2 := by
    rw [h.isSome_guid_iff hinv]
    constructor
    · rintro ⟨i, hi, he⟩
      rcases hq i with hp | ⟨o, hp, ho⟩
      · have hsound := hinv.sound i
        rw [hp] at hsound
        exact absurd hi hsound
      · have hv := (ht.mem_view hinv hp hi).resolve_right ho
        have hpub := (hinv.mem_log (mem_of_mem_rtake hv)).2
        have hsound := hinv.sound i
        rw [hpub] at hsound
        obtain ⟨-, c, hc⟩ := hsound
        exact ⟨_, _, _, tableOf_of_creator hc, List.mem_map_of_mem hv, he⟩
    · rintro ⟨name, row, v, hrow, hv, he⟩
      obtain ⟨c, hc, rfl⟩ := tableOf_eq_some hrow
      obtain ⟨a, ha, rfl⟩ := List.mem_map.mp hv
      exact ⟨a, hd ha, he⟩

/-- The table after calls one after the other. -/
def tableAfter (calls : Calls ι) (order : List ι) : VersionTable :=
  order.foldl (fun t i => VersionTable.write t (calls.call i)) VersionTable.empty

/-- The container and the journal after calls one after the other. -/
structure InOrder (calls : Calls ι) (order : List ι) (s : System ι)
    (j : Journal.State ι Text) : Prop where
  writes : WritesInOrder calls order s.store
  run : ∃ tr, Runs noFaults calls Container.empty tr s
  refines : Refines calls j s
  inv : Journal.Inv (protocol calls) j
  trimmed : Journal.Trimmed (protocol calls) j
  covered : Journal.Covered (protocol calls) j
  starting : ∀ i ∉ order, j.phase i = .starting
  done : ∀ i ∈ order, ∃ o, j.phase i = .done o ∧ o ≠ .abandoned
  table : tableOf calls j = tableAfter calls order

theorem InOrder.initial (calls : Calls ι) :
    InOrder calls [] (System.initial Container.empty) Journal.State.initial where
  writes := .nil
  run := ⟨[], .nil⟩
  refines := Refines.initial calls
  inv := Journal.Inv.initial _
  trimmed := Journal.Trimmed.initial _
  covered := Journal.Covered.initial _
  starting _ _ := rfl
  done _ h := by cases h
  table := rfl

theorem InOrder.quiet {order : List ι} {s : System ι} (h : InOrder calls order s j)
    (i : ι) : j.phase i = .starting ∨ ∃ o, j.phase i = .done o ∧ o ≠ .abandoned := by
  by_cases hi : i ∈ order
  · exact Or.inr (h.done i hi)
  · exact Or.inl (h.starting i hi)

theorem InOrder.dense {order : List ι} {s : System ι} (h : InOrder calls order s j) :
    Journal.Dense (protocol calls) j := by
  refine h.covered.dense fun i r k hp => ?_
  rcases h.quiet i with hq | ⟨o, hq, -⟩
  · cases hp.symm.trans hq
  · cases hp.symm.trans hq

theorem served_keeps {i : ι} (hinv : Journal.Inv (protocol calls) j)
    (ht : Journal.Trimmed (protocol calls) j) (hc : Journal.Covered (protocol calls) j)
    (h : ReflTransGen (Served calls i) j j') : Journal.Inv (protocol calls) j' ∧
      Journal.Trimmed (protocol calls) j' ∧ Journal.Covered (protocol calls) j' := by
  induction h with
  | refl => exact ⟨hinv, ht, hc⟩
  | tail _ hs ih => exact ⟨ih.1.step hs, ih.2.1.step ih.1 hs (by simp), ih.2.2.step ih.1 hs⟩

/-- One more call. -/
theorem InOrder.snoc {order : List ι} {s : System ι} {i : ι}
    (h : InOrder calls order s j) (hi : i ∉ order) :
    ∃ s', InOrder calls (order ++ [i]) s' (j.write (protocol calls) i) ∧
      WritesTo (calls.call i) s.store s'.store := by
  have hstart := h.starting i hi
  obtain ⟨o, c, hrun, hr, hsteps⟩ := h.refines.alone h.inv hstart
  have hpoint := h.refines.point_of_starting hstart
  obtain ⟨tr, htr⟩ := h.run
  obtain ⟨tr', htr'⟩ := runAlone_run hrun
  rw [hpoint] at hrun
  have hkeep := served_keeps h.inv h.trimmed h.covered hsteps
  obtain ⟨o', hphase, ho'⟩ := Journal.State.phase_write (protocol calls) j i
  have hw : WritesTo (calls.call i) s.store c := ⟨_, _, hrun⟩
  refine ⟨_, ⟨h.writes.snoc hw, ⟨_, htr.trans htr'⟩, hr, hkeep.1, hkeep.2.1, hkeep.2.2,
    ?_, ?_, ?_⟩, hw⟩
  · intro i' hi'
    rw [List.mem_append, not_or, List.mem_singleton] at hi'
    rw [hphase, Function.update_of_ne hi'.2]
    exact h.starting i' hi'.1
  · intro i' hi'
    rw [hphase]
    by_cases heq : i' = i
    · subst heq
      exact ⟨o', Function.update_self .., ho'⟩
    · rw [Function.update_of_ne heq]
      exact h.done i' ((List.mem_append.mp hi').resolve_right (mt List.mem_singleton.mp heq))
  · rw [tableOf_write h.inv, h.table, tableAfter, tableAfter, List.foldl_append]
    rfl

theorem exists_inOrder (calls : Calls ι) {order : List ι} (hnodup : order.Nodup) :
    ∃ s j, InOrder calls order s j := by
  induction order using List.reverseRecOn with
  | nil => exact ⟨_, _, InOrder.initial calls⟩
  | append_singleton order i ih =>
    obtain ⟨hn, -, hd⟩ := List.nodup_append.mp hnodup
    obtain ⟨s, j, h⟩ := ih hn
    have hi : i ∉ order := fun hm => hd i hm i (List.mem_singleton_self i) rfl
    obtain ⟨s', h', -⟩ := h.snoc hi
    exact ⟨s', _, h'⟩

/-- Calls that do not overlap refine a table of versions: they finish, the container holds the table
of their writes after each of them, and a call whose version is recorded changes nothing. -/
theorem sequential_refines_table (calls : Calls ι) {order : List ι} (hnodup : order.Nodup) :
    ∃ c, WritesInOrder calls order c ∧ (∀ c', WritesInOrder calls order c' → c' = c) ∧
      Represents (tableAfter calls order) c ∧
      ∀ i ∉ order, ∃ c', WritesTo (calls.call i) c c' ∧
        ∀ row, tableAfter calls order (calls.call i).blobName = some row →
          row.records (calls.call i).chunk = true → c' = c := by
  obtain ⟨s, j, h⟩ := exists_inOrder calls hnodup
  have hrep := h.refines.represents h.inv h.dense h.trimmed h.quiet
  rw [h.table] at hrep
  refine ⟨s.store, h.writes, fun c' hc' => hc'.functional h.writes, hrep, fun i hi => ?_⟩
  obtain ⟨s', -, hw⟩ := h.snoc hi
  refine ⟨s'.store, hw, fun row hrow hrec => ?_⟩
  rw [← h.table] at hrow
  obtain ⟨c, hc, rfl⟩ := tableOf_eq_some hrow
  obtain ⟨o, hrun⟩ := h.refines.alone_recorded hc (records_rowOf _ |>.mp hrec)
  exact hw.functional ⟨_, _, hrun⟩

end

section

attribute [local instance] Base64Url.unpadded

/-- A first write, a second version, and the second version again. -/
def repeatedWrites : Calls UInt64 :=
  numberedCalls fun i => { tokens := [0], hash := if i = 0 then 1 else 2 }

theorem sequential_refines_table_repeated : ∃ c, WritesInOrder repeatedWrites [0, 1] c ∧
    Represents (tableAfter repeatedWrites [0, 1]) c ∧ WritesTo (repeatedWrites.call 2) c c := by
  obtain ⟨c, hwrites, -, hrep, hnext⟩ := sequential_refines_table repeatedWrites
    (show [0, 1].Nodup by decide)
  obtain ⟨c', hc', hsame⟩ := hnext 2 (by decide)
  have hany : (tableAfter repeatedWrites [0, 1] (repeatedWrites.call 2).blobName).any
      (fun row => row.records (repeatedWrites.call 2).chunk) = true := by decide +kernel
  obtain ⟨row, hrow, hrec⟩ := (Option.any_eq_true _ _).mp hany
  obtain rfl := hsame row hrow hrec
  exact ⟨c', hwrites, hrep, hc'⟩

end

end KVStore
