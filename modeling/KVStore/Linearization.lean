import KVStore.Prefix
import KVStore.Progress
import KVStore.Sequential

/-!
# Concurrent calls as calls one after the other

A call that ends well takes effect at its last operation. `linearizable_iff`: in all states of a run
the versions recorded are those of the table that the calls write one after the other, in the order
of their last operations, exactly when no call publishes a version that is recorded already. At rest
readers then cannot tell the container from the one that these calls leave when they do not overlap
(`concurrent_refines_sequential`). A call that nothing interrupts ends well from any state that
other calls have left, wherever they stopped (`write_alone`).
-/

namespace KVStore

open Transition RecentWindow Relation

universe u

/-- The call is at an end at which its version is recorded. -/
def WritePoint.succeeded : WritePoint → Bool
  | .finished o => o.succeeds
  | _ => false

def phaseSucceeded : Journal.Phase → Bool
  | .done .created | .done .own | .done .listed | .done .published => true
  | _ => false

/-- The step ends a call that succeeds. -/
def completes {ι : Type u} (calls : Calls ι) (p : System ι × Event ι) : Bool :=
  ((p.1.point p.2.caller).resume (calls.call p.2.caller) p.2.response).succeeded

/-- The calls that have succeeded in a run, in the order of their last operations. -/
def completed {ι : Type u} (calls : Calls ι) (tr : List (System ι × Event ι)) : List ι :=
  (tr.filter (completes calls)).map fun p => p.2.caller

/-- What the table records for a block. -/
def VersionTable.recorded (t : VersionTable) (name : Text) : List AdditionalVersion :=
  (t name).elim [] fun row => row.versions.map fun v =>
    { hash := v.hash, parentHash := v.parentHash, location := v.location }

theorem VersionTable.mem_recorded {t : VersionTable} {name : Text} {v : AdditionalVersion} :
    v ∈ t.recorded name ↔ ∃ row, t name = some row ∧ ∃ w ∈ row.versions,
      { hash := w.hash, parentHash := w.parentHash, location := w.location } = v := by
  unfold VersionTable.recorded
  cases t name <;> simp

section

variable [Base64Url]

/-- A call publishes a version that is recorded already. -/
def Republishes {ι : Type u} (calls : Calls ι) (s : System ι) (e : Event ι) : Prop :=
  e.publishesTo (calls.call e.caller).blobName = true ∧
    RecordsPair s.store (calls.call e.caller).blobName (calls.call e.caller).chunk.hash
      (calls.call e.caller).chunk.parentHash

/-- The versions recorded are those of the table that the completed calls write one after the
other. -/
def Linearized {ι : Type u} (calls : Calls ι) (tr : List (System ι × Event ι)) (s : System ι) :
    Prop :=
  ∀ tokens, recordedVersions s.store (encodeTokensToBlobName tokens) =
    .ok ((tableAfter calls (completed calls tr)).recorded (encodeTokensToBlobName tokens))

theorem Linearized.records_iff {ι : Type u} {calls : Calls ι} {tr : List (System ι × Event ι)}
    {s : System ι} (h : Linearized calls tr s) (i : ι) {v : AdditionalVersion} :
    Records s.store (calls.call i).blobName v ↔
      v ∈ (tableAfter calls (completed calls tr)).recorded (calls.call i).blobName :=
  KVStore.records_iff (h (calls.call i).chunk.tokens)

theorem VersionTable.write_of_recorded {t : VersionTable} {call : Call}
    (h : ∃ v ∈ t.recorded call.blobName,
      v.hash = call.chunk.hash ∧ v.parentHash = call.chunk.parentHash) : t.write call = t := by
  obtain ⟨v, hv, hhash, hparent⟩ := h
  obtain ⟨row, hrow, w, hw, rfl⟩ := VersionTable.mem_recorded.mp hv
  unfold VersionTable.write
  rw [hrow]
  refine if_pos (List.any_eq_true.mpr ⟨w, hw, ?_⟩)
  exact decide_eq_true ⟨hhash, hparent⟩

theorem VersionTable.write_of_ne (t : VersionTable) {call : Call} {name : Text}
    (h : name ≠ call.blobName) : t.write call name = t name := by
  unfold VersionTable.write
  cases t call.blobName with
  | none => exact Function.update_of_ne h ..
  | some row =>
    dsimp only
    split
    · rfl
    · exact Function.update_of_ne h ..

/-- A table records what was written last. -/
theorem VersionTable.records_write (t : VersionTable) (call : Call) :
    ∃ v ∈ (t.write call).recorded call.blobName,
      v.hash = call.chunk.hash ∧ v.parentHash = call.chunk.parentHash := by
  have hexists : ∃ row w, t.write call call.blobName = some row ∧ w ∈ row.versions ∧
      w.hash = call.chunk.hash ∧ w.parentHash = call.chunk.parentHash := by
    unfold VersionTable.write
    cases hrow : t call.blobName with
    | none => exact ⟨_, _, Function.update_self .., List.mem_cons_self, rfl, rfl⟩
    | some row =>
      dsimp only
      split
      · next hrec =>
        obtain ⟨w, hw, hpair⟩ := List.any_eq_true.mp hrec
        exact ⟨row, w, hrow, hw, of_decide_eq_true hpair⟩
      · refine ⟨_, call.version call.guidLocation, Function.update_self .., ?_, rfl, rfl⟩
        apply List.mem_cons_of_mem
        show _ ∈ (row.additional ++ [call.version call.guidLocation]).rtake maxVersions
        rw [rtake_append_singleton (by decide)]
        exact List.mem_append_right _ (List.mem_singleton_self _)
  obtain ⟨row, w, hrow, hw, hpair⟩ := hexists
  exact ⟨_, VersionTable.mem_recorded.mpr ⟨row, hrow, w, hw, rfl⟩, hpair⟩

section

variable {ι : Type u} {calls : Calls ι} {j j' : Journal.State ι Text} {s s' : System ι}
  {e : Event ι} {tr : List (System ι × Event ι)}

omit [Base64Url] in
theorem completed_snoc (s : System ι) (e : Event ι) :
    completed calls (tr ++ [(s, e)]) =
      if completes calls (s, e) then completed calls tr ++ [e.caller] else completed calls tr := by
  unfold completed
  rw [List.filter_append, List.map_append, List.filter_singleton]
  cases completes calls (s, e)
  · exact List.append_nil _
  · rfl

theorem At.succeeded_eq {creator : Text → Option ι} {log : Text → List ι} {store : Container}
    {i : ι} {p : Journal.Phase} {pt : WritePoint} (h : At calls creator log store i p pt) :
    pt.succeeded = phaseSucceeded p := by
  cases h <;> rfl

/-- The versions that a container records are those of the table of its journal. -/
theorem Refines.recorded_tableOf (h : Refines calls j s) (hinv : Journal.Inv (protocol calls) j)
    (tokens : List Token) : KVStore.recordedVersions s.store (encodeTokensToBlobName tokens) =
      .ok ((tableOf calls j).recorded (encodeTokensToBlobName tokens)) := by
  unfold VersionTable.recorded
  cases hc : j.creator (encodeTokensToBlobName tokens) with
  | none =>
    unfold KVStore.recordedVersions tableOf
    rw [h.blobs_eq_none hc, hc]
    rfl
  | some c =>
    rw [h.recordedVersions hinv hc, tableOf_of_creator hc]
    simp [Row.versions, rowOf, creatorVersion, Call.version, versions, Call.newVersion]

theorem Refines.recordsPair_tableOf (h : Refines calls j s)
    (hinv : Journal.Inv (protocol calls) j) (i : ι) :
    RecordsPair s.store (calls.call i).blobName (calls.call i).chunk.hash
        (calls.call i).chunk.parentHash ↔
      ∃ v ∈ (tableOf calls j).recorded (calls.call i).blobName,
        v.hash = (calls.call i).chunk.hash ∧ v.parentHash = (calls.call i).chunk.parentHash := by
  have hrecords := @records_iff _ _ _ (h.recorded_tableOf hinv (calls.call i).chunk.tokens)
  constructor
  · rintro ⟨v, hv, hpair⟩
    exact ⟨v, hrecords.mp hv, hpair⟩
  · rintro ⟨v, hv, hpair⟩
    exact ⟨v, hrecords.mpr hv, hpair⟩

/-- What the table of a journal records for a slot that `c` created. -/
theorem recorded_of_creator {b : Text} {c : ι} (hc : j.creator b = some c) {i : ι} :
    (∃ v ∈ (tableOf calls j).recorded b,
        v.hash = (calls.call i).chunk.hash ∧ v.parentHash = (calls.call i).chunk.parentHash) ↔
      (protocol calls).key c = (protocol calls).key i ∨
        ∃ a ∈ j.view (protocol calls) b, (protocol calls).key a = (protocol calls).key i := by
  unfold VersionTable.recorded
  rw [tableOf_of_creator hc]
  simp [Row.versions, rowOf, Call.version, protocol]

/-- A version that is published is new to the container. -/
theorem newVersion_notMem_recorded (hinv : Journal.Inv (protocol calls) j) {i : ι}
    (hi : j.phase i ≠ .done .published) :
    (calls.call i).newVersion ∉ (tableOf calls j).recorded (calls.call i).blobName := by
  intro hmem
  obtain ⟨row, hrow, w, hw, he⟩ := VersionTable.mem_recorded.mp hmem
  have hloc : w.location = (calls.call i).guidLocation := congrArg AdditionalVersion.location he
  obtain ⟨c, -, rfl⟩ := tableOf_eq_some hrow
  rcases List.mem_cons.mp hw with rfl | hw
  · exact guidLocation_ne_blobName _ _ hloc.symm
  · obtain ⟨a, ha, rfl⟩ := List.mem_map.mp hw
    obtain rfl := calls.guid_injective hloc
    exact hi (hinv.mem_log (mem_of_mem_rtake ha)).2

variable [DecidableEq ι] {F : Faults} {served : Bool}

theorem Refines.completes_eq (h' : Refines calls j' s') (hs : Step F calls s e s') :
    completes calls (s, e) = phaseSucceeded (j'.phase e.caller) := by
  rw [← (h'.point e.caller).succeeded_eq, hs.point_caller]
  rfl

/-- What a step does to the table of the journal: the last operation of a call that succeeds writes
it, unless that operation publishes a version that is recorded already. -/
theorem Refines.table_step (h : Refines calls j s) (hinv : Journal.Inv (protocol calls) j)
    (hs : Step F calls s e s') (horigin : Origin F s e served)
    (hj : Journal.Step (protocol calls) j e.caller served j') (h' : Refines calls j' s')
    (hno : ¬ Republishes calls s e) :
    tableOf calls j' =
      if completes calls (s, e) then (tableOf calls j).write (calls.call e.caller)
      else tableOf calls j := by
  have hcompletes := h'.completes_eq hs
  have hrecorded := @recorded_of_creator _ _ calls j (calls.call e.caller).blobName
  have hkeep : ∀ {p : Journal.Phase}, phaseSucceeded p = false →
      j'.phase e.caller = p → j'.creator = j.creator → j'.log = j.log →
        tableOf calls j' = if completes calls (s, e) then (tableOf calls j).write
          (calls.call e.caller) else tableOf calls j := by
    intro p hp hphase hcreator hlog
    rw [hcompletes, hphase, hp]
    exact funext fun b => tableOf_congr (congrFun hcreator b) (congrFun hlog b)
  have hself : ∀ (j : Journal.State ι Text) p, (j.goto e.caller p).phase e.caller = p :=
    fun j p => Function.update_self ..
  cases hj with
  | create hp hc =>
    rw [hcompletes, hself]
    exact tableOf_create hinv hc
  | own hp hc hk =>
    rw [hcompletes, hself]
    exact (VersionTable.write_of_recorded ((hrecorded hc).mpr (Or.inl hk))).symm
  | listed hp hc hk hl =>
    rw [hcompletes, hself]
    exact (VersionTable.write_of_recorded ((hrecorded hc).mpr (Or.inr hl))).symm
  | @publish r k hp hk =>
    rw [hcompletes, hself]
    obtain ⟨-, ⟨c, hc⟩, -⟩ : Journal.Sound (protocol calls) j e.caller (.publishing r k) :=
      hp ▸ hinv.sound e.caller
    have hanswer : e.response = (s.store.perform e.op).1 := by
      rcases horigin with ⟨-, he⟩ | ⟨hf, -⟩
      · exact he
      · cases hf
    refine tableOf_append hc rfl rfl fun hk' => hno ⟨?_, ?_⟩
    · exact (h.publishes_iff hinv hs.request hanswer hp).mpr ⟨rfl, hk⟩
    · exact (h.recordsPair_tableOf hinv e.caller).mpr ((hrecorded hc).mpr hk')
  | stage | reread =>
    refine hkeep ?_ (hself _ _) rfl rfl
    unfold Journal.Protocol.attempt
    split <;> rfl
  | startFault hp hp' => rcases hp' with rfl | rfl <;> exact hkeep rfl (hself _ _) rfl rfl
  | _ => exact hkeep rfl (hself _ _) rfl rfl

theorem Refines.table_snoc (h : Refines calls j s) (hinv : Journal.Inv (protocol calls) j)
    (hs : Step F calls s e s') (horigin : Origin F s e served)
    (hj : Journal.Step (protocol calls) j e.caller served j') (h' : Refines calls j' s')
    (hno : ¬ Republishes calls s e)
    (htable : tableOf calls j = tableAfter calls (completed calls tr)) :
    tableOf calls j' = tableAfter calls (completed calls (tr ++ [(s, e)])) := by
  rw [h.table_step hinv hs horigin hj h' hno, htable, completed_snoc]
  split
  · unfold tableAfter
    rw [List.foldl_append]
    rfl
  · rfl

/-- Without a version published twice, the table of the journal is the one that the completed calls
write. -/
theorem Runs.table (h : Runs serviceFaults calls Container.empty tr s)
    (hno : ∀ p ∈ tr, ¬ Republishes calls p.1 p.2) :
    ∃ j, Refines calls j s ∧ Journal.Inv (protocol calls) j ∧
      tableOf calls j = tableAfter calls (completed calls tr) := by
  have hrun := Refines.run (fun tr j => (∀ p ∈ tr, ¬ Republishes calls p.1 p.2) →
      tableOf calls j = tableAfter calls (completed calls tr)) id (Refines.initial calls)
    (Journal.Inv.initial _) (fun _ => rfl) ?_ h
  · obtain ⟨j, hr, hinv, htable⟩ := hrun
    exact ⟨j, hr, hinv, htable hno⟩
  · intro tr s e s' j j' served hr hinv htable hs horigin hj hr' hno
    exact hr.table_snoc hinv hs horigin hj hr' (hno (s, e) (by simp))
      (htable fun p hp => hno p (List.mem_append_left _ hp))

/-- A call that publishes a version again leaves the order of the completed calls. -/
theorem not_republishes (h : Runs serviceFaults calls Container.empty tr s)
    (hs : Step serviceFaults calls s e s') (hbefore : Linearized calls tr s)
    (hafter : Linearized calls (tr ++ [(s, e)]) s') : ¬ Republishes calls s e := by
  rintro ⟨hpub, hrec⟩
  obtain ⟨j, hr, hinv⟩ := Runs.refines id h
  obtain ⟨j', served, hj, hr', horigin⟩ := hr.step id hinv hs
  -- the version joins the list of the blob
  obtain ⟨-, blob, blob', listed, -, hblob', -, hlisted', -⟩ :=
    hr.appendsVersion hinv hs horigin hj hr' hpub
  have hnew : Records s'.store (calls.call e.caller).blobName (calls.call e.caller).newVersion := by
    refine Or.inr ⟨blob', _, hblob', hlisted', ?_⟩
    rw [rtake_append_singleton (by decide)]
    exact List.mem_append_right _ (List.mem_singleton_self _)
  -- but the table already holds it, and stays as it is
  have hlog := hr.log_step hinv hs horigin hj (calls.call e.caller).blobName
  rw [if_pos hpub] at hlog
  have hphase' : j'.phase e.caller = .done .published := by
    apply ((hinv.step hj).mem_log (b := (calls.call e.caller).blobName) _).2
    rw [hlog]
    exact List.mem_append_right _ (List.mem_singleton_self _)
  have hcompleted : completed calls (tr ++ [(s, e)]) = completed calls tr ++ [e.caller] := by
    rw [completed_snoc, hr'.completes_eq hs, hphase']
    rfl
  have hpair : ∃ v ∈ (tableAfter calls (completed calls tr)).recorded
      (calls.call e.caller).blobName, v.hash = (calls.call e.caller).chunk.hash ∧
        v.parentHash = (calls.call e.caller).chunk.parentHash := by
    obtain ⟨v, hv, hpair⟩ := hrec
    exact ⟨v, (hbefore.records_iff e.caller).mp hv, hpair⟩
  have htable : tableAfter calls (completed calls tr ++ [e.caller]) =
      tableAfter calls (completed calls tr) := by
    unfold tableAfter
    rw [List.foldl_append]
    exact VersionTable.write_of_recorded hpair
  rw [hafter.records_iff, hcompleted, htable, ← hbefore.records_iff] at hnew
  have hold := (records_iff (hr.recorded_tableOf hinv (calls.call e.caller).chunk.tokens)).mp hnew
  exact newVersion_notMem_recorded hinv (hj.phase_ne_done .published) hold

/-- In all states of a run the versions recorded are those of the table that the completed calls
write one after the other, in the order of their last operations, exactly when no call publishes a
version that is recorded already. -/
theorem linearizable_iff (h : Runs serviceFaults calls Container.empty tr s) :
    Throughout (Linearized calls) tr s ↔ ∀ p ∈ tr, ¬ Republishes calls p.1 p.2 := by
  induction h with
  | nil =>
    rw [throughout_nil]
    refine iff_of_true (fun tokens => ?_) fun _ hp => by cases hp
    exact (Refines.initial calls).recorded_tableOf (Journal.Inv.initial _) tokens
  | @snoc tr s s' e h hs ih =>
    rw [throughout_snoc]
    simp only [List.mem_append, List.mem_singleton, or_imp, forall_and, forall_eq]
    rw [ih]
    refine and_congr_right fun hno => ⟨?_, fun hnow tokens => ?_⟩
    · exact not_republishes h hs (ih.mpr hno).2
    · have hall : ∀ p ∈ tr ++ [(s, e)], ¬ Republishes calls p.1 p.2 := by
        intro p hp
        rcases List.mem_append.mp hp with hp | hp
        · exact hno p hp
        · obtain rfl := List.mem_singleton.mp hp
          exact hnow
      obtain ⟨j, hr, hinv, htable⟩ := Runs.table (h.snoc hs) hall
      rw [← htable]
      exact hr.recorded_tableOf hinv tokens

end

/-! ## What readers see -/

section

/-- What `Lookup` fetches for a row. -/
def Row.properties (row : Row) : BlockProperties where
  found := true
  storedHash := row.default.hash
  parentHash := row.default.parentHash
  multiVersion := []
  additionalVersions := if row.additional = [] then []
    else serializeAdditionalVersions (row.additional.map fun v =>
      { hash := v.hash, parentHash := v.parentHash, location := v.location })

variable {ι : Type u} {calls : Calls ι} {j : Journal.State ι Text} {s : System ι}
  {tr : List (System ι × Event ι)}

theorem textEntry_multiversion (c : ι) (log : List ι) :
    textEntry (slotMetadata calls c log) "multiversion".toList = [] := by
  have hbare : findMetadata (slotMetadata calls c log) "multiversion".toList =
      findMetadata (slotMetadata calls c []) "multiversion".toList :=
    findMetadata_slotMetadata (by decide)
  unfold textEntry
  rw [hbare]
  rfl

/-- What `Lookup` fetches for a block is in the row of the block. -/
theorem Refines.blockProperties_tableOf (h : Refines calls j s) (tokens : List Token) :
    blockProperties (s.store.perform (.getProperties (encodeTokensToBlobName tokens))).1 =
      .ok ((tableOf calls j (encodeTokensToBlobName tokens)).elim {} Row.properties) := by
  cases hc : j.creator (encodeTokensToBlobName tokens) with
  | none =>
    unfold tableOf
    simp only [Container.perform, h.blobs_eq_none hc, hc]
    rfl
  | some c =>
    obtain ⟨etag, -, hblob⟩ := h.base hc
    rw [tableOf_of_creator hc]
    simp only [Container.perform, hblob, slotBlob]
    unfold blockProperties
    dsimp only
    rw [hashEntry_hash (lookup_slotMetadata_hash c _),
      hashEntry_parenthash (lookup_slotMetadata_parenthash c _), textEntry_slotMetadata,
      textEntry_multiversion]
    have hview : (j.log (encodeTokensToBlobName tokens) = []) ↔
        (j.view (protocol calls) (encodeTokensToBlobName tokens)).map
          (fun i => (calls.call i).version (calls.call i).guidLocation) = [] := by
      rw [List.map_eq_nil_iff, ← List.length_eq_zero_iff, ← List.length_eq_zero_iff,
        Journal.State.view, length_rtake]
      have hpos := (protocol calls).window_pos
      omega
    have hversions : versions calls (j.view (protocol calls) (encodeTokensToBlobName tokens)) =
        ((j.view (protocol calls) (encodeTokensToBlobName tokens)).map fun i =>
          (calls.call i).version (calls.call i).guidLocation).map fun v =>
            { hash := v.hash, parentHash := v.parentHash, location := v.location } := by
      simp [versions, Call.newVersion, Call.version]
    simp only [Option.elim, Row.properties, rowOf]
    rw [← hversions]
    simp only [← hview]
    rfl

/-- A version of the table is read at its location, when the windows are full. -/
theorem Refines.read_tableOf (h : Refines calls j s) (hinv : Journal.Inv (protocol calls) j)
    (hd : Journal.Dense (protocol calls) j) {name : Text} {row : Row} {v : Version}
    (hrow : tableOf calls j name = some row) (hv : v ∈ row.versions) :
    readAsync s.store v.location = .ok (true, {
      hash := v.hash, parentHash := v.parentHash, buffer := v.buffer }) := by
  obtain ⟨c, hc, rfl⟩ := tableOf_eq_some hrow
  obtain rfl := hinv.slot_creator hc
  rcases List.mem_cons.mp hv with rfl | hv
  · exact h.readAsync_creator hc
  · obtain ⟨a, ha, rfl⟩ := List.mem_map.mp hv
    exact h.readAsync_staged (hd ha)

/-- What holds of two containers that readers cannot tell apart. -/
structure SameForReaders (c c' : Container) : Prop where
  lookup : ∀ tokens precomputedHashes,
    lookup c tokens precomputedHashes = KVStore.lookup c' tokens precomputedHashes
  recorded : ∀ tokens, recordedVersions c (encodeTokensToBlobName tokens) =
    recordedVersions c' (encodeTokensToBlobName tokens)
  read : ∀ {tokens v}, Records c (encodeTokensToBlobName tokens) v →
    readAsync c v.location = readAsync c' v.location

/-- Readers cannot tell containers apart that hold one table. -/
theorem Refines.sameForReaders {j' : Journal.State ι Text} {s' : System ι} (h : Refines calls j s)
    (hinv : Journal.Inv (protocol calls) j) (hd : Journal.Dense (protocol calls) j)
    (h' : Refines calls j' s') (hinv' : Journal.Inv (protocol calls) j')
    (hd' : Journal.Dense (protocol calls) j') (htable : tableOf calls j = tableOf calls j') :
    SameForReaders s.store s'.store where
  lookup tokens precomputedHashes := by
    have hproperties : ∀ i, blockProperties (s.store.perform
        (.getProperties (blockInfo tokens precomputedHashes i).blobName)).1 =
        blockProperties (s'.store.perform
          (.getProperties (blockInfo tokens precomputedHashes i).blobName)).1 := by
      intro i
      unfold blockInfo
      rw [h.blockProperties_tableOf, h'.blockProperties_tableOf, htable]
    unfold KVStore.lookup
    simp only [hproperties]
  recorded tokens := by
    rw [h.recorded_tableOf hinv, h'.recorded_tableOf hinv', htable]
  read {tokens v} hv := by
    obtain ⟨row, hrow, w, hw, rfl⟩ := VersionTable.mem_recorded.mp
      ((records_iff (h.recorded_tableOf hinv tokens)).mp hv)
    exact (h.read_tableOf hinv hd hrow hw).trans
      (h'.read_tableOf hinv' hd' (htable ▸ hrow) hw).symm

end

section

variable {ι : Type u} [DecidableEq ι] {calls : Calls ι} {s s' : System ι} {e : Event ι}
  {tr : List (System ι × Event ι)}

theorem WritePoint.request_of_succeeded {call : Call} {point : WritePoint}
    (h : point.succeeded = true) : point.request call = none := by
  cases point <;> first | rfl | cases h

/-- The completed calls are those that have succeeded, each one once. -/
theorem completed_iff {F : Faults} {c : Container} (h : Runs F calls c tr s) :
    (completed calls tr).Nodup ∧
      ∀ i, i ∈ completed calls tr ↔ (s.point i).succeeded = true := by
  induction h with
  | nil => simp [completed, System.initial, WritePoint.succeeded]
  | @snoc tr s s' e h hs ih =>
    obtain ⟨hnodup, hmem⟩ := ih
    have hfresh : e.caller ∉ completed calls tr := by
      rw [hmem]
      intro hsucc
      cases (WritePoint.request_of_succeeded hsucc).symm.trans hs.request
    have hcaller : completes calls (s, e) = (s'.point e.caller).succeeded := by
      rw [hs.point_caller]
      rfl
    rw [completed_snoc, hcaller]
    refine ⟨?_, fun i => ?_⟩
    · split
      · exact hnodup.append (List.nodup_singleton _) (List.disjoint_singleton.mpr hfresh)
      · exact hnodup
    · by_cases hi : i = e.caller
      · subst hi
        split
        · next hsucc => simp [hsucc]
        · next hsucc => simp [hsucc, hfresh]
      · rw [hs.point_of_ne hi, ← hmem]
        split
        · simp [hi]
        · exact Iff.rfl

theorem served_inv {j j' : Journal.State ι Text} {i : ι}
    (hinv : Journal.Inv (protocol calls) j) (h : ReflTransGen (Served calls i) j j') :
    Journal.Inv (protocol calls) j' := by
  induction h with
  | refl => exact hinv
  | tail _ hs ih => exact ih.step hs

theorem phaseSucceeded_write (j : Journal.State ι Text) (i : ι) :
    phaseSucceeded ((j.write (protocol calls) i).phase i) = true := by
  unfold Journal.State.write
  repeat' split
  all_goals
    rw [Journal.State.goto_phase, Function.update_self]
    rfl

/-- After calls that no storage error met and that have come to rest, readers cannot tell the
container from the one that the calls which succeeded leave one after the other, unless a version
was published that was recorded already. -/
theorem concurrent_refines_sequential (h : Runs noFaults calls Container.empty tr s)
    (hq : Quiescent s) (hno : ∀ p ∈ tr, ¬ Republishes calls p.1 p.2) :
    ∃ c, WritesInOrder calls (completed calls tr) c ∧ SameForReaders s.store c := by
  have hrun := Refines.run (fun tr j => Journal.Covered (protocol calls) j ∧
      ((∀ p ∈ tr, ¬ Republishes calls p.1 p.2) →
        tableOf calls j = tableAfter calls (completed calls tr))) (fun hf => hf.elim)
    (Refines.initial calls) (Journal.Inv.initial _)
    ⟨Journal.Covered.initial _, fun _ => rfl⟩ ?_ h
  · obtain ⟨j, hr, hinv, hcov, htable⟩ := hrun
    obtain ⟨s', j', hin⟩ := exists_inOrder calls (completed_iff h).1
    have hd : Journal.Dense (protocol calls) j := by
      refine hcov.dense fun i r k hp => ?_
      rcases hr.phase_of_quiescent hq i with hp' | ⟨o, hp'⟩ <;> cases hp.symm.trans hp'
    refine ⟨s'.store, hin.writes, ?_⟩
    exact hr.sameForReaders hinv hd hin.refines hin.inv hin.dense
      ((htable hno).trans hin.table.symm)
  · rintro tr s e s' j j' served hr hinv ⟨hcov, htable⟩ hs horigin hj hr'
    refine ⟨?_, fun hno => ?_⟩
    · rcases horigin with ⟨rfl, -⟩ | ⟨-, status, hF, -⟩
      · exact hcov.step hinv hj
      · exact hF.elim
    · exact hr.table_snoc hinv hs horigin hj hr' (hno (s, e) (by simp))
        (htable fun p hp => hno p (List.mem_append_left _ hp))

/-- Wherever other calls have stopped, also for good, a call that nothing interrupts then ends well
after at most five operations, and its version is recorded. -/
theorem write_alone {i : ι} (h : Runs serviceFaults calls Container.empty tr s)
    (hi : s.point i = .upload) :
    ∃ o c, runAlone (calls.call i) 5 .upload s.store = (.finished o, c) ∧ o.succeeds = true ∧
      RecordsPair c (calls.call i).blobName (calls.call i).chunk.hash
        (calls.call i).chunk.parentHash ∧
      ∀ tokens, encodeTokensToBlobName tokens ≠ (calls.call i).blobName →
        recordedVersions c (encodeTokensToBlobName tokens) =
          recordedVersions s.store (encodeTokensToBlobName tokens) := by
  obtain ⟨j, hr, hinv⟩ := Runs.refines id h
  obtain ⟨o, c, hrun, hr', hsteps⟩ := hr.alone hinv (hr.phase_of_upload hi)
  have hinv' := served_inv hinv hsteps
  have hrecorded := fun tokens => hr'.recorded_tableOf hinv' tokens
  rw [tableOf_write hinv] at hrecorded
  rw [hi] at hrun
  refine ⟨o, c, hrun, ?_, ?_, fun tokens hne => ?_⟩
  · have hpoint : Function.update s.point i (.finished o) i = .finished o :=
      Function.update_self ..
    have hsucc := (hr'.point i).succeeded_eq.trans (phaseSucceeded_write j i)
    exact (congrArg WritePoint.succeeded hpoint).symm.trans hsucc
  · obtain ⟨v, hv, hpair⟩ := (tableOf calls j).records_write (calls.call i)
    exact ⟨v, (records_iff (hrecorded (calls.call i).chunk.tokens)).mpr hv, hpair⟩
  · refine (hrecorded tokens).trans ?_
    rw [hr.recorded_tableOf hinv]
    unfold VersionTable.recorded
    rw [VersionTable.write_of_ne _ hne]

end

end

section

variable {ι : Type u} [Base64Url] {calls : Calls ι} {s : System ι} {e : Event ι}

/-- If a version is published, then no version with its hash is recorded. -/
def PublishesNewHash (calls : Calls ι) (s : System ι) (e : Event ι) : Prop :=
  e.publishesTo (calls.call e.caller).blobName = true →
    ((recordedVersions s.store (calls.call e.caller).blobName).toOption.any fun vs =>
      vs.all fun v => v.hash ≠ (calls.call e.caller).chunk.hash) = true

instance : Decidable (PublishesNewHash calls s e) := inferInstanceAs (Decidable (_ → _))

theorem not_republishes_of_newHash (h : PublishesNewHash calls s e) : ¬ Republishes calls s e := by
  rintro ⟨hpub, v, hv, hhash, -⟩
  have hany := h hpub
  cases hvs : recordedVersions s.store (calls.call e.caller).blobName with
  | error err =>
    rw [hvs] at hany
    cases hany
  | ok vs =>
    rw [hvs] at hany
    have hne := List.all_eq_true.mp hany v ((records_iff hvs).mp hv)
    exact of_decide_eq_true hne hhash

end

section

attribute [local instance] Base64Url.unpadded

theorem overlappingRun_fresh :
    ∀ p ∈ overlappingRun.1, ¬ Republishes twoVersions p.1 p.2 := by
  have hfresh : ∀ p ∈ overlappingRun.1, PublishesNewHash twoVersions p.1 p.2 := by decide +kernel
  exact fun p hp => not_republishes_of_newHash (hfresh p hp)

theorem linearizable_iff_overlapping :
    Throughout (Linearized twoVersions) overlappingRun.1 overlappingRun.2 :=
  (linearizable_iff (served_run _ _)).mpr overlappingRun_fresh

theorem concurrent_refines_sequential_overlapping :
    ∃ c, WritesInOrder twoVersions [0, 1, 2] c ∧ SameForReaders overlappingRun.2.store c := by
  have hcompleted : completed twoVersions overlappingRun.1 = [0, 1, 2] := by decide +kernel
  rw [← hcompleted]
  refine concurrent_refines_sequential (served_run _ _) ?_ overlappingRun_fresh
  exact execute_quiescent (by decide +kernel)

/-- The second call is left for good between its `GetProperties` and its upload. -/
theorem write_alone_stopped : ∃ o c,
    runAlone (twoVersions.call 2) 5 .upload
      (execute twoVersions (served [0, 1, 1]) (System.initial Container.empty)).2.store =
        (.finished o, c) ∧ o.succeeds = true := by
  have hserved : Runs serviceFaults twoVersions Container.empty _ _ := served_run [0, 1, 1] _
  obtain ⟨o, c, hrun, hok, -⟩ := write_alone (i := 2) hserved rfl
  exact ⟨o, c, hrun, hok⟩

end

end KVStore
