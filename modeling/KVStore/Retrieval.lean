import KVStore.Append
import KVStore.Chain
import KVStore.Schedule

/-!
# Written chains are found again

When every call hashes its tokens with one function, all versions of a block have the same hash, so
the walk of `Lookup` only has to match parents. `lookup_finds_chain`: a chain of blocks whose
versions were recorded in a run, and not evicted since, is returned by `Lookup`.
-/

namespace KVStore

open Transition RecentWindow

universe u

section

variable {ι : Type u} [Base64Url] {calls : Calls ι} {j j' : Journal.State ι Text}
  {s s' : System ι} {e : Event ι}

/-- A `SetMetadata` takes a version out of the list of a block. -/
def Evicts (s : System ι) (e : Event ι) (name : Text) (hash parentHash : Hash) : Prop :=
  e.response = .done ∧ ∃ m etag, e.op = .setMetadata name m etag ∧
    (∃ v, RecordsAdditional s.store name v ∧ v.hash = hash ∧ v.parentHash = parentHash) ∧
    ¬ ∃ versions, additionalVersionsOf m = .ok versions ∧
      ∃ v ∈ versions, v.hash = hash ∧ v.parentHash = parentHash

/-- The slot shows a key: its creator's, or one in its window. -/
def Shows (calls : Calls ι) (j : Journal.State ι Text) (b : Text) (key : Hash × Hash) : Prop :=
  ∃ c, j.creator b = some c ∧ ∃ a ∈ c :: j.view (protocol calls) b, (protocol calls).key a = key

theorem Refines.recordsPair_iff (h : Refines calls j s) (hinv : Journal.Inv (protocol calls) j)
    {tokens : List Token} {hash parentHash : Hash} :
    RecordsPair s.store (encodeTokensToBlobName tokens) hash parentHash ↔
      Shows calls j (encodeTokensToBlobName tokens) (hash, parentHash) := by
  constructor
  · rintro ⟨v, hv | hv, rfl, rfl⟩
    · obtain ⟨c, hc, rfl⟩ := (h.recordsDefault_iff hinv).mp hv
      exact ⟨c, hc, c, List.mem_cons_self, rfl⟩
    · obtain ⟨a, ha, rfl⟩ := (h.recordsAdditional_iff hinv).mp hv
      obtain ⟨blob, -, hblob, -⟩ := hv
      rcases hc : j.creator (encodeTokensToBlobName tokens) with _ | c
      · cases (h.blobs_eq_none hc).symm.trans hblob
      · exact ⟨c, hc, a, List.mem_cons_of_mem _ ha, rfl⟩
  · rintro ⟨c, hc, a, ha, hkey⟩
    obtain ⟨hh, hp⟩ := Prod.mk.inj hkey
    rcases List.mem_cons.mp ha with rfl | ha
    · exact ⟨_, Or.inl ((h.recordsDefault_iff hinv).mpr ⟨a, hc, rfl⟩), hh, hp⟩
    · exact ⟨_, Or.inr ((h.recordsAdditional_iff hinv).mpr ⟨a, ha, rfl⟩), hh, hp⟩

variable [DecidableEq ι] {F : Faults} {served : Bool}

/-- A `SetMetadata` that goes through sends the list of the new window. -/
theorem Refines.sends_view {tokens : List Token} {m : Metadata} {etag : ETag}
    (hinv : Journal.Inv (protocol calls) j) (hs : Step F calls s e s')
    (hj : Journal.Step (protocol calls) j e.caller served j') (h' : Refines calls j' s')
    (hop : e.op = .setMetadata (encodeTokensToBlobName tokens) m etag)
    (hdone : e.response = .done) :
    additionalVersionsOf m =
      .ok (versions calls (j'.view (protocol calls) (encodeTokensToBlobName tokens))) := by
  have hlist := h'.listedVersions (hinv.step hj) tokens
  obtain ⟨hresp, hstore⟩ := hs.store_of_done hdone
  rw [hop] at hresp hstore
  rcases hblob : s.store.blobs (encodeTokensToBlobName tokens) with _ | blob
  · simp only [Container.perform, hblob] at hresp
    cases hdone.symm.trans hresp
  · rw [Container.perform_setMetadata _ hblob] at hresp hstore
    split at hstore
    · rw [hstore] at hlist
      unfold KVStore.listedVersions at hlist
      rw [Container.blobs_put_self] at hlist
      exact hlist
    · next hne =>
      rw [if_neg hne] at hresp
      cases hdone.symm.trans hresp

/-- A shown key stays until it is evicted. -/
theorem Refines.shows_step {tokens : List Token} {hash parentHash : Hash}
    (h : Refines calls j s) (hinv : Journal.Inv (protocol calls) j) (hs : Step F calls s e s')
    (horigin : Origin F s e served) (hj : Journal.Step (protocol calls) j e.caller served j')
    (h' : Refines calls j' s')
    (hshows : Shows calls j (encodeTokensToBlobName tokens) (hash, parentHash))
    (hno : ¬ Evicts s e (encodeTokensToBlobName tokens) hash parentHash) :
    Shows calls j' (encodeTokensToBlobName tokens) (hash, parentHash) := by
  obtain ⟨c, hc, a, ha, hkey⟩ := hshows
  refine ⟨c, hj.creator_mono hc, ?_⟩
  rcases List.mem_cons.mp ha with rfl | ha
  · exact ⟨a, List.mem_cons_self, hkey⟩
  · have hlog := h.log_step hinv hs horigin hj (encodeTokensToBlobName tokens)
    split at hlog
    · next hpub =>
      obtain ⟨⟨m, etag, hop⟩, hdone⟩ := publishesTo_iff.mp hpub
      have hsent := Refines.sends_view hinv hs hj h' hop hdone
      obtain ⟨hh, hp⟩ := Prod.mk.inj hkey
      have hnew : ∃ versions, additionalVersionsOf m = .ok versions ∧
          ∃ v ∈ versions, v.hash = hash ∧ v.parentHash = parentHash := by
        by_contra hnone
        exact hno ⟨hdone, m, etag, hop,
          ⟨_, (h.recordsAdditional_iff hinv).mpr ⟨a, ha, rfl⟩, hh, hp⟩, hnone⟩
      obtain ⟨vs, hvs, v, hv, hvh, hvp⟩ := hnew
      cases hvs.symm.trans hsent
      obtain ⟨a', ha', rfl⟩ := List.mem_map.mp hv
      exact ⟨a', List.mem_cons_of_mem _ ha', Prod.ext hvh hvp⟩
    · refine ⟨a, List.mem_cons_of_mem _ ?_, hkey⟩
      unfold Journal.State.view
      rw [hlog]
      exact ha

/-- A key that is shown at some state of a run, and not evicted after it, is shown at the end. -/
theorem Refines.shows_run {tokens : List Token} {hash parentHash : Hash} {s₀ : System ι}
    {j₀ : Journal.State ι Text} {tr : List (System ι × Event ι)}
    (hF : ∀ {op status}, F op status → status ≠ .PreconditionFailed) (h₀ : Refines calls j₀ s₀)
    (hinv₀ : Journal.Inv (protocol calls) j₀) (h : Run (Step F calls) s₀ tr s)
    (hshows : Shows calls j₀ (encodeTokensToBlobName tokens) (hash, parentHash))
    (hno : ∀ p ∈ tr, ¬ Evicts p.1 p.2 (encodeTokensToBlobName tokens) hash parentHash) :
    RecordsPair s.store (encodeTokensToBlobName tokens) hash parentHash := by
  have hrun := Refines.run (fun tr j =>
    (∀ p ∈ tr, ¬ Evicts p.1 p.2 (encodeTokensToBlobName tokens) hash parentHash) →
      Shows calls j (encodeTokensToBlobName tokens) (hash, parentHash)) hF h₀ hinv₀
    (fun _ => hshows) ?_ h
  · obtain ⟨j, hr, hinv, hq⟩ := hrun
    exact (hr.recordsPair_iff hinv).mpr (hq hno)
  · intro tr s e s' j j' served hr hinv hq hs horigin hj hr' hno
    refine hr.shows_step hinv hs horigin hj hr' (hq fun p hp => hno p (List.mem_append_left _ hp))
      (hno (s, e) ?_)
    exact List.mem_append_right _ (List.mem_singleton_self _)

end

/-! ## The walk of `Lookup` -/

section

variable {ι : Type u} [Base64Url] {calls : Calls ι} {j : Journal.State ι Text} {s : System ι}
  {tokens : List Token}

/-- What `Lookup` fetches for the blob of a slot. -/
theorem Refines.blockProperties_slot (h : Refines calls j s) {b : Text} {c : ι}
    (hc : j.creator b = some c) :
    ∃ multiVersion, blockProperties (s.store.perform (.getProperties b)).1 = .ok {
      found := true
      storedHash := (calls.call c).chunk.hash
      parentHash := (calls.call c).chunk.parentHash
      multiVersion
      additionalVersions := if j.log b = [] then []
        else serializeAdditionalVersions (versions calls (j.view (protocol calls) b)) } := by
  obtain ⟨etag, -, hblob⟩ := h.base hc
  refine ⟨textEntry (slotMetadata calls c (j.log b)) "multiversion".toList, ?_⟩
  simp only [Container.perform, hblob, slotBlob]
  unfold blockProperties
  dsimp only
  rw [hashEntry_hash (lookup_slotMetadata_hash c _),
    hashEntry_parenthash (lookup_slotMetadata_parenthash c _), textEntry_slotMetadata]
  rfl

/-- The version that the walk takes from a slot: the creator's, or the first of the window with the
expected parent. -/
def pick (calls : Calls ι) (j : Journal.State ι Text) (n : Nat) (b : Text) (c : ι)
    (parent : Hash) : Option BlockLocation :=
  if n = 0 ∨ (calls.call c).chunk.parentHash = parent then
    some { hash := (calls.call c).chunk.hash, location := b }
  else
    ((versions calls (j.view (protocol calls) b)).find? fun v => v.parentHash = parent).map
      fun v => { hash := v.hash, location := v.location }

theorem chooseVersion_slot {n : Nat} {b : Text} {c : ι} {parent : Hash} {multiVersion : Text} :
    chooseVersion n b {
      found := true
      storedHash := (calls.call c).chunk.hash
      parentHash := (calls.call c).chunk.parentHash
      multiVersion
      additionalVersions := if j.log b = [] then []
        else serializeAdditionalVersions (versions calls (j.view (protocol calls) b)) } parent =
      .ok (pick calls j n b c parent) := by
  unfold chooseVersion pick
  by_cases hlog : j.log b = []
  · have hview : j.view (protocol calls) b = [] := by
      unfold Journal.State.view
      rw [hlog, List.rtake_nil]
    simp only [hlog, if_true, ne_eq, not_true, if_false, hview]
    by_cases hn : n = 0 ∨ (calls.call c).chunk.parentHash = parent
    · rw [if_pos hn, if_neg]
      rintro ⟨hpos, hne⟩
      exact hn.elim (Nat.ne_of_gt hpos) hne
    · obtain ⟨hn0, hne⟩ := not_or.mp hn
      rw [if_neg hn, if_pos ⟨Nat.pos_of_ne_zero hn0, hne⟩]
      rfl
  · simp only [hlog, if_false, ne_eq, serialize_ne_nil, not_false_eq_true, if_true]
    split
    · rfl
    · rw [parse_versions]
      rfl

/-- The hashes `hs` are those of the slots from block `n` on, and every slot shows a version with
its hash as a child of the one before. -/
def Links (calls : Calls ι) (j : Journal.State ι Text) (tokens : List Token) (n : Nat)
    (parent : Hash) (hs : List Hash) : Prop :=
  ∀ k hash, hs[k]? = some hash →
    ∃ c, j.creator (encodeTokensToBlobName (blockTokens tokens (n + k))) = some c ∧
      (∀ a ∈ c :: j.view (protocol calls) (encodeTokensToBlobName (blockTokens tokens (n + k))),
        (calls.call a).chunk.hash = hash) ∧
      (0 < n + k → ∃ a ∈ c :: j.view (protocol calls)
          (encodeTokensToBlobName (blockTokens tokens (n + k))),
        (parent :: hs)[k]? = some (calls.call a).chunk.parentHash)

theorem Links.tail {n : Nat} {parent hash : Hash} {hs : List Hash}
    (h : Links calls j tokens n parent (hash :: hs)) : Links calls j tokens (n + 1) hash hs := by
  intro k hash' hk
  have hnext := h (k + 1) hash' hk
  have hblock : n + (k + 1) = n + 1 + k := by omega
  rw [hblock] at hnext
  exact hnext

/-- The walk takes a version of a linked slot. -/
theorem Links.pick {n : Nat} {parent hash : Hash} {hs : List Hash}
    (h : Links calls j tokens n parent (hash :: hs)) :
    ∃ c loc, j.creator (encodeTokensToBlobName (blockTokens tokens n)) = some c ∧
      pick calls j n (encodeTokensToBlobName (blockTokens tokens n)) c parent = some loc ∧
      loc.hash = hash := by
  obtain ⟨c, hc, hhash, hparent⟩ := h 0 hash rfl
  rw [Nat.add_zero] at hc hhash hparent
  refine ⟨c, ?_⟩
  unfold KVStore.pick
  split
  · exact ⟨_, hc, rfl, hhash c List.mem_cons_self⟩
  · next hn =>
    obtain ⟨hn0, hne⟩ := not_or.mp hn
    obtain ⟨a, ha, hpa⟩ := hparent (Nat.pos_of_ne_zero hn0)
    have hview := (List.mem_cons.mp ha).resolve_left fun he => by
      subst he
      exact hne (Option.some.inj hpa).symm
    obtain ⟨v, hv⟩ : ∃ v, (versions calls (j.view (protocol calls)
        (encodeTokensToBlobName (blockTokens tokens n)))).find?
          (fun v => v.parentHash = parent) = some v := by
      rw [← Option.isSome_iff_exists, List.find?_isSome]
      exact ⟨_, List.mem_map_of_mem hview, decide_eq_true (Option.some.inj hpa).symm⟩
    obtain ⟨a', ha', rfl⟩ := List.mem_map.mp (List.mem_of_find?_eq_some hv)
    rw [hv]
    exact ⟨_, hc, rfl, hhash a' (List.mem_cons_of_mem _ ha')⟩

/-- A walk that takes nothing from a slot has passed all linked slots. -/
theorem Links.eq_nil {n : Nat} {parent : Hash} {hs : List Hash}
    (h : Links calls j tokens n parent hs)
    (hnone : ∀ c, j.creator (encodeTokensToBlobName (blockTokens tokens n)) = some c →
      KVStore.pick calls j n (encodeTokensToBlobName (blockTokens tokens n)) c parent = none) :
    hs = [] := by
  cases hs with
  | nil => rfl
  | cons hash hs =>
    obtain ⟨c, loc, hc, hloc, -⟩ := h.pick
    cases (hnone c hc).symm.trans hloc

/-- A walk that takes a version takes the next linked hash, if there is one. -/
theorem Links.next {n : Nat} {parent : Hash} {hs : List Hash} {c : ι} {loc : BlockLocation}
    (h : Links calls j tokens n parent hs)
    (hc : j.creator (encodeTokensToBlobName (blockTokens tokens n)) = some c)
    (hloc : KVStore.pick calls j n (encodeTokensToBlobName (blockTokens tokens n)) c parent =
      some loc) :
    ∃ hs', Links calls j tokens (n + 1) loc.hash hs' ∧
      (hs = [] ∧ hs' = [] ∨ hs = loc.hash :: hs') := by
  cases hs with
  | nil => exact ⟨[], fun k hash hk => (by cases hk), Or.inl ⟨rfl, rfl⟩⟩
  | cons hash hs =>
    obtain ⟨c', loc', hc', hloc', rfl⟩ := h.pick
    obtain rfl := Option.some.inj (hc.symm.trans hc')
    obtain rfl := Option.some.inj (hloc.symm.trans hloc')
    exact ⟨hs, h.tail, Or.inr rfl⟩

/-- The walk finds at least the linked slots. -/
theorem Refines.lookupLoop_links (h : Refines calls j s) :
    ∀ {blocks : List (BlockInfo × Except StdError BlockProperties)} {n : Nat} {parent : Hash}
      {hs : List Hash} (result : LookupResult), FetchedFrom s.store tokens n blocks →
      hs.length ≤ blocks.length → Links calls j tokens n parent hs →
      ∃ r locs, lookupLoop blocks n parent result = .ok r ∧
        r.locations = result.locations ++ locs ∧ hs <+: locs.map BlockLocation.hash := by
  intro blocks
  induction blocks with
  | nil =>
    intro n parent hs result _ hlen _
    obtain rfl := List.length_eq_zero_iff.mp (Nat.le_zero.mp hlen)
    exact ⟨result, [], rfl, by simp, List.nil_prefix⟩
  | cons block blocks ih =>
    intro n parent hs result hfetched hlen hlinks
    obtain ⟨block, future⟩ := block
    obtain ⟨hname, hfuture⟩ := hfetched 0 _ rfl
    dsimp only at hname hfuture
    rw [Nat.add_zero] at hname
    rw [hname] at hfuture
    have hstop : lookupLoop ((block, future) :: blocks) n parent result = .ok result → hs = [] →
        ∃ r locs, lookupLoop ((block, future) :: blocks) n parent result = .ok r ∧
          r.locations = result.locations ++ locs ∧ hs <+: locs.map BlockLocation.hash := by
      rintro hloop rfl
      exact ⟨result, [], hloop, by simp, List.nil_prefix⟩
    rcases hc : j.creator (encodeTokensToBlobName (blockTokens tokens n)) with _ | c
    · refine hstop ?_ (hlinks.eq_nil fun c hc' => ?_)
      · rw [hfuture]
        simp only [Container.perform, h.blobs_eq_none hc]
        rfl
      · cases hc.symm.trans hc'
    · obtain ⟨multiVersion, hprops⟩ := h.blockProperties_slot hc
      have hchoose := @chooseVersion_slot _ _ calls j n block.blobName c parent multiVersion
      rw [← hname] at hprops hfuture
      rw [hfuture.trans hprops] at hstop ⊢
      cases hp : pick calls j n block.blobName c parent with
      | none =>
        rw [hp] at hchoose
        refine hstop (lookupLoop_stop blocks fun _ => hchoose) (hlinks.eq_nil fun c' hc' => ?_)
        obtain rfl := Option.some.inj (hc.symm.trans hc')
        exact hname ▸ hp
      | some loc =>
        rw [hp] at hchoose
        rw [lookupLoop_some blocks rfl hchoose]
        obtain ⟨hs', hlinks', hhs⟩ := hlinks.next hc (hname ▸ hp)
        have hlen' : hs'.length ≤ blocks.length := by
          rcases hhs with ⟨-, rfl⟩ | rfl
          · exact Nat.zero_le _
          · exact Nat.le_of_succ_le_succ hlen
        obtain ⟨r, locs, hloop, hlocs, hprefix⟩ := ih _ hfetched.tail hlen' hlinks'
        refine ⟨r, loc :: locs, hloop, ?_, ?_⟩
        · rw [hlocs, List.append_assoc]
          rfl
        · rcases hhs with ⟨rfl, -⟩ | rfl
          · exact List.nil_prefix
          · exact List.prefix_cons_inj _ |>.mpr hprefix

theorem Refines.lookup_links (h : Refines calls j s) (precomputedHashes : List Hash)
    {hs : List Hash} (hlen : hs.length ≤ tokens.length / blockSize)
    (hlinks : Links calls j tokens 0 0 hs) :
    ∃ r, lookup s.store tokens precomputedHashes = .ok r ∧
      hs <+: r.locations.map BlockLocation.hash := by
  have hblocks : hs.length ≤ (lookupBlocks s.store tokens precomputedHashes
      (tokens.length / blockSize)).length := by
    unfold lookupBlocks
    rwa [List.length_map, List.length_range]
  obtain ⟨r, locs, hloop, hlocs, hprefix⟩ :=
    h.lookupLoop_links {} (fetchedFrom_lookupBlocks _) hblocks hlinks
  rw [List.nil_append] at hlocs
  refine ⟨r, ?_, hlocs ▸ hprefix⟩
  unfold KVStore.lookup
  dsimp only
  split
  · next h0 =>
    rw [h0] at hloop
    exact hloop
  · exact hloop

/-- `Lookup` raises nothing. -/
theorem Refines.lookup_ok (h : Refines calls j s) (tokens : List Token)
    (precomputedHashes : List Hash) : ∃ r, lookup s.store tokens precomputedHashes = .ok r := by
  obtain ⟨r, hr, -⟩ := h.lookup_links precomputedHashes (List.length_nil.trans_le (Nat.zero_le _))
    fun _ _ hk => (by cases hk)
  exact ⟨r, hr⟩

end

/-! ## Chains of blocks -/

theorem length_flatten {chain : List (List Token)} (hlen : ∀ B ∈ chain, B.length = blockSize) :
    chain.flatten.length = chain.length * blockSize := by
  induction chain with
  | nil => rfl
  | cons B chain ih =>
    rw [List.flatten_cons, List.length_append, hlen B List.mem_cons_self,
      ih fun C hC => hlen C (List.mem_cons_of_mem _ hC), List.length_cons]
    exact (Nat.add_comm ..).trans (Nat.succ_mul ..).symm

theorem blockTokens_flatten {chain : List (List Token)} (hlen : ∀ B ∈ chain, B.length = blockSize)
    (rest : List Token) : ∀ {n : Nat} {B : List Token}, chain[n]? = some B →
      blockTokens (chain.flatten ++ rest) n = B := by
  induction chain with
  | nil =>
    intro n B h
    cases h
  | cons B' chain ih =>
    intro n B h
    have hB' : B'.length = blockSize := hlen B' List.mem_cons_self
    unfold blockTokens at ih ⊢
    rw [List.flatten_cons, List.append_assoc]
    cases n with
    | zero =>
      cases h
      rw [Nat.zero_mul, List.drop_zero, ← hB', List.take_left]
    | succ n =>
      rw [Nat.succ_mul, Nat.add_comm, ← List.drop_drop, ← hB', List.drop_left, hB']
      exact ih (fun C hC => hlen C (List.mem_cons_of_mem _ hC)) h

section

variable {ι : Type u} [DecidableEq ι] [Base64Url] {calls : Calls ι}
  {tr : List (System ι × Event ι)} {s : System ι}

/-- At some state of the run the version was recorded, and no later step of the run evicted it. -/
def RecordedSince (calls : Calls ι) (tr : List (System ι × Event ι)) (s : System ι) (name : Text)
    (hash parentHash : Hash) : Prop :=
  ∃ tr₁ s₁ tr₂, tr = tr₁ ++ tr₂ ∧ Runs serviceFaults calls Container.empty tr₁ s₁ ∧
    Run (Step serviceFaults calls) s₁ tr₂ s ∧ RecordsPair s₁.store name hash parentHash ∧
    ∀ p ∈ tr₂, ¬ Evicts p.1 p.2 name hash parentHash

theorem RecordedSince.recordsPair {tokens : List Token} {hash parentHash : Hash}
    (h : RecordedSince calls tr s (encodeTokensToBlobName tokens) hash parentHash) :
    RecordsPair s.store (encodeTokensToBlobName tokens) hash parentHash := by
  obtain ⟨tr₁, s₁, tr₂, -, h₁, h₂, hrec, hno⟩ := h
  obtain ⟨j₁, hr₁, hinv₁⟩ := Runs.refines id h₁
  exact hr₁.shows_run id hinv₁ h₂ ((hr₁.recordsPair_iff hinv₁).mp hrec) hno

omit [DecidableEq ι] in
/-- Calls of one slot wrote the same tokens. -/
theorem tokens_eq_of_blobName {a b : ι} (htok : ∀ i, ∀ t ∈ (calls.call i).chunk.tokens, Token32 t)
    (h : (calls.call a).blobName = (calls.call b).blobName) :
    (calls.call a).chunk.tokens = (calls.call b).chunk.tokens :=
  map_low32_inj (htok a) (htok b) (encodeTokensToBlobName_eq_iff.mp h)

/-- `Lookup` finds a chain of blocks whose versions were recorded and not evicted since. -/
theorem lookup_finds_chain {H : List Token → Hash} {chain : List (List Token)}
    (h : Runs serviceFaults calls Container.empty tr s)
    (hhash : ∀ i, (calls.call i).chunk.hash = H (calls.call i).chunk.tokens)
    (htok : ∀ i, ∀ t ∈ (calls.call i).chunk.tokens, Token32 t)
    (hlen : ∀ B ∈ chain, B.length = blockSize)
    (hrec : ∀ (n : Nat) (B : List Token) (parentHash : Hash), chain[n]? = some B →
      (0 :: chain.map H)[n]? = some parentHash →
        RecordedSince calls tr s (encodeTokensToBlobName B) (H B) parentHash)
    (rest : List Token) (precomputedHashes : List Hash) :
    ∃ result, lookup s.store (chain.flatten ++ rest) precomputedHashes = .ok result ∧
      chain.length ≤ result.locations.length ∧
      (result.locations.map BlockLocation.hash).take chain.length = chain.map H := by
  obtain ⟨j, hr, hinv⟩ := Runs.refines id h
  have hlinks : Links calls j (chain.flatten ++ rest) 0 0 (chain.map H) := by
    intro k hash hk
    rw [List.getElem?_map] at hk
    obtain ⟨B, hB, rfl⟩ := Option.map_eq_some_iff.mp hk
    obtain ⟨hlt, -⟩ := List.getElem?_eq_some_iff.mp hB
    obtain ⟨parentHash, hparent⟩ : ∃ p, (0 :: chain.map H)[k]? = some p := by
      refine ⟨_, List.getElem?_eq_getElem ?_⟩
      simp
      omega
    have hpair := (hrec k B parentHash hB hparent).recordsPair
    obtain ⟨c, hc, a, ha, hkey⟩ := (hr.recordsPair_iff hinv).mp hpair
    obtain ⟨hah, hap⟩ := Prod.mk.inj hkey
    rw [Nat.zero_add, blockTokens_flatten hlen rest hB]
    have hslot : ∀ x ∈ c :: j.view (protocol calls) (encodeTokensToBlobName B),
        (calls.call x).blobName = encodeTokensToBlobName B := by
      intro x hx
      rcases List.mem_cons.mp hx with rfl | hx
      · exact hinv.slot_creator hc
      · exact (hinv.mem_log (mem_of_mem_rtake hx)).1
    refine ⟨c, hc, fun x hx => ?_, fun _ => ⟨a, ha, hap ▸ hparent⟩⟩
    have htokens := tokens_eq_of_blobName htok ((hslot x hx).trans (hslot a ha).symm)
    rw [hhash x, htokens, ← hhash a]
    exact hah
  have hfull : (chain.map H).length ≤ (chain.flatten ++ rest).length / blockSize := by
    rw [List.length_map, Nat.le_div_iff_mul_le (by decide), List.length_append,
      length_flatten hlen]
    exact Nat.le_add_right _ _
  obtain ⟨r, hlookup, hprefix⟩ := hr.lookup_links precomputedHashes hfull hlinks
  have hle := hprefix.length_le
  rw [List.length_map, List.length_map] at hle
  refine ⟨r, hlookup, hle, ?_⟩
  rw [← List.length_map (f := H), ← List.prefix_iff_eq_take.mp hprefix]

end

/-! ## A block that follows itself -/

section

attribute [local instance] Base64Url.unpadded

/-- Both calls write the same block, the second one as a child of the first. -/
def repeatedBlock : Calls UInt64 :=
  numberedCalls fun i =>
    { tokens := zeroBlock, hash := 7, parent_hash := if i = 0 then 0 else 7 }

def repeatedBlockRun : List (System UInt64 × Event UInt64) × System UInt64 :=
  execute repeatedBlock (served [0, 1, 1, 1, 1]) (System.initial Container.empty)

theorem repeatedBlockRun_run :
    Runs serviceFaults repeatedBlock Container.empty repeatedBlockRun.1 repeatedBlockRun.2 :=
  served_run _ _

theorem lookup_finds_repeatedBlock :
    ∃ result, lookup repeatedBlockRun.2.store ([zeroBlock, zeroBlock].flatten ++ [5]) [] =
        .ok result ∧
      2 ≤ result.locations.length ∧ (result.locations.map BlockLocation.hash).take 2 = [7, 7] := by
  have hrecorded : recordedVersions repeatedBlockRun.2.store (encodeTokensToBlobName zeroBlock) =
      .ok [{ hash := 7, parentHash := 0, location := encodeTokensToBlobName zeroBlock },
        (repeatedBlock.call 1).newVersion] := by decide +kernel
  have hsince : ∀ parentHash : Hash, parentHash = 0 ∨ parentHash = 7 →
      RecordedSince repeatedBlock repeatedBlockRun.1 repeatedBlockRun.2
        (encodeTokensToBlobName zeroBlock) 7 parentHash := by
    intro parentHash hparent
    refine ⟨_, _, [], (List.append_nil _).symm, repeatedBlockRun_run, .nil, ?_, by simp⟩
    rcases hparent with rfl | rfl
    · exact ⟨_, (records_iff hrecorded).mpr List.mem_cons_self, rfl, rfl⟩
    · exact ⟨_, (records_iff hrecorded).mpr (List.mem_cons_of_mem _ List.mem_cons_self), rfl, rfl⟩
  have htok : ∀ i, ∀ t ∈ (repeatedBlock.call i).chunk.tokens, Token32 t := by
    intro i t ht
    rw [List.eq_of_mem_replicate ht]
    exact ⟨by decide, by decide⟩
  have hlen : ∀ B ∈ [zeroBlock, zeroBlock], B.length = blockSize := by
    simp [zeroBlock]
  refine lookup_finds_chain (H := fun _ => 7) repeatedBlockRun_run (fun _ => rfl) htok hlen
    (fun n B parentHash hB hparent => ?_) [5] []
  have hB' : B = zeroBlock := by
    have hmem := List.mem_of_getElem? hB
    simpa using hmem
  have hparent' : parentHash = 0 ∨ parentHash = 7 := by
    have hmem := List.mem_of_getElem? hparent
    simpa using hmem
  rw [hB']
  exact hsince parentHash hparent'

end

end KVStore
