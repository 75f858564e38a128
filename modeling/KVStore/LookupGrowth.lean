import KVStore.WarmStart

/-!
# Lookups only grow

As long as at most `maxVersions` additional versions of each block are uploaded, no version leaves
the list of a block, and new ones come after the old ones (`no_eviction`, `History.view_prefix`). So
whatever the walk of a `Lookup` takes from a block, every later walk takes as well.
`lookupWith_grows`: the locations that one `Lookup` returns are the first ones that each later
`Lookup` returns for the same tokens, or for more.
-/

namespace KVStore

open Transition RecentWindow

universe u

/-! ## Few uploads -/

section

variable {ι : Type u} [DecidableEq ι] [Base64Url] {calls : Calls ι}
  {tr tr' : List (System ι × Event ι)} {s : System ι}

omit [DecidableEq ι] [Base64Url] in
theorem Uploaded.append {name : Text} {content : List UInt8} {metadata : Metadata}
    (h : Uploaded tr name content metadata) (tr' : List (System ι × Event ι)) :
    Uploaded (tr ++ tr') name content metadata := by
  obtain ⟨p, hp, huploaded⟩ := h
  exact ⟨p, List.mem_append_left _ hp, huploaded⟩

omit [DecidableEq ι] in
theorem FewUploads.of_append (h : FewUploads calls (tr ++ tr')) : FewUploads calls tr := by
  intro b
  obtain ⟨uploaders, hlen, huploaders⟩ := h b
  exact ⟨uploaders, hlen, fun i content metadata hi hup =>
    huploaders i content metadata hi (hup.append tr')⟩

omit [DecidableEq ι] in
theorem WritePoint.request_uploadIfNoneMatch {call : Call} {point : WritePoint} {name : Text}
    {content : List UInt8} {metadata : Metadata}
    (h : point.request call = some (.uploadIfNoneMatch name content metadata)) :
    name = call.blobName := by
  cases point with
  | upload => exact (BlobOp.uploadIfNoneMatch.inj (Option.some.inj h)).1.symm
  | evict retry l =>
    obtain ⟨v, -, hv⟩ := Option.map_eq_some_iff.mp h
    cases hv
  | _ => cases h

omit [DecidableEq ι] in
theorem WritePoint.request_upload {call : Call} {point : WritePoint} {name : Text}
    {content : List UInt8} {metadata : Metadata}
    (h : point.request call = some (.upload name content metadata)) :
    name = call.guidLocation := by
  cases point with
  | guidUpload l => exact (BlobOp.upload.inj (Option.some.inj h)).1.symm
  | evict retry l =>
    obtain ⟨v, -, hv⟩ := Option.map_eq_some_iff.mp h
    cases hv
  | _ => cases h

/-- A run with at most `maxVersions` calls has few uploads. -/
theorem fewUploads_of_callers {F : Faults} {s₀ : System ι} (h : Run (Step F calls) s₀ tr s)
    {callers : List ι} (hlen : callers.length ≤ maxVersions)
    (hcallers : ∀ p ∈ tr, p.2.caller ∈ callers) : FewUploads calls tr := by
  refine fun b => ⟨callers, hlen, fun i content metadata _ hup => ?_⟩
  obtain ⟨p, hp, -, hop⟩ := hup
  obtain ⟨s', hs⟩ := h.step_of_mem hp
  have hown : (calls.call i).guidLocation = (calls.call p.2.caller).guidLocation := by
    have hreq := hs.request
    rcases hop with hop | hop <;> rw [hop] at hreq
    · exact absurd (WritePoint.request_uploadIfNoneMatch hreq) (generateGuid_ne_blobName _ _ _)
    · exact WritePoint.request_upload hreq
  rw [calls.guid_injective hown]
  exact hcallers p hp

omit [DecidableEq ι] in
/-- With few uploads the window of a slot shows its whole log. -/
theorem History.view_eq_log {j : Journal.State ι Text} (h : History calls tr j)
    (hinv : Journal.Inv (protocol calls) j) (hkept : Kept j) (hfew : FewUploads calls tr)
    (b : Text) : j.view (protocol calls) b = j.log b := by
  obtain ⟨uploaders, hlen, huploaders⟩ := hfew b
  have hsub : j.log b ⊆ uploaders := fun a ha =>
    huploaders a _ _ (hinv.mem_log ha).1 (h.entry (hkept _ a ha))
  exact rtake_of_length_le (((hinv.nodup_log b).subperm hsub).length_le.trans hlen)

/-- As long as at most `maxVersions` additional versions of each block are uploaded, no version is
taken out of the list of a block. -/
theorem no_eviction (h : Runs serviceFaults calls Container.empty tr s)
    (hfew : FewUploads calls tr) {p : System ι × Event ι} (hp : p ∈ tr) (tokens : List Token)
    (hash parentHash : Hash) :
    ¬ Evicts p.1 p.2 (encodeTokensToBlobName tokens) hash parentHash := by
  have hdelete := no_deletion h hfew
  obtain ⟨tr₁, tr₂, rfl, h₁, -⟩ := h.split_of_mem hp
  obtain ⟨s', hs⟩ := h.step_of_mem hp
  obtain ⟨j, hr, hinv, hhistory, hkept⟩ := Runs.kept id h₁
    fun q hq => hdelete q (List.mem_append_left _ hq)
  obtain ⟨j', served, hj, hr', horigin⟩ := hr.step id hinv hs
  rintro ⟨hdone, m, etag, hop, ⟨v, hv, rfl, rfl⟩, hnone⟩
  obtain ⟨a, ha, rfl⟩ := (hr.recordsAdditional_iff hinv).mp hv
  refine hnone ⟨_, Refines.sends_view hinv hs hj hr' hop hdone, _, List.mem_map_of_mem ?_, rfl, rfl⟩
  have hfew' : FewUploads calls (tr₁ ++ [p]) := by
    rw [List.append_cons] at hfew
    exact hfew.of_append
  rw [(hhistory.step hr hinv hs horigin hj).view_eq_log (hinv.step hj)
    (hkept.step hr hinv hs horigin hj (hdelete p hp)) hfew']
  exact (hj.log_prefix _).subset (mem_of_mem_rtake ha)

end

/-! ## What a later walk takes -/

section

variable {ι : Type u} [Base64Url] {calls : Calls ι} {j₁ j₂ : Journal.State ι Text}
  {tr : List (System ι × Event ι)} {s₁ s₂ : System ι}

/-- With few uploads a window shows the beginning of what every later window shows. -/
theorem History.view_prefix (h : History calls tr j₂) (hinv : Journal.Inv (protocol calls) j₂)
    (hkept : Kept j₂) (hfew : FewUploads calls tr) (hearlier : Earlier j₁ j₂) (b : Text) :
    j₁.view (protocol calls) b <+: j₂.view (protocol calls) b := by
  have hview := h.view_eq_log hinv hkept hfew b
  have hlog := hearlier.log b
  have hlen : (j₁.log b).length ≤ (protocol calls).window := by
    have hle := length_rtake (j₂.log b) (protocol calls).window
    unfold Journal.State.view at hview
    rw [hview] at hle
    exact hlog.length_le.trans (hle.trans_le (Nat.min_le_left _ _))
  have hview₁ : j₁.view (protocol calls) b = j₁.log b := rtake_of_length_le hlen
  rw [hview, hview₁]
  exact hlog

/-- The version that a walk takes from a slot stays the one that is taken. -/
theorem pick_mono {n : Nat} {b : Text} {c : ι} {parent : Hash} {loc : BlockLocation}
    (hview : j₁.view (protocol calls) b <+: j₂.view (protocol calls) b)
    (h : pick calls j₁ n b c parent = some loc) : pick calls j₂ n b c parent = some loc := by
  obtain ⟨rest, hrest⟩ := hview
  unfold pick at h ⊢
  split at h
  · next hdefault => rwa [if_pos hdefault]
  · next hdefault =>
    rw [if_neg hdefault]
    obtain ⟨v, hfind, hloc⟩ := Option.map_eq_some_iff.mp h
    rw [← hrest, versions, List.map_append, List.find?_append]
    unfold versions at hfind
    rw [hfind]
    exact congrArg some hloc

/-- What a walk takes of one block, another walk takes of the other one. -/
def TakenAlike (b b' : BlockInfo × Except StdError BlockProperties) : Prop :=
  ∀ p n parent loc, b.2 = .ok p → p.found = true →
    chooseVersion n b.1.blobName p parent = .ok (some loc) →
    ∃ p', b'.2 = .ok p' ∧ p'.found = true ∧
      chooseVersion n b'.1.blobName p' parent = .ok (some loc)

omit [Base64Url] in
/-- A walk that takes at least the same of each block returns at least the same locations. -/
theorem lookupLoop_grows {blocks blocks' : List (BlockInfo × Except StdError BlockProperties)}
    (h : ∀ (k : Nat) b, blocks[k]? = some b → ∃ b', blocks'[k]? = some b' ∧ TakenAlike b b')
    {n : Nat} {parent : Hash} {result r r' : LookupResult}
    (hr : lookupLoop blocks n parent result = .ok r)
    (hr' : lookupLoop blocks' n parent result = .ok r') : r.locations <+: r'.locations := by
  induction blocks generalizing blocks' n parent result with
  | nil =>
    cases hr
    obtain ⟨locs, hlocs, -⟩ := lookupLoop_walk hr'
    exact ⟨locs, hlocs.symm⟩
  | cons b blocks ih =>
    obtain ⟨block, future⟩ := b
    obtain ⟨⟨block', future'⟩, hfirst, htaken⟩ := h 0 _ rfl
    obtain ⟨blocks', rfl⟩ : ∃ rest, blocks' = (block', future') :: rest := by
      cases blocks' with
      | nil => cases hfirst
      | cons b' rest =>
        cases hfirst
        exact ⟨rest, rfl⟩
    obtain ⟨p, rfl, ⟨-, rfl⟩ | ⟨loc, hfound, hchoose, hrest⟩⟩ := lookupLoop_cases hr
    · obtain ⟨locs, hlocs, -⟩ := lookupLoop_walk hr'
      exact ⟨locs, hlocs.symm⟩
    · obtain ⟨p', hp', hfound', hchoose'⟩ := htaken p n parent loc rfl hfound hchoose
      obtain rfl : future' = .ok p' := hp'
      rw [lookupLoop_some blocks' hfound' hchoose'] at hr'
      exact ih (fun k b hk => h (k + 1) b hk) hrest hr'

/-- What was taken of a block is taken again on a later state, if nothing has been evicted. -/
theorem Refines.takenAlike {s : System ι} (h₁ : Refines calls j₁ s₁) (h : Refines calls j₂ s)
    (hearlier : Earlier j₁ j₂)
    (hview : ∀ b, j₁.view (protocol calls) b <+: j₂.view (protocol calls) b)
    {block block' : BlockInfo} {tokens : List Token}
    (hname : block.blobName = encodeTokensToBlobName tokens)
    (hname' : block'.blobName = encodeTokensToBlobName tokens) :
    TakenAlike
      (block, blockProperties (s₁.store.perform (.getProperties block.blobName)).1)
      (block', blockProperties (s.store.perform (.getProperties block'.blobName)).1) := by
  intro p n parent loc hp hfound hchoose
  dsimp only at hp hchoose ⊢
  rw [hname] at hp hchoose
  rw [hname']
  rcases hc : j₁.creator (encodeTokensToBlobName tokens) with _ | c
  · simp only [Container.perform, h₁.blobs_eq_none hc] at hp
    cases hp
    cases hfound
  · obtain ⟨multiVersion₁, hprops₁⟩ := h₁.blockProperties_slot hc
    obtain ⟨multiVersion, hprops⟩ := h.blockProperties_slot (hearlier.creator hc)
    cases hp.symm.trans hprops₁
    rw [chooseVersion_slot] at hchoose
    refine ⟨_, hprops, rfl, ?_⟩
    rw [chooseVersion_slot, pick_mono (hview _) (Except.ok.inj hchoose)]

end

/-! ## Two lookups -/

section

variable {ι : Type u} [DecidableEq ι] [Base64Url] {calls : Calls ι}
  {tr₁ tr₂ tr₃ : List (System ι × Event ι)} {s₁ s₂ s₃ : System ι}

/-- What has happened when a state is reached after two parts of a run, if there are few uploads. -/
theorem exists_kept_of_mem_passed (h₁ : Runs serviceFaults calls Container.empty tr₁ s₁)
    (h₂ : Run (Step serviceFaults calls) s₁ tr₂ s₂) (h₃ : Run (Step serviceFaults calls) s₂ tr₃ s₃)
    (hfew : FewUploads calls (tr₁ ++ tr₂ ++ tr₃)) {s : System ι} (hs : s ∈ passed tr₃ s₃) :
    ∃ tr j, FewUploads calls tr ∧ Refines calls j s ∧ Journal.Inv (protocol calls) j ∧
      History calls tr j ∧ Kept j ∧ ∀ s' ∈ passed tr₂ s₂, s' ∈ passed tr s := by
  obtain ⟨tr, ⟨rest, rfl⟩, hrun⟩ := exists_run_of_mem_passed h₃ hs
  have hall : Runs serviceFaults calls Container.empty (tr₁ ++ tr₂ ++ tr) s :=
    (h₁.trans h₂).trans hrun
  rw [← List.append_assoc] at hfew
  obtain ⟨j, hr, hinv, hhistory, hkept⟩ := Runs.kept id hall (no_deletion hall hfew.of_append)
  refine ⟨_, j, hfew.of_append, hr, hinv, hhistory, hkept, fun s' hs' => ?_⟩
  have hnow := mem_passed_of_run hrun
  unfold passed at hs' hnow ⊢
  rw [List.map_append, List.map_append, List.append_assoc, List.append_assoc]
  apply List.mem_append_right
  rcases List.mem_append.mp hs' with hs' | hs'
  · exact List.mem_append_left _ hs'
  · rw [List.mem_singleton.mp hs']
    exact List.mem_append_right _ hnow

/-- Two lookups, the second one after the first, and for at least its tokens. Both fetch the
properties of each block while calls go on; storage errors may stop the first one only. Then the
second one returns the locations of the first, and perhaps further ones after them. -/
theorem lookupWith_grows {tokens more : List Token} {hashes hashes' : List Hash}
    {fetched fetched' : Nat → Except StdError BlockProperties} {result result' : LookupResult}
    (h₁ : Runs serviceFaults calls Container.empty tr₁ s₁)
    (h₂ : Run (Step serviceFaults calls) s₁ tr₂ s₂) (h₃ : Run (Step serviceFaults calls) s₂ tr₃ s₃)
    (hfew : FewUploads calls (tr₁ ++ tr₂ ++ tr₃))
    (hfetched : ∀ i, Fetches tr₂ s₂ (encodeTokensToBlobName (blockTokens tokens i)) (fetched i))
    (hfetched' : ∀ i, ∃ s ∈ passed tr₃ s₃, fetched' i = fetchedAt s.store (tokens ++ more) i)
    (hlookup : lookupWith fetched tokens hashes = .ok result)
    (hlookup' : lookupWith fetched' (tokens ++ more) hashes' = .ok result') :
    result.locations <+: result'.locations := by
  rw [lookupWith_eq_loop] at hlookup hlookup'
  refine lookupLoop_grows (fun k b hb => ?_) hlookup hlookup'
  rw [getElem?_fetchedBlocks] at hb
  split at hb
  · next hlt =>
    cases hb
    have hfull : (k + 1) * blockSize ≤ tokens.length := (Nat.le_div_iff_mul_le (by decide)).mp hlt
    have hlt' : k < (tokens ++ more).length / blockSize := by
      rw [List.length_append]
      exact hlt.trans_le (Nat.div_le_div_right (Nat.le_add_right _ _))
    refine ⟨_, getElem?_fetchedBlocks.trans (if_pos hlt'), ?_⟩
    rcases hfetched k with ⟨s, hs, hk⟩ | ⟨status, hk⟩
    · obtain ⟨s', hs', hk'⟩ := hfetched' k
      obtain ⟨tr, j, hfew', hr, hinv, hhistory, hkept, hpassed⟩ :=
        exists_kept_of_mem_passed h₁ h₂ h₃ hfew hs'
      obtain ⟨j₁, hr₁, -, hearlier⟩ := hhistory.reaches hr hinv (hpassed s hs)
      rw [hk, hk']
      exact hr₁.takenAlike hr hearlier
        (hhistory.view_prefix hinv hkept hfew' hearlier) rfl
        (congrArg encodeTokensToBlobName (blockTokens_append hfull more))
    · intro p n parent loc hp hfound
      cases hk.symm.trans hp
      cases hfound
  · cases hb

end

/-! ## A block that gets a child -/

section

attribute [local instance] Base64Url.unpadded

/-- The first lookup goes on during the first two operations of the second call of `repeatedBlock`,
the second lookup during the other two. -/
def repeatedBlockBefore : List (System UInt64 × Event UInt64) × System UInt64 :=
  execute repeatedBlock (served [0]) (System.initial Container.empty)

def repeatedBlockDuring : List (System UInt64 × Event UInt64) × System UInt64 :=
  execute repeatedBlock (served [1, 1]) repeatedBlockBefore.2

def repeatedBlockAfter : List (System UInt64 × Event UInt64) × System UInt64 :=
  execute repeatedBlock (served [1, 1]) repeatedBlockDuring.2

/-- The first block is fetched before the second call starts, the second one later. -/
def repeatedFetched (i : Nat) : Except StdError BlockProperties :=
  if i = 0 then fetchedAt repeatedBlockBefore.2.store (zeroBlock ++ zeroBlock) i
  else fetchedAt repeatedBlockDuring.2.store (zeroBlock ++ zeroBlock) i

/-- The first lookup finds the block once, the second one twice. -/
theorem lookupWith_grows_repeated : ∃ first second : List BlockLocation,
    first <+: second ∧ first.length = 1 ∧ second.length = 2 := by
  have hbefore : Runs serviceFaults repeatedBlock Container.empty repeatedBlockBefore.1
      repeatedBlockBefore.2 := served_run _ _
  have hduring : Run (Step serviceFaults repeatedBlock) repeatedBlockBefore.2 repeatedBlockDuring.1
      repeatedBlockDuring.2 := served_run _ _
  have hafter : Run (Step serviceFaults repeatedBlock) repeatedBlockDuring.2 repeatedBlockAfter.1
      repeatedBlockAfter.2 := served_run _ _
  have hcallers : ∀ p ∈ repeatedBlockBefore.1 ++ repeatedBlockDuring.1 ++ repeatedBlockAfter.1,
      p.2.caller ∈ [0, 1] := by decide +kernel
  have hfew : FewUploads repeatedBlock
      (repeatedBlockBefore.1 ++ repeatedBlockDuring.1 ++ repeatedBlockAfter.1) :=
    fewUploads_of_callers ((hbefore.trans hduring).trans hafter) (by decide) hcallers
  have hfetched (i : Nat) : Fetches repeatedBlockDuring.1 repeatedBlockDuring.2
      (encodeTokensToBlobName (blockTokens (zeroBlock ++ zeroBlock) i)) (repeatedFetched i) := by
    unfold repeatedFetched
    split
    · exact fetchedAt_fetches (mem_passed_of_run hduring) _ i
    · exact fetchedAt_fetches (mem_passed_end _ _) _ i
  have hfirst : lookupWith repeatedFetched (zeroBlock ++ zeroBlock) [] = .ok {
      cachedBlocks := 1
      lastHash := 7
      locations := [{ hash := 7, location := encodeTokensToBlobName zeroBlock }] } := by
    decide +kernel
  have hsecond : lookupWith (fetchedAt repeatedBlockAfter.2.store (zeroBlock ++ zeroBlock ++ []))
      (zeroBlock ++ zeroBlock ++ []) [] = .ok {
      cachedBlocks := 2
      lastHash := 7
      locations := [{ hash := 7, location := encodeTokensToBlobName zeroBlock },
        { hash := 7, location := (repeatedBlock.call 1).guidLocation }] } := by
    decide +kernel
  exact ⟨_, _, lookupWith_grows hbefore hduring hafter hfew hfetched
    (fun i => ⟨_, mem_passed_end _ _, rfl⟩) hfirst hsecond, rfl, rfl⟩

end

end KVStore
