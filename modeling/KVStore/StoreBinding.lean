import KVStore.AccountResolver
import KVStore.Lib.Memo

/-!
# The store of a request

Over any sequence of calls a resolver keeps its stores as a memo table, so a request is served from
the store of whichever request first had its key. `resolveStore_binds_iff`: whatever the world
outside does, every store that `ResolveStore` returns has the account and the container that
`ResolveAccountInfo` reports for the same names exactly when no two requests with different names
have the same key. The key joins the names with `|`, which the names may contain.
-/

namespace KVStore

open Transition

universe u v

inductive ResolverRequest
  | resolveStore (resourceName containerName : Text)
  | resolveAccountInfo (resourceName containerName : Text)
deriving DecidableEq

/-- A call with its answer. -/
inductive ResolverEvent
  | resolveStore (resourceName containerName : Text) (store : Option StoreInstance)
  | resolveAccountInfo (resourceName containerName : Text) (info : AccountInfo)
deriving DecidableEq

def ResolverEvent.request : ResolverEvent → ResolverRequest
  | .resolveStore resourceName containerName _ => .resolveStore resourceName containerName
  | .resolveAccountInfo resourceName containerName _ =>
    .resolveAccountInfo resourceName containerName

variable {ε : Type v} {δ : Type u}

namespace IAccountResolver

variable (R : IAccountResolver ε δ)

def serve (s : ResolverState δ) : ε × ResolverRequest → ResolverEvent × ResolverState δ
  | (outside, .resolveStore resourceName containerName) =>
    let r := R.resolveStore outside s resourceName containerName
    (.resolveStore resourceName containerName r.1, r.2)
  | (outside, .resolveAccountInfo resourceName containerName) =>
    let r := R.resolveAccountInfo outside s resourceName containerName
    (.resolveAccountInfo resourceName containerName r.1, r.2)

def next (s : ResolverState δ) (call : ε × ResolverRequest) :
    Option (ResolverEvent × ResolverState δ) :=
  some (R.serve s call)

/-- What the calls of a sequence answer. -/
def events (calls : List (ε × ResolverRequest)) : List ResolverEvent :=
  (replay R.next calls R.initial).1.map Prod.snd

def Step (s : ResolverState δ) (e : ResolverEvent) (s' : ResolverState δ) : Prop :=
  ∃ call, R.serve s call = (e, s')

/-- The events are those of the calls, in order. -/
theorem replay_request (calls : List (ε × ResolverRequest)) (s : ResolverState δ) :
    (replay R.next calls s).1.map (fun p => p.2.request) = calls.map Prod.snd := by
  induction calls generalizing s with
  | nil => rfl
  | cons call calls ih =>
    obtain ⟨outside, ⟨r, c⟩ | ⟨r, c⟩⟩ := call
    · exact congrArg _ (ih _)
    · exact congrArg _ (ih _)

theorem request_mem {calls : List (ε × ResolverRequest)} {e : ResolverEvent}
    (he : e ∈ R.events calls) : e.request ∈ calls.map Prod.snd := by
  rw [← R.replay_request calls R.initial]
  obtain ⟨p, hp, rfl⟩ := List.mem_map.mp he
  exact List.mem_map_of_mem hp

theorem events_run (calls : List (ε × ResolverRequest)) :
    ∃ tr s, Run R.Step R.initial tr s ∧ R.events calls = tr.map Prod.snd :=
  ⟨_, _, replay_run fun call _ {_ _ _} h => ⟨call, Option.some.inj h⟩, rfl⟩

end IAccountResolver

/-- Every store that `ResolveStore` returned is the one that `ResolveAccountInfo` reports for the
same names. -/
def BindsStores (events : List ResolverEvent) : Prop :=
  ∀ resourceName containerName store,
    .resolveStore resourceName containerName (some store) ∈ events →
      store.azureContainerName_ = containerName ∧
      ∀ info, .resolveAccountInfo resourceName containerName info ∈ events → info.success = true →
        store.azureAccountUrl_ = info.accountUrl ∧
          store.azureContainerName_ = info.containerName

/-- No two requests for stores with different names have the same key. -/
def SeparateKeys (requests : List ResolverRequest) : Prop :=
  ∀ r c r' c', .resolveStore r c ∈ requests → .resolveStore r' c' ∈ requests →
    r ≠ [] → c ≠ [] → r' ≠ [] → c' ≠ [] → getStoreKey r c = getStoreKey r' c' → r = r' ∧ c = c'

theorem getStoreKey_inj_left {r r' c : Text} (h : getStoreKey r c = getStoreKey r' c) : r = r' :=
  List.append_cancel_right (List.append_cancel_right h)

/-! ## The stores as a memo table -/

section

variable {bound : δ → Text → Option Text} {R : IAccountResolver ε δ}

/-- The names and the store of a call that returned one. -/
def ResolverEvent.returned : ResolverEvent → Option ((Text × Text) × StoreInstance)
  | .resolveStore resourceName containerName (some store) =>
    some ((resourceName, containerName), store)
  | _ => none

theorem Resolves.memo (hR : Resolves bound R) {s s' : ResolverState δ} {e : ResolverEvent}
    (hs : R.Step s e s') :
    Memo.Step (fun p : Text × Text => getStoreKey p.1 p.2) s.stores_ e.returned s'.stores_ := by
  obtain ⟨⟨outside, request⟩, hserve⟩ := hs
  cases request with
  | resolveStore r c =>
    have hstore := hR.store outside s r c
    simp only [IAccountResolver.serve] at hserve
    obtain ⟨rfl, rfl⟩ := Prod.mk.inj hserve
    generalize R.resolveStore outside s r c = answer at hstore
    cases hstore with
    | refused stores =>
      rw [stores]
      exact .idle
    | cached _ _ hkey => exact .hit hkey
    | created _ _ hkey stores =>
      rw [stores]
      exact .create (a := (r, c)) hkey
  | resolveAccountInfo r c =>
    have hinfo := hR.info outside s r c
    simp only [IAccountResolver.serve] at hserve
    obtain ⟨rfl, rfl⟩ := Prod.mk.inj hserve
    rw [hinfo.stores]
    exact .idle

/-- What an event of the trace says about the bindings of the state `s` later on. -/
def Announced (bound : δ → Text → Option Text) (s : ResolverState δ) :
    ResolverState δ × ResolverEvent → Prop
  | (s₁, .resolveStore resourceName containerName (some store)) =>
    resourceName ≠ [] ∧ containerName ≠ [] ∧
      (s₁.stores_ (getStoreKey resourceName containerName) = none →
        store.azureContainerName_ = containerName ∧
          bound s.more resourceName = some store.azureAccountUrl_)
  | (_, .resolveStore _ _ none) => True
  | (_, .resolveAccountInfo resourceName containerName info) =>
    info.success = true →
      info.containerName = containerName ∧ bound s.more resourceName = some info.accountUrl

theorem Announced.keeps {s s' : ResolverState δ} {p : ResolverState δ × ResolverEvent}
    (hkeeps : Keeps bound s s') (h : Announced bound s p) : Announced bound s' p := by
  obtain ⟨s₁, ⟨r, c, _ | store⟩ | ⟨r, c, info⟩⟩ := p
  · trivial
  · obtain ⟨hr, hc, hnew⟩ := h
    exact ⟨hr, hc, fun hkey => ⟨(hnew hkey).1, hkeeps _ _ (hnew hkey).2⟩⟩
  · exact fun hok => ⟨(h hok).1, hkeeps _ _ (h hok).2⟩

/-- A call keeps the bindings and announces its own. -/
theorem Resolves.step (hR : Resolves bound R) {s s' : ResolverState δ} {e : ResolverEvent}
    (hs : R.Step s e s') : Keeps bound s s' ∧ Announced bound s' (s, e) := by
  obtain ⟨⟨outside, request⟩, hserve⟩ := hs
  cases request with
  | resolveStore r c =>
    have hstore := hR.store outside s r c
    simp only [IAccountResolver.serve] at hserve
    obtain ⟨rfl, rfl⟩ := Prod.mk.inj hserve
    generalize R.resolveStore outside s r c = answer at hstore
    cases hstore with
    | refused _ keeps => exact ⟨keeps, trivial⟩
    | cached hr hc hkey =>
      exact ⟨fun _ _ => id, hr, hc, fun hnone => nomatch hnone.symm.trans hkey⟩
    | created hr hc _ _ keeps hurl => exact ⟨keeps, hr, hc, fun _ => ⟨rfl, hurl⟩⟩
  | resolveAccountInfo r c =>
    have hinfo := hR.info outside s r c
    simp only [IAccountResolver.serve] at hserve
    obtain ⟨rfl, rfl⟩ := Prod.mk.inj hserve
    exact ⟨hinfo.keeps, fun hok => ⟨hinfo.container hok, hinfo.url hok⟩⟩

variable {tr : List (ResolverState δ × ResolverEvent)} {s : ResolverState δ}

theorem Resolves.announced (hR : Resolves bound R) (h : Run R.Step R.initial tr s) :
    ∀ p ∈ tr, Announced bound s p := by
  induction h with
  | nil => exact fun p hp => absurd hp List.not_mem_nil
  | snoc _ hs ih =>
    obtain ⟨hkeeps, hown⟩ := hR.step hs
    intro p hp
    rcases List.mem_append.mp hp with hp | hp
    · exact (ih p hp).keeps hkeeps
    · rw [List.mem_singleton.mp hp]
      exact hown

theorem ResolverEvent.eq_of_returned {e : ResolverEvent} {names : Text × Text}
    {store : StoreInstance} (h : e.returned = some (names, store)) :
    e = .resolveStore names.1 names.2 (some store) := by
  obtain ⟨r, c, _ | store'⟩ | ⟨r, c, info⟩ := e
  · cases h
  · obtain ⟨rfl, rfl⟩ := Prod.mk.inj (Option.some.inj h)
    rfl
  · cases h

variable {calls : List (ε × ResolverRequest)}

theorem Resolves.memo_run (hR : Resolves bound R) (h : Run R.Step R.initial tr s) :
    Run (Memo.Step fun p : Text × Text => getStoreKey p.1 p.2) (fun _ => none)
      (tr.map fun p => (p.1.stores_, p.2.returned)) s.stores_ := by
  rw [← funext hR.initial]
  exact h.map hR.memo

/-- The last state has the store of every request under its key. -/
theorem Resolves.answered (hR : Resolves bound R) (hrun : Run R.Step R.initial tr s) {r c : Text}
    {store : StoreInstance} (h : .resolveStore r c (some store) ∈ tr.map Prod.snd) :
    s.stores_ (getStoreKey r c) = some store := by
  obtain ⟨p, hp, hpe⟩ := List.mem_map.mp h
  apply Memo.answered_of_run (hR.memo_run hrun) _ (List.mem_map_of_mem hp) (r, c) store
  rw [hpe]
  rfl

/-- Requests with one key get one store. -/
theorem Resolves.one_store (hR : Resolves bound R) {r c r' c' : Text} {store store' : StoreInstance}
    (h : .resolveStore r c (some store) ∈ R.events calls)
    (h' : .resolveStore r' c' (some store') ∈ R.events calls)
    (hkey : getStoreKey r c = getStoreKey r' c') : store = store' := by
  obtain ⟨tr, s, hrun, hevents⟩ := R.events_run calls
  rw [hevents] at h h'
  have hstore := hR.answered hrun h
  rw [hkey, hR.answered hrun h'] at hstore
  exact (Option.some.inj hstore).symm

/-- The request that created the store of a request had the same key, and the account and the
container of the store are its own. -/
theorem Resolves.creator (hR : Resolves bound R) (hrun : Run R.Step R.initial tr s)
    {r c : Text} {store : StoreInstance} (h : .resolveStore r c (some store) ∈ tr.map Prod.snd) :
    ∃ r' c', .resolveStore r' c' (some store) ∈ tr.map Prod.snd ∧ r' ≠ [] ∧ c' ≠ [] ∧
      getStoreKey r' c' = getStoreKey r c ∧ store.azureContainerName_ = c' ∧
      bound s.more r' = some store.azureAccountUrl_ := by
  obtain ⟨q, hq, ⟨r', c'⟩, hreturned, hkey, hnone⟩ :=
    Memo.created_of_run (hR.memo_run hrun) (hR.answered hrun h)
  obtain ⟨q, hqtr, rfl⟩ := List.mem_map.mp hq
  have hqe := ResolverEvent.eq_of_returned hreturned
  have hann := hR.announced hrun q hqtr
  obtain ⟨s₁, e⟩ := q
  obtain rfl := hqe
  obtain ⟨hr, hc, hnew⟩ := hann
  have hown := hnew ((congrArg s₁.stores_ hkey).trans hnone)
  exact ⟨r', c', List.mem_map_of_mem hqtr, hr, hc, hkey, hown.1, hown.2⟩

/-- Requests whose keys are their own are bound to their own account and container. -/
theorem Resolves.bindsStores (hR : Resolves bound R)
    (hkeys : SeparateKeys (calls.map Prod.snd)) : BindsStores (R.events calls) := by
  intro r c store hstore
  have hrequest : ∀ {e}, e ∈ R.events calls → e.request ∈ calls.map Prod.snd :=
    fun he => R.request_mem he
  obtain ⟨tr, s, hrun, hevents⟩ := R.events_run calls
  rw [hevents] at hstore hrequest ⊢
  obtain ⟨r', c', hcreated, hr', hc', hkey, hcontainer, hurl⟩ := hR.creator hrun hstore
  have hnames : r ≠ [] ∧ c ≠ [] := by
    obtain ⟨⟨s₁, e⟩, hp, rfl⟩ := List.mem_map.mp hstore
    have hann := hR.announced hrun _ hp
    exact ⟨hann.1, hann.2.1⟩
  obtain ⟨rfl, rfl⟩ := hkeys r' c' r c (hrequest hcreated) (hrequest hstore) hr' hc' hnames.1
    hnames.2 hkey
  refine ⟨hcontainer, fun info hinfo hok => ?_⟩
  obtain ⟨⟨s₁, e⟩, hp, rfl⟩ := List.mem_map.mp hinfo
  obtain ⟨hinfoc, hinfourl⟩ := hR.announced hrun _ hp hok
  exact ⟨Option.some.inj (hurl.symm.trans hinfourl), hcontainer.trans hinfoc.symm⟩

/-- A world in which every request for a store with non-empty names gets one, from every state that
meets `I`. -/
structure Serves (R : IAccountResolver ε δ) (outside : ε) (I : ResolverState δ → Prop) : Prop where
  initial : I R.initial
  step : ∀ {s} request, I s → I (R.serve s (outside, request)).2
  store : ∀ {s r c}, I s → r ≠ [] → c ≠ [] → ∃ store, (R.resolveStore outside s r c).1 = some store

variable {outside : ε} {I : ResolverState δ → Prop} {requests : List ResolverRequest}

theorem Serves.replay (hW : Serves R outside I) {r c : Text} (hr : r ≠ []) (hc : c ≠ [])
    {s : ResolverState δ} (hs : I s) (h : .resolveStore r c ∈ requests) :
    ∃ store, .resolveStore r c (some store) ∈
      (Transition.replay R.next (requests.map (Prod.mk outside)) s).1.map Prod.snd := by
  induction requests generalizing s with
  | nil => cases h
  | cons request requests ih =>
    rcases List.mem_cons.mp h with rfl | h
    · obtain ⟨store, hstore⟩ := hW.store hs hr hc
      exact ⟨store, List.mem_cons.mpr (Or.inl (congrArg _ hstore.symm))⟩
    · obtain ⟨store, hmem⟩ := ih (hW.step request hs) h
      exact ⟨store, List.mem_cons_of_mem _ hmem⟩

/-- Two requests with one key get a store with the container of one of them. -/
theorem Serves.separateKeys (hW : Serves R outside I) (hR : Resolves bound R)
    (hbinds : BindsStores (R.events (requests.map (Prod.mk outside)))) : SeparateKeys requests := by
  intro r c r' c' h h' hr hc hr' hc' hkey
  obtain ⟨store, hstore⟩ := hW.replay hr hc hW.initial h
  obtain ⟨store', hstore'⟩ := hW.replay hr' hc' hW.initial h'
  obtain rfl := hR.one_store hstore hstore' hkey
  obtain rfl : c = c' := (hbinds r c store hstore).1.symm.trans (hbinds r' c' store hstore').1
  exact ⟨getStoreKey_inj_left hkey, rfl⟩

end

/-! ## Both resolvers -/

section

variable {I : δ → Prop}

/-- From the states that meet `I`, every name has a URL. -/
def AlwaysFinds (I : δ → Prop)
    (findUrl : ResolverState δ → Text → Except Text Text × ResolverState δ) : Prop :=
  ∀ {s} resourceName, I s.more →
    ∃ accountUrl s', I s'.more ∧ findUrl s resourceName = (.ok accountUrl, s')

variable {findUrl : ResolverState δ → Text → Except Text Text × ResolverState δ}
  {s : ResolverState δ} (r c : Text)

theorem AlwaysFinds.resolveStore (hfind : AlwaysFinds I findUrl) (hs : I s.more) :
    I (resolveStore findUrl (fun _ _ => true) s r c).2.more ∧
      (r ≠ [] → c ≠ [] →
        ∃ store, (KVStore.resolveStore findUrl (fun _ _ => true) s r c).1 = some store) := by
  obtain ⟨accountUrl, s', hs', hu⟩ := hfind r hs
  unfold KVStore.resolveStore
  split
  · next hempty => exact ⟨hs, fun hr hc => absurd hempty (not_or.mpr ⟨hr, hc⟩)⟩
  · split
    · next store _ => exact ⟨hs, fun _ _ => ⟨store, rfl⟩⟩
    · unfold resolveStoreLocked
      split
      · next store _ => exact ⟨hs, fun _ _ => ⟨store, rfl⟩⟩
      · rw [hu]
        exact ⟨hs', fun _ _ => ⟨_, rfl⟩⟩

theorem AlwaysFinds.resolveAccountInfo (hfind : AlwaysFinds I findUrl) (hs : I s.more) :
    I (resolveAccountInfo findUrl s r c).2.more := by
  obtain ⟨accountUrl, s', hs', hu⟩ := hfind r hs
  unfold KVStore.resolveAccountInfo
  rw [hu]
  split
  · exact hs
  · split
    · exact hs
    · exact hs'

theorem AlwaysFinds.serves {R : IAccountResolver ε δ} {outside : ε}
    {findUrl' : ResolverState δ → Text → Except Text Text × ResolverState δ}
    (hinitial : I R.initial.more) (hfind : AlwaysFinds I findUrl) (hfind' : AlwaysFinds I findUrl')
    (hstore : R.resolveStore outside = KVStore.resolveStore findUrl fun _ _ => true)
    (hinfo : R.resolveAccountInfo outside = KVStore.resolveAccountInfo findUrl') :
    Serves R outside fun s => I s.more where
  initial := hinitial
  step {s} request hs := by
    cases request with
    | resolveStore r c =>
      change I (R.resolveStore outside s r c).2.more
      rw [hstore]
      exact (hfind.resolveStore r c hs).1
    | resolveAccountInfo r c =>
      change I (R.resolveAccountInfo outside s r c).2.more
      rw [hinfo]
      exact hfind'.resolveAccountInfo r c hs
  store {s r c} hs := by
    rw [hstore]
    exact (hfind.resolveStore r c hs).2

end

theorem InMemoryAccountResolver.serves (config : AccountResolverConfig) :
    Serves (InMemoryAccountResolver.resolver config) (fun _ _ => true) fun _ => True := by
  have hfind : AlwaysFinds (fun _ => True) (findUrl config) :=
    fun {s} resourceName _ => ⟨_, s, trivial, rfl⟩
  exact hfind.serves trivial hfind rfl rfl

namespace StorageDatabaseResolver

/-- The service of a region whose account `configuredAccount` names. -/
def regionConfig : StorageDatabaseResolverConfig where
  serviceConfig :=
    { currentLocation := "westus2".toList
      configurationStore := "configstore".toList
      configurationContainer := "accounts".toList }

def configuredAccount : PromptAccountConfig where
  regionStorageMap := [("westus2".toList, ["account1".toList])]
  success := true

def configuredWorld : Outside where
  connect := none
  download _ := .ok []
  initializes _ _ := true

/-- All that is cached is the configuration of the one account. -/
def CachesConfigured (more : ConfigStore) : Prop :=
  ∀ r accountConfig, more.accountConfigCache_ r = some accountConfig →
    accountConfig = configuredAccount

theorem initializeConfigStoreClient_configured (s : ResolverState ConfigStore) :
    initializeConfigStoreClient regionConfig configuredWorld s =
      (true, { s with more := { s.more with configStoreInitialized_ := true } }) := by
  unfold initializeConfigStoreClient
  split
  · next h =>
    obtain ⟨stores, error, ⟨initialized, cache⟩⟩ := s
    obtain rfl : initialized = true := h
    rfl
  · rw [if_neg (by decide)]
    rfl

theorem fetchAccountConfig_configured {s : ResolverState ConfigStore}
    (hs : CachesConfigured s.more) (resourceName : Text) :
    ∃ s', CachesConfigured s'.more ∧
      fetchAccountConfig (fun _ => .ok configuredAccount) regionConfig configuredWorld s
        resourceName = (configuredAccount, s') := by
  unfold fetchAccountConfig
  split
  · next cached hcached =>
    rw [hs resourceName cached hcached]
    exact ⟨s, hs, rfl⟩
  · rw [initializeConfigStoreClient_configured]
    refine ⟨_, ?_, rfl⟩
    intro r accountConfig h
    have hupdate : Function.update s.more.accountConfigCache_ resourceName
        (some configuredAccount) r = some accountConfig := h
    by_cases hr : r = resourceName
    · rw [hr, Function.update_self] at hupdate
      exact (Option.some.inj hupdate).symm
    · rw [Function.update_of_ne hr] at hupdate
      exact hs r accountConfig hupdate

theorem alwaysFinds (fetchFailed : Text → Text) (noAccount : Text) :
    AlwaysFinds CachesConfigured
      (findUrl (fun _ => .ok configuredAccount) regionConfig configuredWorld fetchFailed
        noAccount) := by
  intro s resourceName hs
  obtain ⟨s', hs', hfetch⟩ := fetchAccountConfig_configured hs resourceName
  refine ⟨buildAccountUrl regionConfig "account1".toList, s', hs', ?_⟩
  unfold findUrl
  rw [hfetch]
  rfl

theorem serves :
    Serves (resolver (fun _ => .ok configuredAccount) regionConfig) configuredWorld
      fun s => CachesConfigured s.more :=
  AlwaysFinds.serves nofun (alwaysFinds _ _) (alwaysFinds _ _) rfl rfl

end StorageDatabaseResolver

/-- For every sequence of requests to either resolver: whatever the world outside does, every store
that `ResolveStore` returns has the account and the container that `ResolveAccountInfo` reports for
the same names, exactly when no two requests for stores with different names have the same key. -/
theorem resolveStore_binds_iff (requests : List ResolverRequest) :
    (∀ config,
      (∀ calls, calls.map Prod.snd = requests →
        BindsStores ((InMemoryAccountResolver.resolver config).events calls)) ↔
      SeparateKeys requests) ∧
    ((∀ parseAccountConfigJson config calls, calls.map Prod.snd = requests →
        BindsStores
          ((StorageDatabaseResolver.resolver parseAccountConfigJson config).events calls)) ↔
      SeparateKeys requests) := by
  have hrequests : ∀ {ε : Type} (outside : ε),
      (requests.map (Prod.mk outside)).map Prod.snd = requests := by
    intro ε outside
    simp [Function.comp_def]
  constructor
  · intro config
    have hR := InMemoryAccountResolver.resolves config
    constructor
    · intro h
      exact (InMemoryAccountResolver.serves config).separateKeys hR (h _ (hrequests _))
    · rintro hkeys calls rfl
      exact hR.bindsStores hkeys
  · constructor
    · intro h
      have hR := StorageDatabaseResolver.resolves
        (fun _ => .ok StorageDatabaseResolver.configuredAccount)
        StorageDatabaseResolver.regionConfig
      exact StorageDatabaseResolver.serves.separateKeys hR (h _ _ _ (hrequests _))
    · rintro hkeys parseAccountConfigJson config calls rfl
      exact (StorageDatabaseResolver.resolves parseAccountConfigJson config).bindsStores hkeys

/-- A resource `a|b` with a container `c` and a resource `a` with a container `b|c`: the second
request is served from the store of the first one, with another account and another container than
`ResolveAccountInfo` reports. -/
def sharedKeyRequests : List ResolverRequest :=
  [.resolveStore "a|b".toList "c".toList, .resolveStore "a".toList "b|c".toList,
    .resolveAccountInfo "a".toList "b|c".toList]

theorem resolveStore_shares :
    (InMemoryAccountResolver.resolver {}).events
        (sharedKeyRequests.map (Prod.mk fun _ _ => true)) =
      [.resolveStore "a|b".toList "c".toList
          (some ⟨"https://a|b.blob.core.windows.net".toList, "c".toList⟩),
        .resolveStore "a".toList "b|c".toList
          (some ⟨"https://a|b.blob.core.windows.net".toList, "c".toList⟩),
        .resolveAccountInfo "a".toList "b|c".toList
          { accountUrl := "https://a.blob.core.windows.net".toList
            containerName := "b|c".toList
            success := true }] ∧
    ¬ BindsStores ((InMemoryAccountResolver.resolver {}).events
        (sharedKeyRequests.map (Prod.mk fun _ _ => true))) ∧
    ¬ BindsStores
      ((StorageDatabaseResolver.resolver (fun _ => .ok StorageDatabaseResolver.configuredAccount)
          StorageDatabaseResolver.regionConfig).events
        (sharedKeyRequests.map (Prod.mk StorageDatabaseResolver.configuredWorld))) := by
  refine ⟨rfl, ?_, ?_⟩
  · intro h
    have hcontainer := (h "a".toList "b|c".toList
      ⟨"https://a|b.blob.core.windows.net".toList, "c".toList⟩ (by decide)).1
    revert hcontainer
    decide
  · intro h
    have hcontainer := (h "a".toList "b|c".toList
      ⟨"https://account1.blob.core.windows.net".toList, "c".toList⟩ (by decide)).1
    revert hcontainer
    decide

end KVStore
