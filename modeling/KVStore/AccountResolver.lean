import KVStore.Types
import Mathlib.Logic.Function.Basic

/-!
# Account resolvers (`IAccountResolver`)

A resolver binds a resource name to an account URL, and keeps the stores that it has initialised
under the key `resource|container`. The resolver in memory builds the URL from the name; the one
with a storage database fetches a configuration for the name once and takes the account of the
current region from it. Both share their code but for where the URL comes from: `FindsUrl` is what
the rest relies on, and `Resolves` is what the two functions of a resolver then do.
-/

namespace KVStore

universe u v

structure AccountInfo where
  accountUrl : Text := []
  containerName : Text := []
  success : Bool := false
  error : Text := []
deriving DecidableEq

/-- An `AzureStorageKVStoreLibV2` after `Initialize`. -/
structure StoreInstance where
  azureAccountUrl_ : Text
  azureContainerName_ : Text
deriving DecidableEq

/-- The members of both resolvers, and those that one of them adds. -/
structure ResolverState (δ : Type u) where
  stores_ : Text → Option StoreInstance := fun _ => none
  lastError_ : Text := []
  more : δ

/-- `ε` is what the world outside the resolver does during a call. -/
structure IAccountResolver (ε : Type v) (δ : Type u) where
  initial : ResolverState δ
  resolveStore : ε → ResolverState δ → Text → Text → Option StoreInstance × ResolverState δ
  resolveAccountInfo : ε → ResolverState δ → Text → Text → AccountInfo × ResolverState δ

/-! ## What both resolvers share -/

section

variable {δ : Type u} (findUrl : ResolverState δ → Text → Except Text Text × ResolverState δ)
  (initializes : Text → Text → Bool)

/-- `GetStoreKey` of either resolver. -/
def getStoreKey (resourceName containerName : Text) : Text :=
  resourceName ++ "|".toList ++ containerName

def createStore (s : ResolverState δ) (accountUrl containerName : Text) :
    Option StoreInstance × ResolverState δ :=
  if initializes accountUrl containerName then
    (some { azureAccountUrl_ := accountUrl, azureContainerName_ := containerName }, s)
  else
    (none, { s with
      lastError_ := "Failed to initialize KV Store for account: ".toList ++ accountUrl ++
        ", container: ".toList ++ containerName })

/-- `ResolveStore` under the write lock: the second look into the cache, and the new store. -/
def resolveStoreLocked (s : ResolverState δ) (resourceName containerName : Text) :
    Option StoreInstance × ResolverState δ :=
  match s.stores_ (getStoreKey resourceName containerName) with
  | some store => (some store, s)
  | none =>
    match findUrl s resourceName with
    | (.error error, s) => (none, { s with lastError_ := error })
    | (.ok accountUrl, s) =>
      match createStore initializes s accountUrl containerName with
      | (none, s) => (none, s)
      | (some store, s) =>
        (some store, { s with
          stores_ :=
            Function.update s.stores_ (getStoreKey resourceName containerName) (some store) })

def resolveStore (s : ResolverState δ) (resourceName containerName : Text) :
    Option StoreInstance × ResolverState δ :=
  if resourceName = [] ∨ containerName = [] then
    (none, { s with lastError_ := "Resource name and container name are required".toList })
  else
    match s.stores_ (getStoreKey resourceName containerName) with
    | some store => (some store, s)
    | none => resolveStoreLocked findUrl initializes s resourceName containerName

def resolveAccountInfo (s : ResolverState δ) (resourceName containerName : Text) :
    AccountInfo × ResolverState δ :=
  if resourceName = [] then
    ({ error := "Resource name cannot be empty".toList },
      { s with lastError_ := "Resource name cannot be empty".toList })
  else if containerName = [] then
    ({ error := "Container name cannot be empty".toList },
      { s with lastError_ := "Container name cannot be empty".toList })
  else
    match findUrl s resourceName with
    | (.error error, s) => ({ error }, { s with lastError_ := error })
    | (.ok accountUrl, s) => ({ accountUrl, containerName, success := true }, s)

end

/-! ## The resolver in memory -/

structure AccountResolverConfig where
  blobDnsSuffix : Text := ".blob.core.windows.net".toList
  urlScheme : Text := "https".toList

namespace InMemoryAccountResolver

variable (config : AccountResolverConfig)

def buildAccountUrl (resourceName : Text) : Text :=
  config.urlScheme ++ "://".toList ++ resourceName ++ config.blobDnsSuffix

def findUrl (s : ResolverState Unit) (resourceName : Text) :
    Except Text Text × ResolverState Unit :=
  (.ok (buildAccountUrl config resourceName), s)

/-- The world outside decides whether `Initialize` of a store succeeds. -/
def resolver : IAccountResolver (Text → Text → Bool) Unit where
  initial := { more := () }
  resolveStore initializes := resolveStore (findUrl config) initializes
  resolveAccountInfo _ := resolveAccountInfo (findUrl config)

end InMemoryAccountResolver

/-! ## The resolver with a storage database -/

structure ServiceConfig where
  currentLocation : Text
  configurationStore : Text
  configurationContainer : Text
  domainSuffix : Text := ".blob.core.windows.net".toList

namespace ServiceConfig

def isValid (config : ServiceConfig) : Bool :=
  config.currentLocation ≠ [] ∧ config.configurationStore ≠ [] ∧
    config.configurationContainer ≠ [] ∧ config.domainSuffix ≠ []

def getValidationError (config : ServiceConfig) : Text :=
  if config.currentLocation = [] then "currentLocation is required".toList
  else if config.configurationStore = [] then "configurationStore is required".toList
  else if config.configurationContainer = [] then "configurationContainer is required".toList
  else if config.domainSuffix = [] then "domainSuffix is required".toList
  else []

end ServiceConfig

structure StorageDatabaseResolverConfig where
  serviceConfig : ServiceConfig
  urlScheme : Text := "https".toList

structure PromptAccountConfig where
  promptAccountId : Text := []
  promptAccountName : Text := []
  location : Text := []
  kind : Text := []
  regionStorageMap : List (Text × List Text) := []
  success : Bool := false
  error : Text := []

/-- The members of the config store client and of its cache. -/
structure ConfigStore where
  configStoreInitialized_ : Bool := false
  accountConfigCache_ : Text → Option PromptAccountConfig := fun _ => none

/-- What a download of an account configuration throws. -/
inductive FetchException
  | requestFailed (what : Text) (statusCode : Nat)
  | other (what : Text)

/-- What the world outside the resolver does during a call: the exception of the construction of the
config store client, if it throws one, the blobs of the config store, and whether `Initialize` of a
store succeeds. -/
structure Outside where
  connect : Option Text
  download : Text → Except FetchException Text
  initializes : Text → Text → Bool

namespace StorageDatabaseResolver

variable (parseAccountConfigJson : Text → Except Text PromptAccountConfig)
  (config : StorageDatabaseResolverConfig) (outside : Outside)

def initializeConfigStoreClient (s : ResolverState ConfigStore) :
    Bool × ResolverState ConfigStore :=
  if s.more.configStoreInitialized_ then (true, s)
  else if config.serviceConfig.isValid = false then
    (false, { s with
      lastError_ := "Invalid service configuration: ".toList ++
        config.serviceConfig.getValidationError })
  else
    match outside.connect with
    | some what =>
      (false, { s with
        lastError_ := "Failed to initialize config store client: ".toList ++ what })
    | none => (true, { s with more := { s.more with configStoreInitialized_ := true } })

def fetchError (resourceName : Text) : FetchException → Text
  | .requestFailed what statusCode =>
    "Failed to fetch account config for '".toList ++ resourceName ++ "': ".toList ++ what ++
      " (Status: ".toList ++ Nat.toDigits 10 statusCode ++ ")".toList
  | .other what =>
    "Failed to fetch account config for '".toList ++ resourceName ++ "': ".toList ++ what

/-- A configuration that was parsed successfully is cached. -/
def fetchAccountConfig (s : ResolverState ConfigStore) (resourceName : Text) :
    PromptAccountConfig × ResolverState ConfigStore :=
  match s.more.accountConfigCache_ resourceName with
  | some cached => (cached, s)
  | none =>
    match initializeConfigStoreClient config outside s with
    | (false, s) => ({ error := "Config store not initialized: ".toList ++ s.lastError_ }, s)
    | (true, s) =>
      match outside.download (resourceName ++ ".json".toList) with
      | .error e => ({ error := fetchError resourceName e }, s)
      | .ok jsonContent =>
        match parseAccountConfigJson jsonContent with
        | .error what => ({ error := fetchError resourceName (.other what) }, s)
        | .ok result =>
          (result,
            if result.success then
              { s with more := { s.more with
                accountConfigCache_ :=
                  Function.update s.more.accountConfigCache_ resourceName (some result) } }
            else s)

def getStorageAccountForCurrentRegion (accountConfig : PromptAccountConfig) : Text :=
  match accountConfig.regionStorageMap.lookup config.serviceConfig.currentLocation with
  | none => []
  | some accounts => accounts.headD []

def buildAccountUrl (storageAccountName : Text) : Text :=
  config.urlScheme ++ "://".toList ++ storageAccountName ++ config.serviceConfig.domainSuffix

/-- The URL of the account for a resource name. The two functions that look for it report its errors
in different words. -/
def findUrl (fetchFailed : Text → Text) (noAccount : Text) (s : ResolverState ConfigStore)
    (resourceName : Text) : Except Text Text × ResolverState ConfigStore :=
  match fetchAccountConfig parseAccountConfigJson config outside s resourceName with
  | (accountConfig, s) =>
    if accountConfig.success = false then (.error (fetchFailed accountConfig.error), s)
    else
      let storageAccount := getStorageAccountForCurrentRegion config accountConfig
      if storageAccount = [] then (.error (noAccount ++ config.serviceConfig.currentLocation), s)
      else (.ok (buildAccountUrl config storageAccount), s)

def resolver : IAccountResolver Outside ConfigStore where
  initial := { more := {} }
  resolveStore outside :=
    resolveStore
      (findUrl parseAccountConfigJson config outside
        (fun error => "Failed to fetch account config: ".toList ++ error)
        "No storage account found for region: ".toList)
      outside.initializes
  resolveAccountInfo outside :=
    resolveAccountInfo
      (findUrl parseAccountConfigJson config outside id
        "No storage account found for current region: ".toList)

end StorageDatabaseResolver

/-! ## What the two functions do -/

section

variable {ε : Type v} {δ : Type u} (bound : δ → Text → Option Text)

/-- Names that are bound to a URL stay bound to it. -/
def Keeps (s s' : ResolverState δ) : Prop :=
  ∀ resourceName url, bound s.more resourceName = some url →
    bound s'.more resourceName = some url

/-- A function that looks for the URL of a name binds the name to what it finds. -/
structure FindsUrl
    (findUrl : ResolverState δ → Text → Except Text Text × ResolverState δ) : Prop where
  stores : ∀ s resourceName, (findUrl s resourceName).2.stores_ = s.stores_
  keeps : ∀ s resourceName, Keeps bound s (findUrl s resourceName).2
  found : ∀ {s resourceName url}, (findUrl s resourceName).1 = .ok url →
    bound (findUrl s resourceName).2.more resourceName = some url

/-- What `ResolveStore` can do. -/
inductive StoreResolved (s : ResolverState δ) (resourceName containerName : Text) :
    Option StoreInstance × ResolverState δ → Prop
  | refused {s' : ResolverState δ} (stores : s'.stores_ = s.stores_) (keeps : Keeps bound s s') :
      StoreResolved s resourceName containerName (none, s')
  | cached {store : StoreInstance} (hr : resourceName ≠ []) (hc : containerName ≠ [])
      (hkey : s.stores_ (getStoreKey resourceName containerName) = some store) :
      StoreResolved s resourceName containerName (some store, s)
  | created {s' : ResolverState δ} {accountUrl : Text} (hr : resourceName ≠ [])
      (hc : containerName ≠ [])
      (hkey : s.stores_ (getStoreKey resourceName containerName) = none)
      (stores : s'.stores_ = Function.update s.stores_ (getStoreKey resourceName containerName)
        (some ⟨accountUrl, containerName⟩))
      (keeps : Keeps bound s s') (hurl : bound s'.more resourceName = some accountUrl) :
      StoreResolved s resourceName containerName (some ⟨accountUrl, containerName⟩, s')

/-- What `ResolveAccountInfo` does. -/
structure InfoResolved (s : ResolverState δ) (resourceName containerName : Text)
    (r : AccountInfo × ResolverState δ) : Prop where
  stores : r.2.stores_ = s.stores_
  keeps : Keeps bound s r.2
  container : r.1.success = true → r.1.containerName = containerName
  url : r.1.success = true → bound r.2.more resourceName = some r.1.accountUrl

structure Resolves (R : IAccountResolver ε δ) : Prop where
  initial : ∀ key, R.initial.stores_ key = none
  store : ∀ outside s resourceName containerName,
    StoreResolved bound s resourceName containerName
      (R.resolveStore outside s resourceName containerName)
  info : ∀ outside s resourceName containerName,
    InfoResolved bound s resourceName containerName
      (R.resolveAccountInfo outside s resourceName containerName)

variable {bound} {findUrl : ResolverState δ → Text → Except Text Text × ResolverState δ}
  (hfind : FindsUrl bound findUrl) (s : ResolverState δ) (resourceName containerName : Text)

include hfind

theorem resolveStoreLocked_resolved (initializes : Text → Text → Bool) (hr : resourceName ≠ [])
    (hc : containerName ≠ []) :
    StoreResolved bound s resourceName containerName
      (resolveStoreLocked findUrl initializes s resourceName containerName) := by
  have hstores := hfind.stores s resourceName
  have hkeeps := hfind.keeps s resourceName
  unfold resolveStoreLocked
  split
  · next store hkey => exact .cached hr hc hkey
  · next hkey =>
    split
    · next error s' hu =>
      rw [hu] at hstores hkeeps
      exact .refused hstores hkeeps
    · next accountUrl s' hu =>
      have hurl := hfind.found (congrArg Prod.fst hu)
      rw [hu] at hstores hkeeps hurl
      unfold createStore
      by_cases hi : initializes accountUrl containerName = true
      · rw [if_pos hi]
        refine .created hr hc hkey ?_ hkeeps hurl
        rw [hstores]
      · rw [if_neg hi]
        exact .refused hstores hkeeps

theorem resolveStore_resolved (initializes : Text → Text → Bool) :
    StoreResolved bound s resourceName containerName
      (resolveStore findUrl initializes s resourceName containerName) := by
  unfold resolveStore
  by_cases hempty : resourceName = [] ∨ containerName = []
  · rw [if_pos hempty]
    exact .refused rfl fun _ _ => id
  · rw [if_neg hempty]
    obtain ⟨hr, hc⟩ := not_or.mp hempty
    split
    · next store hkey => exact .cached hr hc hkey
    · exact resolveStoreLocked_resolved hfind s resourceName containerName initializes hr hc

theorem resolveAccountInfo_resolved :
    InfoResolved bound s resourceName containerName
      (resolveAccountInfo findUrl s resourceName containerName) := by
  have hstores := hfind.stores s resourceName
  have hkeeps := hfind.keeps s resourceName
  unfold resolveAccountInfo
  split
  · exact ⟨rfl, fun _ _ => id, nofun, nofun⟩
  · split
    · exact ⟨rfl, fun _ _ => id, nofun, nofun⟩
    · split
      · next error s' hu =>
        rw [hu] at hstores hkeeps
        exact ⟨hstores, hkeeps, nofun, nofun⟩
      · next accountUrl s' hu =>
        have hurl := hfind.found (congrArg Prod.fst hu)
        rw [hu] at hstores hkeeps hurl
        exact ⟨hstores, hkeeps, fun _ => rfl, fun _ => hurl⟩

end

namespace InMemoryAccountResolver

variable (config : AccountResolverConfig)

theorem findsUrl :
    FindsUrl (fun _ name => some (buildAccountUrl config name)) (findUrl config) where
  stores _ _ := rfl
  keeps _ _ _ _ := id
  found h := congrArg some (Except.ok.inj h)

theorem resolves :
    Resolves (fun _ name => some (buildAccountUrl config name)) (resolver config) where
  initial _ := rfl
  store outside s r c := resolveStore_resolved (findsUrl config) s r c outside
  info _ s r c := resolveAccountInfo_resolved (findsUrl config) s r c

end InMemoryAccountResolver

namespace StorageDatabaseResolver

variable (parseAccountConfigJson : Text → Except Text PromptAccountConfig)
  (config : StorageDatabaseResolverConfig) (outside : Outside)

/-- The URL that a cached configuration gives. -/
def boundUrl (more : ConfigStore) (resourceName : Text) : Option Text :=
  (more.accountConfigCache_ resourceName).map fun accountConfig =>
    buildAccountUrl config (getStorageAccountForCurrentRegion config accountConfig)

/-- The client of the config store leaves both caches alone. -/
theorem initializeConfigStoreClient_caches (s : ResolverState ConfigStore) :
    (initializeConfigStoreClient config outside s).2.stores_ = s.stores_ ∧
      (initializeConfigStoreClient config outside s).2.more.accountConfigCache_ =
        s.more.accountConfigCache_ := by
  unfold initializeConfigStoreClient
  repeat' split
  all_goals exact ⟨rfl, rfl⟩

/-- The result `r` of a fetch: cached configurations stay, and a successful one is cached. -/
structure Fetched (s : ResolverState ConfigStore) (resourceName : Text)
    (r : PromptAccountConfig × ResolverState ConfigStore) : Prop where
  stores : r.2.stores_ = s.stores_
  keeps : ∀ name accountConfig, s.more.accountConfigCache_ name = some accountConfig →
    r.2.more.accountConfigCache_ name = some accountConfig
  cached : r.1.success = true → r.2.more.accountConfigCache_ resourceName = some r.1

theorem fetchAccountConfig_fetched (s : ResolverState ConfigStore) (resourceName : Text) :
    Fetched s resourceName
      (fetchAccountConfig parseAccountConfigJson config outside s resourceName) := by
  obtain ⟨hstores, hcache⟩ := initializeConfigStoreClient_caches config outside s
  unfold fetchAccountConfig
  split
  · next cached hcached => exact ⟨rfl, fun _ _ => id, fun _ => hcached⟩
  · next hnone =>
    split
    · next s' hi =>
      rw [hi] at hstores hcache
      exact ⟨hstores, fun name _ h => (congrFun hcache name).trans h, nofun⟩
    · next s' hi =>
      rw [hi] at hstores hcache
      have hkeeps : ∀ name accountConfig, s.more.accountConfigCache_ name = some accountConfig →
          s'.more.accountConfigCache_ name = some accountConfig :=
        fun name _ h => (congrFun hcache name).trans h
      split
      · exact ⟨hstores, hkeeps, nofun⟩
      · split
        · exact ⟨hstores, hkeeps, nofun⟩
        · next result hparse =>
          by_cases hok : result.success = true
          · rw [if_pos hok]
            refine ⟨hstores, ?_, fun _ => Function.update_self ..⟩
            intro name accountConfig h
            have hne : name ≠ resourceName := by
              rintro rfl
              cases hnone.symm.trans h
            exact (Function.update_of_ne hne ..).trans (hkeeps name accountConfig h)
          · rw [if_neg hok]
            exact ⟨hstores, hkeeps, fun h => absurd h hok⟩

theorem findsUrl (fetchFailed : Text → Text) (noAccount : Text) :
    FindsUrl (boundUrl config)
      (findUrl parseAccountConfigJson config outside fetchFailed noAccount) where
  stores s resourceName := by
    have h := fetchAccountConfig_fetched parseAccountConfigJson config outside s resourceName
    unfold findUrl
    simp only
    split
    · exact h.stores
    · split <;> exact h.stores
  keeps s resourceName := by
    have h := fetchAccountConfig_fetched parseAccountConfigJson config outside s resourceName
    have hkeeps : Keeps (boundUrl config) s
        (fetchAccountConfig parseAccountConfigJson config outside s resourceName).2 := by
      intro name url hurl
      obtain ⟨accountConfig, hcached, rfl⟩ := Option.map_eq_some_iff.mp hurl
      exact Option.map_eq_some_iff.mpr ⟨accountConfig, h.keeps name accountConfig hcached, rfl⟩
    unfold findUrl
    simp only
    split
    · exact hkeeps
    · split <;> exact hkeeps
  found {s resourceName url} hurl := by
    have h := fetchAccountConfig_fetched parseAccountConfigJson config outside s resourceName
    unfold findUrl at hurl ⊢
    simp only at hurl ⊢
    split at hurl
    · cases hurl
    · next hok =>
      split at hurl
      · cases hurl
      · next hacc =>
        obtain rfl := Except.ok.inj hurl
        rw [if_neg hok, if_neg hacc]
        have hcached := h.cached (Bool.not_eq_false _ ▸ hok)
        exact Option.map_eq_some_iff.mpr ⟨_, hcached, rfl⟩

theorem resolves : Resolves (boundUrl config) (resolver parseAccountConfigJson config) where
  initial _ := rfl
  store outside s r c :=
    resolveStore_resolved (findsUrl parseAccountConfigJson config outside _ _) s r c
      outside.initializes
  info outside s r c :=
    resolveAccountInfo_resolved (findsUrl parseAccountConfigJson config outside _ _) s r c

end StorageDatabaseResolver

end KVStore
