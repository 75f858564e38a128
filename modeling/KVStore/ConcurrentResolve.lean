import KVStore.AccountResolver
import KVStore.Lib.Memo
import Mathlib.Data.List.Nodup

/-!
# Concurrent calls of `ResolveStore`

A call looks into the cache under the shared lock; when its key is missing it comes back under the
exclusive lock, looks again, and then fetches, creates and inserts. Calls interleave between the two
locks. Stores are known by the place of their creation, since `ResolveStore` returns a pointer;
`resolveStoreExclusive_erase` says that the step under the lock is the one of `AccountResolver`.
`resolveStore_once`: one store is created for a key at most, and every call with this key that does
not fail returns it.
-/

namespace KVStore

open Transition

universe u v w

/-! ## The resolver, with pointers -/

/-- Where a resolver gets the URL of a resource name from, and whether `Initialize` of a store
succeeds; `ε` is the world outside during a call. -/
structure StoreSource (ε : Type v) (δ : Type u) where
  findUrl : ε → ResolverState δ → Text → Except Text Text × ResolverState δ
  initializes : ε → Text → Text → Bool

def InMemoryAccountResolver.source (config : AccountResolverConfig) :
    StoreSource (Text → Text → Bool) Unit where
  findUrl _ := findUrl config
  initializes initializes := initializes

def StorageDatabaseResolver.source (parseAccountConfigJson : Text → Except Text PromptAccountConfig)
    (config : StorageDatabaseResolverConfig) : StoreSource Outside ConfigStore where
  findUrl outside :=
    findUrl parseAccountConfigJson config outside
      (fun error => "Failed to fetch account config: ".toList ++ error)
      "No storage account found for region: ".toList
  initializes outside := outside.initializes

/-- The members of a resolver. A pointer is a position in `instances`, the stores that have been
created, each with the key that it was created for. -/
structure SharedResolver (δ : Type u) where
  stores_ : Text → Option Nat := fun _ => none
  instances : List (Text × StoreInstance) := []
  lastError_ : Text := []
  more : δ

variable {ε : Type v} {δ : Type u}

/-- The resolver with stores in place of the pointers to them. -/
def SharedResolver.erase (s : SharedResolver δ) : ResolverState δ where
  stores_ key := (s.stores_ key).bind fun p => s.instances[p]?.map Prod.snd
  lastError_ := s.lastError_
  more := s.more

/-- `ResolveStore` under the write lock. -/
def resolveStoreExclusive (source : StoreSource ε δ) (outside : ε) (s : SharedResolver δ)
    (resourceName containerName : Text) : Option Nat × SharedResolver δ :=
  match s.stores_ (getStoreKey resourceName containerName) with
  | some store => (some store, s)
  | none =>
    match source.findUrl outside s.erase resourceName with
    | (.error error, s') => (none, { s with lastError_ := error, more := s'.more })
    | (.ok accountUrl, s') =>
      match createStore (source.initializes outside) s' accountUrl containerName with
      | (none, s') => (none, { s with lastError_ := s'.lastError_, more := s'.more })
      | (some store, s') =>
        (some s.instances.length, {
          stores_ := Function.update s.stores_ (getStoreKey resourceName containerName)
            (some s.instances.length)
          instances := s.instances ++ [(getStoreKey resourceName containerName, store)]
          lastError_ := s'.lastError_
          more := s'.more })

/-- A step under the exclusive lock finds the key, creates the store, or leaves the cache alone. -/
theorem resolveStoreExclusive_cases (source : StoreSource ε δ) (outside : ε) (s : SharedResolver δ)
    (resourceName containerName : Text) :
    (∃ p, s.stores_ (getStoreKey resourceName containerName) = some p ∧
      resolveStoreExclusive source outside s resourceName containerName = (some p, s)) ∨
    (s.stores_ (getStoreKey resourceName containerName) = none ∧
      ∃ lastError_ more, resolveStoreExclusive source outside s resourceName containerName =
        (none, { s with lastError_, more })) ∨
    s.stores_ (getStoreKey resourceName containerName) = none ∧
      ∃ store lastError_ more, resolveStoreExclusive source outside s resourceName containerName =
        (some s.instances.length, {
          stores_ := Function.update s.stores_ (getStoreKey resourceName containerName)
            (some s.instances.length)
          instances := s.instances ++ [(getStoreKey resourceName containerName, store)]
          lastError_
          more }) := by
  unfold resolveStoreExclusive
  cases hkey : s.stores_ (getStoreKey resourceName containerName) with
  | some p => exact Or.inl ⟨p, rfl, rfl⟩
  | none =>
    right
    dsimp only
    split
    · exact Or.inl ⟨rfl, _, _, rfl⟩
    · split
      · exact Or.inl ⟨rfl, _, _, rfl⟩
      · exact Or.inr ⟨rfl, _, _, _, rfl⟩

/-- The step under the exclusive lock is the one of the resolver without pointers. -/
theorem resolveStoreExclusive_erase {source : StoreSource ε δ} {outside : ε} {s : SharedResolver δ}
    (hstores : ∀ s name, (source.findUrl outside s name).2.stores_ = s.stores_)
    (hvalid : ∀ {p key}, s.stores_ key = some p → p < s.instances.length)
    (resourceName containerName : Text) :
    resolveStoreLocked (source.findUrl outside) (source.initializes outside) s.erase resourceName
        containerName =
      ((resolveStoreExclusive source outside s resourceName containerName).1.bind fun p =>
          (resolveStoreExclusive source outside s resourceName
            containerName).2.instances[p]?.map Prod.snd,
        (resolveStoreExclusive source outside s resourceName containerName).2.erase) := by
  have hfound := hstores s.erase resourceName
  unfold resolveStoreLocked resolveStoreExclusive
  cases hkey : s.stores_ (getStoreKey resourceName containerName) with
  | some p =>
    have hlt := hvalid hkey
    have herase : s.erase.stores_ (getStoreKey resourceName containerName) =
        some s.instances[p].2 := by
      simp [SharedResolver.erase, hkey, hlt]
    rw [herase]
    simp [hlt]
  | none =>
    have herase : s.erase.stores_ (getStoreKey resourceName containerName) = none := by
      simp [SharedResolver.erase, hkey]
    rw [herase]
    dsimp only
    rcases hu : source.findUrl outside s.erase resourceName with ⟨error | accountUrl, s'⟩
    · rw [hu] at hfound
      obtain ⟨stores_, lastError_, more⟩ := s'
      subst hfound
      rfl
    · rw [hu] at hfound
      obtain ⟨stores_, lastError_, more⟩ := s'
      subst hfound
      dsimp only
      unfold createStore
      by_cases hi : source.initializes outside accountUrl containerName = true
      · rw [if_pos hi]
        simp only [Option.bind_some, List.getElem?_concat_length, Option.map_some]
        congr 2
        funext key
        by_cases hk : key = getStoreKey resourceName containerName
        · subst hk
          simp
        · simp only [Function.update_of_ne hk, SharedResolver.erase]
          cases hp : s.stores_ key with
          | none => rfl
          | some p =>
            simp [List.getElem?_append_left (hvalid hp)]
      · rw [if_neg hi]
        rfl

/-- Neither resolver touches the cache while it looks for a URL. -/
theorem InMemoryAccountResolver.source_stores (config : AccountResolverConfig)
    (outside : Text → Text → Bool) (s : ResolverState Unit) (name : Text) :
    ((source config).findUrl outside s name).2.stores_ = s.stores_ := rfl

theorem StorageDatabaseResolver.source_stores
    (parseAccountConfigJson : Text → Except Text PromptAccountConfig)
    (config : StorageDatabaseResolverConfig) (outside : Outside) (s : ResolverState ConfigStore)
    (name : Text) :
    ((source parseAccountConfigJson config).findUrl outside s name).2.stores_ = s.stores_ :=
  (findsUrl parseAccountConfigJson config outside _ _).stores s name

/-! ## Calls -/

/-- The arguments of a call, and the world outside while it runs. -/
structure ResolveCall (ε : Type v) where
  resourceName : Text
  containerName : Text
  outside : ε

def ResolveCall.key (call : ResolveCall ε) : Text :=
  getStoreKey call.resourceName call.containerName

/-- Where a call stands: at its start, between the two locks, or at its end. -/
inductive ResolvePoint
  | called
  | missed
  | returned (store : Option Nat)
deriving DecidableEq

variable {ι : Type w}

/-- A resolver and the calls on it. -/
structure Resolving (ι : Type w) (δ : Type u) where
  shared : SharedResolver δ
  point : ι → ResolvePoint

def Resolving.initial (more : δ) : Resolving ι δ where
  shared := { more }
  point _ := .called

section

variable [DecidableEq ι] (source : StoreSource ε δ) (calls : ι → ResolveCall ε)

/-- The call goes on to a point, with the resolver as it leaves it. -/
def Resolving.goto (s : Resolving ι δ) (i : ι) (shared : SharedResolver δ) (point : ResolvePoint) :
    Resolving ι δ where
  shared := shared
  point := Function.update s.point i point

/-- What a step is: a call goes on, and may return. -/
structure ResolveEvent (ι : Type w) where
  caller : Option ι
  answer : Option (Option Nat) := none
deriving DecidableEq

/-- One critical section of a call. `elsewhere` is what other functions of the resolver do between
two of them. -/
inductive ResolveStep : Resolving ι δ → ResolveEvent ι → Resolving ι δ → Prop
  | refuse {s : Resolving ι δ} {i : ι} (hi : s.point i = .called)
      (h : (calls i).resourceName = [] ∨ (calls i).containerName = []) :
      ResolveStep s { caller := some i, answer := some none }
        (s.goto i { s.shared with
          lastError_ := "Resource name and container name are required".toList } (.returned none))
  | hit {s : Resolving ι δ} {i : ι} {p : Nat} (hi : s.point i = .called)
      (hr : (calls i).resourceName ≠ []) (hc : (calls i).containerName ≠ [])
      (h : s.shared.stores_ (calls i).key = some p) :
      ResolveStep s { caller := some i, answer := some (some p) }
        (s.goto i s.shared (.returned (some p)))
  | miss {s : Resolving ι δ} {i : ι} (hi : s.point i = .called)
      (hr : (calls i).resourceName ≠ []) (hc : (calls i).containerName ≠ [])
      (h : s.shared.stores_ (calls i).key = none) :
      ResolveStep s { caller := some i } (s.goto i s.shared .missed)
  | exclusive {s : Resolving ι δ} {i : ι} {r : Option Nat × SharedResolver δ}
      (hi : s.point i = .missed)
      (h : r = resolveStoreExclusive source (calls i).outside s.shared (calls i).resourceName
        (calls i).containerName) :
      ResolveStep s { caller := some i, answer := some r.1 } (s.goto i r.2 (.returned r.1))
  | elsewhere {s : Resolving ι δ} (lastError_ : Text) (more : δ) :
      ResolveStep s { caller := none } { s with shared := { s.shared with lastError_, more } }

/-- The runs of the calls on a new resolver. -/
abbrev ResolveRuns (more : δ) : List (Resolving ι δ × ResolveEvent ι) → Resolving ι δ → Prop :=
  Run (ResolveStep source calls) (Resolving.initial more)

/-! ## The cache is a memo table -/

variable {source calls} {s s' : Resolving ι δ} {e : ResolveEvent ι} {more : δ}
  {tr : List (Resolving ι δ × ResolveEvent ι)}

/-- A store that a call returns, as the answer to a request. -/
def ResolveEvent.request (e : ResolveEvent ι) : Option (ι × Nat) :=
  e.caller.bind fun i => e.answer.bind fun store => store.map fun p => (i, p)

theorem ResolveStep.memo (hs : ResolveStep source calls s e s') :
    Memo.Step (fun i => (calls i).key) s.shared.stores_ e.request s'.shared.stores_ := by
  cases hs with
  | refuse | miss | elsewhere => exact .idle
  | hit hi hr hc h => exact .hit h
  | @exclusive i r hi h =>
    subst h
    rcases resolveStoreExclusive_cases source (calls i).outside s.shared (calls i).resourceName
      (calls i).containerName with ⟨p, hkey, he⟩ | ⟨hkey, _, _, he⟩ | ⟨hkey, _, _, _, he⟩
    · rw [he]
      exact .hit hkey
    · rw [he]
      exact .idle
    · rw [he]
      exact .create hkey

/-- A call that returns no store leaves the cache as it is. -/
theorem ResolveStep.failed (hs : ResolveStep source calls s e s') (he : e.answer = some none) :
    s'.shared.stores_ = s.shared.stores_ ∧ s'.shared.instances = s.shared.instances := by
  cases hs with
  | refuse => exact ⟨rfl, rfl⟩
  | hit => cases he
  | miss => cases he
  | elsewhere => exact ⟨rfl, rfl⟩
  | @exclusive i r hi h =>
    subst h
    rcases resolveStoreExclusive_cases source (calls i).outside s.shared (calls i).resourceName
      (calls i).containerName with ⟨p, hkey, h⟩ | ⟨hkey, _, _, h⟩ | ⟨hkey, _, _, _, h⟩
    · rw [h] at he
      cases he
    · rw [h]
      exact ⟨rfl, rfl⟩
    · rw [h] at he
      cases he

/-- The stores that have been created are in the cache, each one under its key, and the cache holds
nothing else; a call that has returned a store did so in some step. -/
structure Resolving.Sound (calls : ι → ResolveCall ε) (s : Resolving ι δ) : Prop where
  cached : ∀ {p key store}, s.shared.instances[p]? = some (key, store) →
    s.shared.stores_ key = some p
  created : ∀ {p key}, s.shared.stores_ key = some p →
    ∃ store, s.shared.instances[p]? = some (key, store)
  returned : ∀ {i p}, s.point i = .returned (some p) → s.shared.stores_ (calls i).key = some p
  missed : ∀ {i}, s.point i = .missed →
    (calls i).resourceName ≠ [] ∧ (calls i).containerName ≠ []

omit [DecidableEq ι] in
theorem Resolving.Sound.initial :
    Resolving.Sound calls (Resolving.initial more : Resolving ι δ) where
  cached h := by cases h
  created h := by cases h
  returned h := by cases h
  missed h := by cases h

/-- A call goes on while the cache keeps its entries. -/
theorem Resolving.Sound.goto (h : s.Sound calls) {i : ι} {shared : SharedResolver δ}
    {point : ResolvePoint}
    (hcached : ∀ {p key store}, shared.instances[p]? = some (key, store) →
      shared.stores_ key = some p)
    (hcreated : ∀ {p key}, shared.stores_ key = some p →
      ∃ store, shared.instances[p]? = some (key, store))
    (hmono : ∀ {p key}, s.shared.stores_ key = some p → shared.stores_ key = some p)
    (hreturned : ∀ {p}, point = .returned (some p) → shared.stores_ (calls i).key = some p)
    (hmissed : point = .missed → (calls i).resourceName ≠ [] ∧ (calls i).containerName ≠ []) :
    (s.goto i shared point).Sound calls where
  cached := hcached
  created := hcreated
  returned {j p} hj := by
    unfold Resolving.goto at hj
    dsimp only at hj
    by_cases hji : j = i
    · subst hji
      rw [Function.update_self] at hj
      exact hreturned hj
    · rw [Function.update_of_ne hji] at hj
      exact hmono (h.returned hj)
  missed {j} hj := by
    unfold Resolving.goto at hj
    dsimp only at hj
    by_cases hji : j = i
    · subst hji
      rw [Function.update_self] at hj
      exact hmissed hj
    · rw [Function.update_of_ne hji] at hj
      exact h.missed hj

omit [DecidableEq ι] in
/-- A key that has no entry has no store. -/
theorem Resolving.Sound.create (h : s.Sound calls) {key : Text} (store : StoreInstance)
    (hkey : s.shared.stores_ key = none) :
    (∀ {p key' store'}, (s.shared.instances ++ [(key, store)])[p]? = some (key', store') →
      Function.update s.shared.stores_ key (some s.shared.instances.length) key' = some p) ∧
    ∀ {p key'}, Function.update s.shared.stores_ key (some s.shared.instances.length) key' =
        some p → ∃ store', (s.shared.instances ++ [(key, store)])[p]? = some (key', store') := by
  constructor
  · intro p key' store' hp
    rcases Nat.lt_or_ge p s.shared.instances.length with hlt | hge
    · rw [List.getElem?_append_left hlt] at hp
      have hold := h.cached hp
      have hne : key' ≠ key := by
        rintro rfl
        cases hkey.symm.trans hold
      rw [Function.update_of_ne hne]
      exact hold
    · rw [List.getElem?_append_right hge] at hp
      obtain ⟨hlt, hpair⟩ := List.getElem?_eq_some_iff.mp hp
      rw [List.length_singleton] at hlt
      obtain rfl : p = s.shared.instances.length := by omega
      rw [List.getElem_singleton] at hpair
      obtain ⟨rfl, rfl⟩ := Prod.mk.inj hpair
      exact Function.update_self ..
  · intro p key' hp
    by_cases hk : key' = key
    · subst hk
      rw [Function.update_self] at hp
      obtain rfl := Option.some.inj hp
      exact ⟨store, by rw [List.getElem?_append_right (Nat.le_refl _), Nat.sub_self]; rfl⟩
    · rw [Function.update_of_ne hk] at hp
      obtain ⟨store', hstore⟩ := h.created hp
      have hlt := (List.getElem?_eq_some_iff.mp hstore).1
      exact ⟨store', by rwa [List.getElem?_append_left hlt]⟩

theorem Resolving.Sound.step (h : s.Sound calls) (hs : ResolveStep source calls s e s') :
    s'.Sound calls := by
  have hmemo := hs.memo
  cases hs with
  | refuse hi hempty => exact h.goto h.cached h.created id nofun nofun
  | hit hi hr hc hkey =>
    refine h.goto h.cached h.created id ?_ nofun
    intro p hp
    cases hp
    exact hkey
  | miss hi hr hc hkey => exact h.goto h.cached h.created id nofun fun _ => ⟨hr, hc⟩
  | elsewhere lastError_ more => exact ⟨h.cached, h.created, h.returned, h.missed⟩
  | @exclusive i r hi hr =>
    subst hr
    rcases resolveStoreExclusive_cases source (calls i).outside s.shared (calls i).resourceName
      (calls i).containerName with ⟨p, hkey, he⟩ | ⟨hkey, _, _, he⟩ | ⟨hkey, store, _, _, he⟩
    · rw [he]
      refine h.goto h.cached h.created id ?_ nofun
      intro p hp
      cases hp
      exact hkey
    · rw [he]
      exact h.goto h.cached h.created id nofun nofun
    · rw [he] at hmemo ⊢
      obtain ⟨hcached, hcreated⟩ := h.create store hkey
      refine h.goto hcached hcreated (fun hold => hmemo.mono hold) ?_ nofun
      intro p hp
      cases hp
      exact Function.update_self ..

theorem ResolveRuns.sound (h : ResolveRuns source calls more tr s) : s.Sound calls := by
  refine Run.invariant (P := fun _ s => s.Sound calls) .initial ?_ h
  intro tr s e s' _ ih hs
  exact ih.step hs

/-- In every run, the step under the exclusive lock is the one of the resolver without pointers. -/
theorem ResolveRuns.exclusive_erase (h : ResolveRuns source calls more tr s) (i : ι)
    (hstores : ∀ outside s name, (source.findUrl outside s name).2.stores_ = s.stores_) :
    let r := resolveStoreExclusive source (calls i).outside s.shared (calls i).resourceName
      (calls i).containerName
    resolveStoreLocked (source.findUrl (calls i).outside) (source.initializes (calls i).outside)
        s.shared.erase (calls i).resourceName (calls i).containerName =
      (r.1.bind fun p => r.2.instances[p]?.map Prod.snd, r.2.erase) := by
  apply resolveStoreExclusive_erase (hstores (calls i).outside)
  intro p key hkey
  obtain ⟨store, hstore⟩ := h.sound.created hkey
  exact (List.getElem?_eq_some_iff.mp hstore).1

/-! ## One store for a key -/

omit [DecidableEq ι] in
/-- No two stores have been created for one key. -/
theorem Resolving.Sound.nodup (h : s.Sound calls) :
    (s.shared.instances.map Prod.fst).Nodup := by
  rw [List.nodup_iff_injective_getElem]
  intro p q hpq
  obtain ⟨p, hp⟩ := p
  obtain ⟨q, hq⟩ := q
  rw [List.length_map] at hp hq
  have hkeys : s.shared.instances[p].1 = s.shared.instances[q].1 := by
    simpa only [List.getElem_map] using hpq
  have hcached : s.shared.stores_ s.shared.instances[p].1 = some p :=
    h.cached (List.getElem?_eq_getElem hp)
  have hcached' : s.shared.stores_ s.shared.instances[q].1 = some q :=
    h.cached (List.getElem?_eq_getElem hq)
  rw [hkeys] at hcached
  exact Fin.ext (Option.some.inj (hcached.symm.trans hcached'))

/-- Entries that a run has passed are still there. -/
theorem ResolveRuns.kept (h : ResolveRuns source calls more tr s) :
    ∀ t ∈ tr, ∀ key p, t.1.shared.stores_ key = some p → s.shared.stores_ key = some p := by
  induction h with
  | nil => exact fun t ht => absurd ht List.not_mem_nil
  | snoc _ hs ih =>
    intro t ht key p hkey
    rcases List.mem_append.mp ht with ht | ht
    · exact hs.memo.mono (ih t ht key p hkey)
    · obtain rfl := List.mem_singleton.mp ht
      exact hs.memo.mono hkey

/-- A store could be created for the call now: its URL is found, and `Initialize` succeeds. -/
def CanCreate (source : StoreSource ε δ) (call : ResolveCall ε) (s : SharedResolver δ) : Prop :=
  ∃ accountUrl, (source.findUrl call.outside s.erase call.resourceName).1 = .ok accountUrl ∧
    source.initializes call.outside accountUrl call.containerName = true

theorem resolveStoreExclusive_succeeds {call : ResolveCall ε} {shared : SharedResolver δ}
    (h : CanCreate source call shared) :
    ∃ p, (resolveStoreExclusive source call.outside shared call.resourceName
      call.containerName).1 = some p := by
  obtain ⟨accountUrl, hurl, hinit⟩ := h
  unfold resolveStoreExclusive
  split
  · next p hkey => exact ⟨p, rfl⟩
  · split
    · next error s' hu =>
      rw [hu] at hurl
      cases hurl
    · next url s' hu =>
      rw [hu] at hurl
      obtain rfl := Except.ok.inj hurl
      unfold createStore
      rw [if_pos hinit]
      exact ⟨_, rfl⟩

/-- A call that has not started can go on to return a store. -/
theorem ResolveStep.succeeds {i : ι} (hi : s.point i = .called)
    (hr : (calls i).resourceName ≠ []) (hc : (calls i).containerName ≠ [])
    (h : CanCreate source (calls i) s.shared) :
    ∃ tr s' p, Run (ResolveStep source calls) s tr s' ∧ s'.point i = .returned (some p) := by
  cases hkey : s.shared.stores_ (calls i).key with
  | some p =>
    refine ⟨_, _, p, Run.nil.snoc (.hit hi hr hc hkey), ?_⟩
    exact Function.update_self ..
  | none =>
    obtain ⟨p, hp⟩ := resolveStoreExclusive_succeeds h
    have hmissed : (s.goto i s.shared .missed).point i = .missed := Function.update_self ..
    refine ⟨_, _, p, (Run.nil.snoc (.miss hi hr hc hkey)).snoc (.exclusive hmissed rfl), ?_⟩
    refine (Function.update_self ..).trans ?_
    exact congrArg ResolvePoint.returned hp

/-- In every interleaving of calls, one store is created for a key at most; all calls with a key
that return a store return the same one; entries of the cache are neither replaced nor removed; and
a call that fails leaves the cache as it is, so that a later one can still succeed. -/
theorem resolveStore_once (h : ResolveRuns source calls more tr s) :
    (s.shared.instances.map Prod.fst).Nodup ∧
    (∀ i j p q, (calls i).key = (calls j).key → s.point i = .returned (some p) →
      s.point j = .returned (some q) → p = q) ∧
    (∀ t ∈ tr, ∀ key p, t.1.shared.stores_ key = some p → s.shared.stores_ key = some p) ∧
    (∀ e s', ResolveStep source calls s e s' → e.answer = some none →
      s'.shared.stores_ = s.shared.stores_ ∧ s'.shared.instances = s.shared.instances) ∧
    ∀ i, s.point i = .called → (calls i).resourceName ≠ [] → (calls i).containerName ≠ [] →
      CanCreate source (calls i) s.shared →
        ∃ tr' s' p, Run (ResolveStep source calls) s tr' s' ∧
          s'.point i = .returned (some p) := by
  have hsound := h.sound
  refine ⟨hsound.nodup, ?_, h.kept, fun e s' hs he => hs.failed he, ?_⟩
  · intro i j p q hkey hi hj
    have hp := hsound.returned hi
    rw [hkey] at hp
    exact Option.some.inj (hp.symm.trans (hsound.returned hj))
  · intro i hi hr hc hcan
    exact ResolveStep.succeeds hi hr hc hcan

end

/-! ## Two calls with one key -/

section

variable {ε : Type v} {δ : Type u} {ι : Type w} [DecidableEq ι] (source : StoreSource ε δ)
  (calls : ι → ResolveCall ε)

/-- The next critical section of a call. -/
def Resolving.next (s : Resolving ι δ) (i : ι) : Option (ResolveEvent ι × Resolving ι δ) :=
  match s.point i with
  | .called =>
    if (calls i).resourceName = [] ∨ (calls i).containerName = [] then
      some ({ caller := some i, answer := some none }, s.goto i { s.shared with
        lastError_ := "Resource name and container name are required".toList } (.returned none))
    else
      match s.shared.stores_ (calls i).key with
      | some p => some ({ caller := some i, answer := some (some p) },
          s.goto i s.shared (.returned (some p)))
      | none => some ({ caller := some i }, s.goto i s.shared .missed)
  | .missed =>
    let r := resolveStoreExclusive source (calls i).outside s.shared (calls i).resourceName
      (calls i).containerName
    some ({ caller := some i, answer := some r.1 }, s.goto i r.2 (.returned r.1))
  | .returned _ => none

variable {source calls}

theorem Resolving.next_step {s s' : Resolving ι δ} {i : ι} {e : ResolveEvent ι}
    (h : s.next source calls i = some (e, s')) : ResolveStep source calls s e s' := by
  unfold Resolving.next at h
  split at h
  · next hi =>
    split at h
    · next hempty =>
      cases h
      exact .refuse hi hempty
    · next hempty =>
      obtain ⟨hr, hc⟩ := not_or.mp hempty
      split at h
      · next p hkey =>
        cases h
        exact .hit hi hr hc hkey
      · next hkey =>
        cases h
        exact .miss hi hr hc hkey
  · next hi =>
    cases h
    exact .exclusive hi rfl
  · cases h

end

/-- Three calls: two with one key, and one with a key of its own whose store cannot be created. -/
def threeCalls (i : Fin 3) : ResolveCall (Text → Text → Bool) where
  resourceName := if i = 2 then "other".toList else "account".toList
  containerName := "container".toList
  outside _ _ := i ≠ 2

/-- All calls miss before one of them takes the exclusive lock. -/
def threeCallsRun :
    List (Resolving (Fin 3) Unit × ResolveEvent (Fin 3)) × Resolving (Fin 3) Unit :=
  replay (Resolving.next (InMemoryAccountResolver.source {}) threeCalls) [0, 1, 2, 1, 2, 0]
    (Resolving.initial ())

theorem threeCallsRun_run : ResolveRuns (InMemoryAccountResolver.source {}) threeCalls ()
    threeCallsRun.1 threeCallsRun.2 :=
  replay_run fun _ _ _ _ _ he => Resolving.next_step he

theorem resolveStore_once_threeCalls :
    threeCallsRun.2.point 0 = .returned (some 0) ∧ threeCallsRun.2.point 1 = .returned (some 0) ∧
      threeCallsRun.2.point 2 = .returned none ∧
      (threeCallsRun.2.shared.instances.map Prod.fst).Nodup :=
  ⟨by decide +kernel, by decide +kernel, by decide +kernel,
    (resolveStore_once threeCallsRun_run).1⟩

end KVStore
