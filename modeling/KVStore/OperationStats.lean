import KVStore.Types
import KVStore.Lib.OrderStatistics
import Mathlib.Data.List.GetD
import Mathlib.Data.List.Induction
import Mathlib.Logic.Function.Basic

/-!
# Latency statistics (`OperationStats`)

The playground records the time of every lookup, read and write, and what the server says of it only
when the total latency is positive. Objects are merged by appending their vectors. `runStats_eq`:
whatever is recorded and merged in which order, the vectors of an object are read off the operations
that it holds. `breakdowns_iff`: when the displayed differences are non-negative.
-/

namespace KVStore

open OrderStatistics

universe u

/-- Times are in microseconds. -/
structure ServerMetrics where
  storage_latency_us : Int := 0
  total_latency_us : Int := 0
  overhead_us : Int := 0
  client_e2e_us : Int := 0
  serialize_us : Int := 0
  deserialize_us : Int := 0
  network_us : Int := 0
deriving DecidableEq

/-! ## `OperationStats` -/

structure OperationStats where
  lookupTimes : List Int := []
  readTimes : List Int := []
  writeTimes : List Int := []
  lookupStorageTimes : List Int := []
  lookupServerTotalTimes : List Int := []
  readStorageTimes : List Int := []
  readServerTotalTimes : List Int := []
  writeStorageTimes : List Int := []
  writeServerTotalTimes : List Int := []
  lookupSerializeTimes : List Int := []
  lookupDeserializeTimes : List Int := []
  lookupNetworkTimes : List Int := []
  writeSerializeTimes : List Int := []
  writeNetworkTimes : List Int := []
  readDeserializeTimes : List Int := []
  readNetworkTimes : List Int := []
deriving DecidableEq

/-- `if (c > 0) times.push_back(us)`. -/
def pushIfPositive (c : Int) (times : List Int) (us : Int) : List Int :=
  if 0 < c then times ++ [us] else times

namespace OperationStats

def addLookupTime (s : OperationStats) (us : Int) : OperationStats :=
  { s with lookupTimes := s.lookupTimes ++ [us] }

def addReadTime (s : OperationStats) (us : Int) : OperationStats :=
  { s with readTimes := s.readTimes ++ [us] }

def addWriteTime (s : OperationStats) (us : Int) : OperationStats :=
  { s with writeTimes := s.writeTimes ++ [us] }

def addLookupServerMetrics (s : OperationStats) (m : ServerMetrics) : OperationStats :=
  { s with
    lookupStorageTimes := pushIfPositive m.total_latency_us s.lookupStorageTimes
      m.storage_latency_us
    lookupServerTotalTimes := pushIfPositive m.total_latency_us s.lookupServerTotalTimes
      m.total_latency_us
    lookupSerializeTimes := pushIfPositive m.serialize_us s.lookupSerializeTimes m.serialize_us
    lookupDeserializeTimes := pushIfPositive m.deserialize_us s.lookupDeserializeTimes
      m.deserialize_us
    lookupNetworkTimes := pushIfPositive m.network_us s.lookupNetworkTimes m.network_us }

def addReadServerMetrics (s : OperationStats) (m : ServerMetrics) : OperationStats :=
  { s with
    readStorageTimes := pushIfPositive m.total_latency_us s.readStorageTimes m.storage_latency_us
    readServerTotalTimes := pushIfPositive m.total_latency_us s.readServerTotalTimes
      m.total_latency_us
    readDeserializeTimes := pushIfPositive m.deserialize_us s.readDeserializeTimes m.deserialize_us
    readNetworkTimes := pushIfPositive m.network_us s.readNetworkTimes m.network_us }

def addWriteServerMetrics (s : OperationStats) (m : ServerMetrics) : OperationStats :=
  { s with
    writeStorageTimes := pushIfPositive m.total_latency_us s.writeStorageTimes m.storage_latency_us
    writeServerTotalTimes := pushIfPositive m.total_latency_us s.writeServerTotalTimes
      m.total_latency_us
    writeSerializeTimes := pushIfPositive m.serialize_us s.writeSerializeTimes m.serialize_us
    writeNetworkTimes := pushIfPositive m.network_us s.writeNetworkTimes m.network_us }

def merge (s other : OperationStats) : OperationStats where
  lookupTimes := s.lookupTimes ++ other.lookupTimes
  readTimes := s.readTimes ++ other.readTimes
  writeTimes := s.writeTimes ++ other.writeTimes
  lookupStorageTimes := s.lookupStorageTimes ++ other.lookupStorageTimes
  lookupServerTotalTimes := s.lookupServerTotalTimes ++ other.lookupServerTotalTimes
  readStorageTimes := s.readStorageTimes ++ other.readStorageTimes
  readServerTotalTimes := s.readServerTotalTimes ++ other.readServerTotalTimes
  writeStorageTimes := s.writeStorageTimes ++ other.writeStorageTimes
  writeServerTotalTimes := s.writeServerTotalTimes ++ other.writeServerTotalTimes
  lookupSerializeTimes := s.lookupSerializeTimes ++ other.lookupSerializeTimes
  lookupDeserializeTimes := s.lookupDeserializeTimes ++ other.lookupDeserializeTimes
  lookupNetworkTimes := s.lookupNetworkTimes ++ other.lookupNetworkTimes
  writeSerializeTimes := s.writeSerializeTimes ++ other.writeSerializeTimes
  writeNetworkTimes := s.writeNetworkTimes ++ other.writeNetworkTimes
  readDeserializeTimes := s.readDeserializeTimes ++ other.readDeserializeTimes
  readNetworkTimes := s.readNetworkTimes ++ other.readNetworkTimes

/-- With the index computed exactly. -/
def getPercentile (data : List Int) (percentile : ℚ) : Int :=
  if data = [] then 0
  else
    let sorted := data.insertionSort (· ≤ ·)
    let index := ⌊data.length * percentile / 100⌋₊
    let index := if data.length ≤ index then data.length - 1 else index
    sorted.getD index 0

/-! The differences that `displayDetailedStats` shows. -/

/-- "Server Overhead" of the lookups. -/
def lookupOverhead (s : OperationStats) (p : ℚ) : Int :=
  getPercentile s.lookupServerTotalTimes p - getPercentile s.lookupStorageTimes p

/-- "Server Overhead" of the writes. -/
def writeOverhead (s : OperationStats) (p : ℚ) : Int :=
  getPercentile s.writeServerTotalTimes p - getPercentile s.writeStorageTimes p

/-- "Transport Delay" of the reads. -/
def transportDelay (s : OperationStats) (p : ℚ) : Int :=
  getPercentile s.readTimes p - getPercentile s.readStorageTimes p

structure NonNegative (s : OperationStats) (p : ℚ) : Prop where
  lookup : 0 ≤ s.lookupOverhead p
  read : 0 ≤ s.transportDelay p
  write : 0 ≤ s.writeOverhead p

end OperationStats

/-! ## What is recorded -/

inductive OperationKind
  | lookup
  | read
  | write
deriving DecidableEq

/-- An operation as it is recorded: the time that the client has measured, and its metrics. -/
structure OperationRecord where
  kind : OperationKind
  us : Int
  metrics : ServerMetrics
deriving DecidableEq

structure OperationRecord.Valid (r : OperationRecord) : Prop where
  storage_nonneg : 0 ≤ r.metrics.storage_latency_us
  storage_le_total : r.metrics.storage_latency_us ≤ r.metrics.total_latency_us
  storage_le_us : r.kind = .read → r.metrics.storage_latency_us ≤ r.us

/-- The metrics of a streaming read, which `StreamingReadAsync` puts on its first result. For each
response: the metrics of the server, if it sent any, and the time that it took to deserialize. -/
def streamMetrics (stream_us : Int) (responses : List (Option ServerMetrics × Int)) :
    ServerMetrics :=
  if responses = [] then {}
  else
    let max_storage_us := (responses.filterMap Prod.fst).foldl
      (fun max_storage_us sm => max max_storage_us sm.storage_latency_us) 0
    let last_chunk_deserialize_us := (responses.getLast?.map Prod.snd).getD 0
    { client_e2e_us := stream_us
      storage_latency_us := max_storage_us
      total_latency_us := stream_us
      overhead_us := stream_us - max_storage_us
      deserialize_us := last_chunk_deserialize_us
      network_us := stream_us - max_storage_us - last_chunk_deserialize_us }

/-- What the playground records of a streaming read. -/
def streamRecord (stream_us : Int) (responses : List (Option ServerMetrics × Int)) :
    OperationRecord where
  kind := .read
  us := (streamMetrics stream_us responses).client_e2e_us
  metrics := streamMetrics stream_us responses

theorem foldl_max_storage (metrics : List ServerMetrics) (a : Int) :
    a ≤ metrics.foldl (fun m sm => max m sm.storage_latency_us) a ∧
      ∀ b, a ≤ b → (∀ sm ∈ metrics, sm.storage_latency_us ≤ b) →
        metrics.foldl (fun m sm => max m sm.storage_latency_us) a ≤ b := by
  induction metrics generalizing a with
  | nil => simp
  | cons sm metrics ih =>
    obtain ⟨hle, hbound⟩ := ih (max a sm.storage_latency_us)
    refine ⟨(le_max_left _ _).trans hle, fun b hab hall => ?_⟩
    have hsm := hall sm List.mem_cons_self
    exact hbound b (max_le hab hsm) fun o ho => hall o (List.mem_cons_of_mem _ ho)

/-- A streaming read that took as long as each of its storage accesses is valid; so is one without
any response. -/
theorem streamRecord_valid {stream_us : Int} {responses : List (Option ServerMetrics × Int)}
    (h0 : 0 ≤ stream_us)
    (h : ∀ sm ∈ responses.filterMap Prod.fst, sm.storage_latency_us ≤ stream_us) :
    (streamRecord stream_us responses).Valid := by
  by_cases hnone : responses = []
  · subst hnone
    exact ⟨le_rfl, le_rfl, fun _ => le_rfl⟩
  · obtain ⟨hle, hbound⟩ := foldl_max_storage (responses.filterMap Prod.fst) 0
    have hmax := hbound stream_us h0 h
    unfold streamRecord streamMetrics
    rw [if_neg hnone]
    exact ⟨hle, hmax, fun _ => hmax⟩

def OperationStats.record (s : OperationStats) (r : OperationRecord) : OperationStats :=
  match r.kind with
  | .lookup => (s.addLookupTime r.us).addLookupServerMetrics r.metrics
  | .read => (s.addReadTime r.us).addReadServerMetrics r.metrics
  | .write => (s.addWriteTime r.us).addWriteServerMetrics r.metrics

/-- What happens to some objects: an operation is recorded, or the vectors of one are merged into
another. -/
inductive StatsEvent (κ : Type u)
  | record (object : κ) (r : OperationRecord)
  | merge (object other : κ)

def StatsEvent.Valid {κ : Type u} : StatsEvent κ → Prop
  | .record _ r => r.Valid
  | .merge _ _ => True

variable {κ : Type u} [DecidableEq κ]

def applyStats (stats : κ → OperationStats) : StatsEvent κ → κ → OperationStats
  | .record object r => Function.update stats object ((stats object).record r)
  | .merge object other => Function.update stats object ((stats object).merge (stats other))

/-- The objects behind some events; they all begin empty. -/
def runStats (events : List (StatsEvent κ)) : κ → OperationStats :=
  events.foldl applyStats fun _ => {}

def applyRecords (records : κ → List OperationRecord) :
    StatsEvent κ → κ → List OperationRecord
  | .record object r => Function.update records object (records object ++ [r])
  | .merge object other => Function.update records object (records object ++ records other)

/-- The operations that the objects hold. -/
def heldRecords (events : List (StatsEvent κ)) : κ → List OperationRecord :=
  events.foldl applyRecords fun _ => []

/-! ## The vectors are read off the operations -/

def timesOf (kind : OperationKind) (records : List OperationRecord) : List Int :=
  (records.filter fun r => r.kind = kind).map fun r => r.us

/-- The operations of a kind for which a value of the metrics is positive. -/
def positiveOf (kind : OperationKind) (key : ServerMetrics → Int)
    (records : List OperationRecord) : List OperationRecord :=
  records.filter fun r => r.kind = kind ∧ 0 < key r.metrics

def metricsOf (kind : OperationKind) (key value : ServerMetrics → Int)
    (records : List OperationRecord) : List Int :=
  (positiveOf kind key records).map fun r => value r.metrics

/-- The vectors of an object that holds some operations. -/
def statsOf (records : List OperationRecord) : OperationStats where
  lookupTimes := timesOf .lookup records
  readTimes := timesOf .read records
  writeTimes := timesOf .write records
  lookupStorageTimes := metricsOf .lookup (·.total_latency_us) (·.storage_latency_us) records
  lookupServerTotalTimes := metricsOf .lookup (·.total_latency_us) (·.total_latency_us) records
  readStorageTimes := metricsOf .read (·.total_latency_us) (·.storage_latency_us) records
  readServerTotalTimes := metricsOf .read (·.total_latency_us) (·.total_latency_us) records
  writeStorageTimes := metricsOf .write (·.total_latency_us) (·.storage_latency_us) records
  writeServerTotalTimes := metricsOf .write (·.total_latency_us) (·.total_latency_us) records
  lookupSerializeTimes := metricsOf .lookup (·.serialize_us) (·.serialize_us) records
  lookupDeserializeTimes := metricsOf .lookup (·.deserialize_us) (·.deserialize_us) records
  lookupNetworkTimes := metricsOf .lookup (·.network_us) (·.network_us) records
  writeSerializeTimes := metricsOf .write (·.serialize_us) (·.serialize_us) records
  writeNetworkTimes := metricsOf .write (·.network_us) (·.network_us) records
  readDeserializeTimes := metricsOf .read (·.deserialize_us) (·.deserialize_us) records
  readNetworkTimes := metricsOf .read (·.network_us) (·.network_us) records

section

variable {kind : OperationKind} {key value : ServerMetrics → Int} {r : OperationRecord}
  {records others : List OperationRecord}

@[simp] theorem timesOf_append :
    timesOf kind (records ++ others) = timesOf kind records ++ timesOf kind others := by
  simp [timesOf]

@[simp] theorem metricsOf_append : metricsOf kind key value (records ++ others) =
    metricsOf kind key value records ++ metricsOf kind key value others := by
  simp [metricsOf, positiveOf]

theorem timesOf_singleton : timesOf kind [r] = if r.kind = kind then [r.us] else [] := by
  by_cases h : r.kind = kind <;> simp [timesOf, h]

theorem metricsOf_singleton_ne (h : r.kind ≠ kind) : metricsOf kind key value [r] = [] := by
  simp [metricsOf, positiveOf, h]

theorem metricsOf_singleton_eq (h : r.kind = kind) (times : List Int) :
    times ++ metricsOf kind key value [r] =
      pushIfPositive (key r.metrics) times (value r.metrics) := by
  by_cases hkey : 0 < key r.metrics <;> simp [metricsOf, positiveOf, pushIfPositive, h, hkey]

theorem statsOf_record : (statsOf records).record r = statsOf (records ++ [r]) := by
  obtain ⟨kind, us, m⟩ := r
  unfold statsOf
  simp only [timesOf_append, metricsOf_append, timesOf_singleton]
  cases kind with
  | lookup =>
    have hread := fun key value => @metricsOf_singleton_ne .read key value ⟨.lookup, us, m⟩
    have hwrite := fun key value => @metricsOf_singleton_ne .write key value ⟨.lookup, us, m⟩
    simp [metricsOf_singleton_eq, hread, hwrite, OperationStats.record,
      OperationStats.addLookupTime, OperationStats.addLookupServerMetrics]
  | read =>
    have hlookup := fun key value => @metricsOf_singleton_ne .lookup key value ⟨.read, us, m⟩
    have hwrite := fun key value => @metricsOf_singleton_ne .write key value ⟨.read, us, m⟩
    simp [metricsOf_singleton_eq, hlookup, hwrite, OperationStats.record,
      OperationStats.addReadTime, OperationStats.addReadServerMetrics]
  | write =>
    have hlookup := fun key value => @metricsOf_singleton_ne .lookup key value ⟨.write, us, m⟩
    have hread := fun key value => @metricsOf_singleton_ne .read key value ⟨.write, us, m⟩
    simp [metricsOf_singleton_eq, hlookup, hread, OperationStats.record,
      OperationStats.addWriteTime, OperationStats.addWriteServerMetrics]

theorem statsOf_merge :
    (statsOf records).merge (statsOf others) = statsOf (records ++ others) := by
  simp [statsOf, OperationStats.merge]

end

theorem applyStats_eq {stats : κ → OperationStats} {records : κ → List OperationRecord}
    (h : ∀ object, stats object = statsOf (records object)) (e : StatsEvent κ) (object : κ) :
    applyStats stats e object = statsOf (applyRecords records e object) := by
  cases e with
  | record target r =>
    by_cases ht : object = target
    · subst ht
      simp [applyStats, applyRecords, h, statsOf_record]
    · simp [applyStats, applyRecords, ht, h]
  | merge target other =>
    by_cases ht : object = target
    · subst ht
      simp [applyStats, applyRecords, h, statsOf_merge]
    · simp [applyStats, applyRecords, ht, h]

/-- **The vectors of an object** are those of the operations that it holds. -/
theorem runStats_eq (events : List (StatsEvent κ)) (object : κ) :
    runStats events object = statsOf (heldRecords events object) := by
  suffices h : ∀ (stats : κ → OperationStats) (records : κ → List OperationRecord),
      (∀ object, stats object = statsOf (records object)) →
        events.foldl applyStats stats object =
          statsOf (events.foldl applyRecords records object) from
    h _ _ fun _ => rfl
  induction events with
  | nil => exact fun stats records h => h object
  | cons e events ih => exact fun stats records h => ih _ _ (applyStats_eq h e)

/-- An event gives an object no operations but those of other objects and the one it records. -/
theorem mem_applyRecords {records : κ → List OperationRecord} {e : StatsEvent κ} {object : κ}
    {r : OperationRecord} (h : r ∈ applyRecords records e object) :
    (∃ target, r ∈ records target) ∨ ∃ target, e = .record target r := by
  cases e with
  | record target new =>
    by_cases ht : object = target
    · subst ht
      simp only [applyRecords, Function.update_self, List.mem_append, List.mem_singleton] at h
      rcases h with hold | rfl
      · exact Or.inl ⟨object, hold⟩
      · exact Or.inr ⟨object, rfl⟩
    · simp only [applyRecords, Function.update_of_ne ht] at h
      exact Or.inl ⟨object, h⟩
  | merge target other =>
    by_cases ht : object = target
    · subst ht
      simp only [applyRecords, Function.update_self, List.mem_append] at h
      rcases h with hold | hmerged
      · exact Or.inl ⟨object, hold⟩
      · exact Or.inl ⟨other, hmerged⟩
    · simp only [applyRecords, Function.update_of_ne ht] at h
      exact Or.inl ⟨object, h⟩

/-- An object holds no operations but those that were recorded. -/
theorem mem_heldRecords {events : List (StatsEvent κ)} {object : κ} {r : OperationRecord}
    (h : r ∈ heldRecords events object) : ∃ target, StatsEvent.record target r ∈ events := by
  suffices hall : ∀ records : κ → List OperationRecord, ∀ object,
      r ∈ events.foldl applyRecords records object →
        (∃ target, r ∈ records target) ∨ ∃ target, StatsEvent.record target r ∈ events by
    rcases hall _ object h with ⟨target, hnone⟩ | hrecord
    · cases hnone
    · exact hrecord
  clear h object
  induction events with
  | nil => exact fun records object h => Or.inl ⟨object, h⟩
  | cons e events ih =>
    intro records object h
    rcases ih _ object h with ⟨target, htarget⟩ | ⟨target, htarget⟩
    · rcases mem_applyRecords htarget with hold | ⟨changed, rfl⟩
      · exact Or.inl hold
      · exact Or.inr ⟨changed, List.mem_cons_self⟩
    · exact Or.inr ⟨target, List.mem_cons_of_mem _ htarget⟩

/-! ## Percentiles -/

namespace OperationStats

variable {data s t : List Int} {p : ℚ}

@[simp] theorem getPercentile_nil : getPercentile [] p = 0 := rfl

theorem getPercentile_eq (h : data ≠ []) : getPercentile data p = percentile data h p := by
  have hpos := List.length_pos_of_ne_nil h
  have hindex : (if data.length ≤ ⌊data.length * p / 100⌋₊ then data.length - 1
      else ⌊data.length * p / 100⌋₊) = percentileIndex data.length p := by
    unfold percentileIndex
    split <;> omega
  have hlt : percentileIndex data.length p < (sorted data).length := by
    rw [length_sorted]
    exact percentileIndex_lt hpos p
  rw [getPercentile, if_neg h]
  dsimp only
  rw [hindex]
  exact List.getD_eq_getElem _ _ hlt

/-- The percentiles of non-negative times are not negative. -/
theorem getPercentile_nonneg (h : ∀ x ∈ data, 0 ≤ x) : 0 ≤ getPercentile data p := by
  by_cases hdata : data = []
  · subst hdata
    simp
  · rw [getPercentile_eq hdata]
    exact h _ (percentile_mem hdata p)

/-- Percentiles of vectors that grow together. -/
theorem getPercentile_le_of_forall₂ (h : List.Forall₂ (· ≤ ·) s t) (hp : 0 ≤ p) (hp' : p ≤ 100) :
    getPercentile s p ≤ getPercentile t p := by
  have hlength := h.length_eq
  by_cases hs : s = []
  · subst hs
    have ht : t = [] := List.length_eq_zero_iff.mp hlength.symm
    simp [ht]
  · have ht : t ≠ [] := by
      rintro rfl
      exact hs (List.length_eq_zero_iff.mp hlength)
    rw [getPercentile_eq hs, getPercentile_eq ht]
    refine (forall_percentile_le_iff hs ht).mpr (fun x _ => ?_) p hp hp'
    rw [hlength]
    exact Nat.mul_le_mul_right _ (below_le_of_forall₂ h x)

/-- Percentiles of vectors of any lengths. -/
theorem forall_getPercentile_le_iff (hst : t = [] → s = []) (ht0 : ∀ x ∈ t, 0 ≤ x) :
    (∀ p : ℚ, 0 ≤ p → p ≤ 100 → getPercentile s p ≤ getPercentile t p) ↔
      ∀ x ∈ s, below t x * s.length ≤ below s x * t.length := by
  by_cases hs : s = []
  · subst hs
    simp only [getPercentile_nil, List.not_mem_nil, false_implies, implies_true, iff_true]
    exact fun p _ _ => getPercentile_nonneg ht0
  · have ht := mt hst hs
    simp only [getPercentile_eq hs, getPercentile_eq ht]
    exact forall_percentile_le_iff hs ht

end OperationStats

/-! ## `displayDetailedStats` -/

namespace OperationStats

/-- A displayed line: its label and the times on it. -/
abbrev StatsLine := String × List Int

/-- The p50, the p90 and the p99. -/
def breakdown (data : List Int) : List Int :=
  [getPercentile data 50, getPercentile data 90, getPercentile data 99]

/-- The end to end times come with the p100. -/
def endToEnd (data : List Int) : List Int := breakdown data ++ [getPercentile data 100]

/-- A line that is displayed when there are times for it. -/
def lineIfAny (label : String) (data : List Int) : List StatsLine :=
  if data = [] then [] else [(label, breakdown data)]

def displayLookupWithSerDe (s : OperationStats) : List StatsLine :=
  if s.lookupTimes = [] then []
  else
    [("Lookup", [(s.lookupTimes.length : Int)]), ("Client E2E", endToEnd s.lookupTimes)] ++
      (if s.lookupStorageTimes ≠ [] ∧ s.lookupServerTotalTimes ≠ [] then
        [("Server Storage", breakdown s.lookupStorageTimes),
          ("Server Total", breakdown s.lookupServerTotalTimes),
          ("Server Overhead", [s.lookupOverhead 50, s.lookupOverhead 90, s.lookupOverhead 99])]
      else []) ++
      lineIfAny "Serialize" s.lookupSerializeTimes ++
      lineIfAny "Deserialize" s.lookupDeserializeTimes ++
      lineIfAny "Pure Network" s.lookupNetworkTimes

def displayReadStreaming (s : OperationStats) : List StatsLine :=
  if s.readTimes = [] then []
  else
    [("Read", [(s.readTimes.length : Int)]), ("Client E2E", endToEnd s.readTimes)] ++
      (if s.readStorageTimes ≠ [] then
        [("Max Storage", breakdown s.readStorageTimes),
          ("Transport Delay", [s.transportDelay 50, s.transportDelay 90, s.transportDelay 99])]
      else []) ++
      lineIfAny "Last Chunk Deser" s.readDeserializeTimes

def displayWriteWithSerDe (s : OperationStats) : List StatsLine :=
  if s.writeTimes = [] then []
  else
    [("Write", [(s.writeTimes.length : Int)]), ("Client E2E", endToEnd s.writeTimes)] ++
      (if s.writeStorageTimes ≠ [] ∧ s.writeServerTotalTimes ≠ [] then
        [("Server Storage", breakdown s.writeStorageTimes),
          ("Server Total", breakdown s.writeServerTotalTimes),
          ("Server Overhead", [s.writeOverhead 50, s.writeOverhead 90, s.writeOverhead 99])]
      else []) ++
      lineIfAny "Serialize" s.writeSerializeTimes ++
      lineIfAny "Pure Network" s.writeNetworkTimes

def displayDetailedStats (s : OperationStats) : List StatsLine :=
  s.displayLookupWithSerDe ++ s.displayReadStreaming ++ s.displayWriteWithSerDe

/-! The order of the times does not show. -/

/-- The vectors of an object. -/
def vectors : List (OperationStats → List Int) :=
  [lookupTimes, readTimes, writeTimes, lookupStorageTimes, lookupServerTotalTimes,
    readStorageTimes, readServerTotalTimes, writeStorageTimes, writeServerTotalTimes,
    lookupSerializeTimes, lookupDeserializeTimes, lookupNetworkTimes, writeSerializeTimes,
    writeNetworkTimes, readDeserializeTimes, readNetworkTimes]

/-- The same times, each vector in ascending order. -/
def ascending (s : OperationStats) : OperationStats where
  lookupTimes := sorted s.lookupTimes
  readTimes := sorted s.readTimes
  writeTimes := sorted s.writeTimes
  lookupStorageTimes := sorted s.lookupStorageTimes
  lookupServerTotalTimes := sorted s.lookupServerTotalTimes
  readStorageTimes := sorted s.readStorageTimes
  readServerTotalTimes := sorted s.readServerTotalTimes
  writeStorageTimes := sorted s.writeStorageTimes
  writeServerTotalTimes := sorted s.writeServerTotalTimes
  lookupSerializeTimes := sorted s.lookupSerializeTimes
  lookupDeserializeTimes := sorted s.lookupDeserializeTimes
  lookupNetworkTimes := sorted s.lookupNetworkTimes
  writeSerializeTimes := sorted s.writeSerializeTimes
  writeNetworkTimes := sorted s.writeNetworkTimes
  readDeserializeTimes := sorted s.readDeserializeTimes
  readNetworkTimes := sorted s.readNetworkTimes

variable {s t : OperationStats} {l l' : List OperationStats}

@[simp] theorem getPercentile_sorted (data : List Int) (p : ℚ) :
    getPercentile (sorted data) p = getPercentile data p := by
  have hsort : (sorted data).insertionSort (· ≤ ·) = data.insertionSort (· ≤ ·) :=
    sorted_sorted data
  simp only [getPercentile, sorted_eq_nil_iff, length_sorted, hsort]

theorem displayDetailedStats_ascending :
    s.ascending.displayDetailedStats = s.displayDetailedStats := by
  simp only [displayDetailedStats, displayLookupWithSerDe, displayReadStreaming,
    displayWriteWithSerDe, ascending, lineIfAny, endToEnd, breakdown, lookupOverhead,
    transportDelay, writeOverhead, getPercentile_sorted, sorted_eq_nil_iff, length_sorted, ne_eq]

theorem ascending_eq (h : ∀ f ∈ vectors, (f s).Perm (f t)) : s.ascending = t.ascending := by
  simp only [vectors, List.forall_mem_cons] at h
  obtain ⟨h1, h2, h3, h4, h5, h6, h7, h8, h9, h10, h11, h12, h13, h14, h15, h16, -⟩ := h
  simp only [ascending, mk.injEq]
  exact ⟨sorted_eq_of_perm h1, sorted_eq_of_perm h2, sorted_eq_of_perm h3, sorted_eq_of_perm h4,
    sorted_eq_of_perm h5, sorted_eq_of_perm h6, sorted_eq_of_perm h7, sorted_eq_of_perm h8,
    sorted_eq_of_perm h9, sorted_eq_of_perm h10, sorted_eq_of_perm h11, sorted_eq_of_perm h12,
    sorted_eq_of_perm h13, sorted_eq_of_perm h14, sorted_eq_of_perm h15, sorted_eq_of_perm h16⟩

theorem vectors_empty : ∀ f ∈ vectors, f {} = [] := by
  simp [vectors]

theorem vectors_merge : ∀ f ∈ vectors, ∀ s t, f (merge s t) = f s ++ f t := by
  simp [vectors, merge]

/-- Some objects are merged into one, one after the other. -/
def mergeAll (l : List OperationStats) : OperationStats := l.foldl merge {}

theorem vectors_mergeAll {f : OperationStats → List Int} (hf : f ∈ vectors)
    (l : List OperationStats) : f (mergeAll l) = l.flatMap f := by
  induction l using List.reverseRecOn with
  | nil => exact vectors_empty f hf
  | append_singleton l s ih =>
    rw [mergeAll, List.foldl_append, List.foldl_cons, List.foldl_nil, vectors_merge f hf,
      List.flatMap_append, List.flatMap_singleton]
    exact congrArg (· ++ f s) ih

/-- The order in which objects are merged does not show. -/
theorem displayDetailedStats_mergeAll (h : l.Perm l') :
    (mergeAll l).displayDetailedStats = (mergeAll l').displayDetailedStats := by
  rw [← displayDetailedStats_ascending, ← displayDetailedStats_ascending (s := mergeAll l')]
  refine congrArg displayDetailedStats (ascending_eq fun f hf => ?_)
  rw [vectors_mergeAll hf, vectors_mergeAll hf]
  exact h.flatMap_right f

end OperationStats

/-! ## The displayed differences -/

/-- The reads among some operations. -/
def readsOf (records : List OperationRecord) : List OperationRecord :=
  records.filter fun r => r.kind = .read

/-- The reads that came with a positive total latency. -/
def meteredReads (records : List OperationRecord) : List OperationRecord :=
  (readsOf records).filter fun r => 0 < r.metrics.total_latency_us

/-- For each recorded storage time: the share of the reads that took less than it is at most the
share of the storage times below it. -/
def ReadsInProportion (records : List OperationRecord) : Prop :=
  ∀ r ∈ meteredReads records,
    (readsOf records).countP (fun o => o.us < r.metrics.storage_latency_us) *
        (meteredReads records).length ≤
      (meteredReads records).countP
        (fun o => o.metrics.storage_latency_us < r.metrics.storage_latency_us) *
        (readsOf records).length

instance (records : List OperationRecord) : Decidable (ReadsInProportion records) :=
  inferInstanceAs (Decidable (∀ r ∈ meteredReads records, _))

section

variable {records : List OperationRecord} {r : OperationRecord} {kind : OperationKind}

theorem readsOf_of_mem (h : r ∈ readsOf records) : r ∈ records ∧ r.kind = .read := by
  simpa [readsOf] using h

theorem meteredReads_eq :
    positiveOf .read (·.total_latency_us) records = meteredReads records := by
  simp [positiveOf, meteredReads, readsOf, List.filter_filter, Bool.and_comm]

/-- When all reads are metered, they are in proportion. -/
theorem readsInProportion_of_metered (hvalid : ∀ r ∈ records, r.Valid)
    (h : ∀ r ∈ readsOf records, 0 < r.metrics.total_latency_us) : ReadsInProportion records := by
  have hall : meteredReads records = readsOf records :=
    List.filter_eq_self.mpr fun r hr => by simpa using h r hr
  intro r _
  rw [hall]
  apply Nat.mul_le_mul_right
  apply List.countP_mono_left
  intro o ho hlt
  obtain ⟨hmem, hread⟩ := readsOf_of_mem ho
  have hstorage := (hvalid o hmem).storage_le_us hread
  simp only [decide_eq_true_eq] at hlt ⊢
  omega

/-- Storage times and total times of lookups or of writes. -/
theorem storage_le_total (hvalid : ∀ r ∈ records, r.Valid) :
    List.Forall₂ (· ≤ ·) (metricsOf kind (·.total_latency_us) (·.storage_latency_us) records)
      (metricsOf kind (·.total_latency_us) (·.total_latency_us) records) := by
  rw [metricsOf, metricsOf, List.forall₂_map_left_iff, List.forall₂_map_right_iff,
    List.forall₂_same]
  intro r hr
  exact (hvalid r (List.mem_of_mem_filter hr)).storage_le_total

theorem forall_transportDelay_iff (hvalid : ∀ r ∈ records, r.Valid) :
    (∀ p : ℚ, 0 ≤ p → p ≤ 100 → 0 ≤ (statsOf records).transportDelay p) ↔
      ReadsInProportion records := by
  have hnone : timesOf .read records = [] →
      metricsOf .read (·.total_latency_us) (·.storage_latency_us) records = [] := by
    intro h
    rw [metricsOf, meteredReads_eq]
    have hreads : readsOf records = [] := List.map_eq_nil_iff.mp h
    simp [meteredReads, hreads]
  have hnonneg : ∀ x ∈ timesOf .read records, 0 ≤ x := by
    intro x hx
    obtain ⟨r, hr, rfl⟩ := List.mem_map.mp hx
    obtain ⟨hmem, hread⟩ := readsOf_of_mem hr
    have hr := hvalid r hmem
    exact hr.storage_nonneg.trans (hr.storage_le_us hread)
  have h := OperationStats.forall_getPercentile_le_iff hnone hnonneg
  simp only [OperationStats.transportDelay, Int.sub_nonneg]
  refine h.trans ?_
  rw [metricsOf, meteredReads_eq]
  simp only [List.forall_mem_map, below, List.countP_map, List.length_map, timesOf]
  rfl

end

/-- **The displayed differences** of an object are non-negative at every percentile exactly when
its reads are in proportion. -/
theorem breakdowns_iff {events : List (StatsEvent κ)}
    (hvalid : ∀ e ∈ events, e.Valid) (object : κ) :
    (∀ p : ℚ, 0 ≤ p → p ≤ 100 → (runStats events object).NonNegative p) ↔
      ReadsInProportion (heldRecords events object) := by
  have hheld : ∀ r ∈ heldRecords events object, r.Valid := by
    intro r hr
    obtain ⟨target, htarget⟩ := mem_heldRecords hr
    exact hvalid _ htarget
  rw [runStats_eq, ← forall_transportDelay_iff hheld]
  constructor
  · intro h p hp hp'
    exact (h p hp hp').read
  · intro h p hp hp'
    have hlookup : 0 ≤ (statsOf (heldRecords events object)).lookupOverhead p :=
      Int.sub_nonneg_of_le
        (OperationStats.getPercentile_le_of_forall₂ (storage_le_total hheld) hp hp')
    have hwrite : 0 ≤ (statsOf (heldRecords events object)).writeOverhead p :=
      Int.sub_nonneg_of_le
        (OperationStats.getPercentile_le_of_forall₂ (storage_le_total hheld) hp hp')
    exact ⟨hlookup, h p hp hp', hwrite⟩

/-! ## Failed reads -/

/-- A stream with one response. -/
def oneResponse (stream_us storage_us : Int) : OperationRecord :=
  streamRecord stream_us [(some { storage_latency_us := storage_us }, 0)]

instance (r : OperationRecord) : Decidable r.Valid :=
  decidable_of_iff
    (0 ≤ r.metrics.storage_latency_us ∧
      r.metrics.storage_latency_us ≤ r.metrics.total_latency_us ∧
      (r.kind = .read → r.metrics.storage_latency_us ≤ r.us))
    ⟨fun ⟨h, h', h''⟩ => ⟨h, h', h''⟩, fun ⟨h, h', h''⟩ => ⟨h, h', h''⟩⟩

instance (e : StatsEvent κ) : Decidable e.Valid :=
  match e with
  | .record _ r => inferInstanceAs (Decidable r.Valid)
  | .merge _ _ => inferInstanceAs (Decidable True)

/-- The operations of two conversations, merged into a third object. -/
def mergedEvents : List (StatsEvent Nat) :=
  [.record 1 ⟨.lookup, 9, { storage_latency_us := 3, total_latency_us := 5 }⟩,
    .record 1 (oneResponse 40 7), .record 2 (oneResponse 30 8), .merge 0 1,
    .record 2 ⟨.write, 8, { storage_latency_us := 6, total_latency_us := 7 }⟩, .merge 0 2]

theorem breakdowns_merged :
    ReadsInProportion (heldRecords mergedEvents 0) ∧
      ∀ p : ℚ, 0 ≤ p → p ≤ 100 → (runStats mergedEvents 0).NonNegative p := by
  have hreads : ReadsInProportion (heldRecords mergedEvents 0) := by decide
  exact ⟨hreads, (breakdowns_iff (by decide) 0).mpr hreads⟩

/-- A read of 100 µs, 50 of them in storage, and two streams without a response. -/
def failedEvents : List (StatsEvent Nat) :=
  [.record 0 (oneResponse 100 50), .record 0 (streamRecord 20 []), .record 0 (streamRecord 20 [])]

/-- The median of the reads is a failed one. -/
theorem breakdowns_failed :
    (∀ e ∈ failedEvents, e.Valid) ∧
      (runStats failedEvents 0).readTimes = [100, 0, 0] ∧
      (runStats failedEvents 0).readStorageTimes = [50] ∧
      (runStats failedEvents 0).transportDelay 50 = -50 := by
  decide +kernel

end KVStore
