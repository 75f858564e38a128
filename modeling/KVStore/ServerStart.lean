import KVStore.ServerMain

/-!
# What the server runs with

`server_runs_iff`: `RunServer` is called exactly when the command line is a sequence of options with
readable values, the configuration is valid and a processor group that is asked for can be had, and
then each setting has the value of its last option, or else of the environment, or else the default;
a field of the configuration comes from the environment, or else from the file when that is accepted
as a whole. `server_stops_iff`: how `main` ends, also after `RunServer`.
-/

namespace KVStore

open Options

/-! ## What decides on each setting -/

namespace ServerOption

/-! What an option gives for a setting. -/

def file? : ServerOption → Option Text
  | config file => some file.toList
  | _ => none

def host? : ServerOption → Option Text
  | host name => some name.toList
  | _ => none

def port? : ServerOption → Option Int
  | port number => readNumber number
  | _ => none

def threads? : ServerOption → Option Int
  | threads number => readNumber number
  | _ => none

def logLevel? : ServerOption → Option LogLevel
  | logLevel level => readLogLevel level
  | _ => none

def transport? : ServerOption → Option HttpTransportProtocol
  | transport name => readTransport name
  | _ => none

def group? : ServerOption → Option Int
  | processorGroup number => readNumber number
  | _ => none

def endpoint? : ServerOption → Option Text
  | metricsEndpoint endpoint => some endpoint.toList
  | _ => none

def key? : ServerOption → Option Text
  | instrumentationKey key => some key.toList
  | _ => none

end ServerOption

/-- A text of the environment that is not empty. -/
def fromEnv (env : String → Text) (name : String) : Option Text :=
  if env name = [] then none else some (env name)

/-- A port that the environment gives. -/
def envPort (env : String → Text) : Option Int :=
  (tryParseInt (env "KV_PORT")).filter fun port => 0 < port ∧ port ≤ 65535

def envGroup (env : String → Text) : Option Int := tryParseInt (env "KV_PROCESSOR_GROUP")

/-- The name of a field in the environment. -/
def ConfigField.envName : ConfigField → String
  | currentLocation => "KV_CURRENT_LOCATION"
  | configurationStore => "KV_CONFIGURATION_STORE"
  | configurationContainer => "KV_CONFIGURATION_CONTAINER"
  | domainSuffix => "KV_DOMAIN_SUFFIX"

/-- The file has a valid configuration. -/
def FileAccepted (json : Text) : Prop :=
  json ≠ [] ∧
    (∀ f ∈ ConfigField.required, (FileConfigProvider.fieldOf json f).getD [] ≠ []) ∧
    FileConfigProvider.fieldOf json .domainSuffix ≠ some []

instance (json : Text) : Decidable (FileAccepted json) := by
  unfold FileAccepted
  infer_instance

/-- A field of the file, when the file is accepted as a whole. -/
def fromFile (content : Option Text) (field : ConfigField) : Option Text :=
  (content.filter fun json => FileAccepted json).bind fun json =>
    FileConfigProvider.fieldOf json field

/-- A field of the configuration: of the environment, or else of the file, or else the default. -/
def configField (env : String → Text) (content : Option Text) (field : ConfigField) : Text :=
  ((fromEnv env field.envName).or (fromFile content field)).getD (field.get .initial)

/-- The configuration with these fields. -/
def configOf (fields : ConfigField → Text) : ServiceConfig where
  currentLocation := fields .currentLocation
  configurationStore := fields .configurationStore
  configurationContainer := fields .configurationContainer
  domainSuffix := fields .domainSuffix

/-- The file that a path names. -/
def configPath (opts : List ServerOption) : Text :=
  let path := (lastGiven ServerOption.file? opts).getD "service-config.json".toList
  if path = [] then "service-config.json".toList else path

/-- What the server runs with: for each setting the last option, or else the environment, or else
the default. -/
def effectiveRun (env : String → Text) (opts : List ServerOption) (serviceConfig : ServiceConfig) :
    ServerRun where
  serverAddress :=
    ((lastGiven ServerOption.host? opts).or (fromEnv env "KV_BIND_IP")).getD "0.0.0.0".toList ++
      ':' :: intToText (((lastGiven ServerOption.port? opts).or (envPort env)).getD 50051)
  serviceConfig
  logLevel := (lastGiven ServerOption.logLevel? opts).getD .Information
  transport := (lastGiven ServerOption.transport? opts).getD .LibCurl
  enableSdkLogging := ServerOption.enableSdkLogging ∈ opts
  enableMultiNic := ServerOption.disableMultiNic ∉ opts
  enableMetricsLogging := ServerOption.disableMetrics ∉ opts
  numThreads := (lastGiven ServerOption.threads? opts).getD 0
  enableNumaSpread :=
    ServerOption.disableNumaSpread ∉ opts ∧ lastGiven ServerOption.group? opts = none ∧
      ∀ group ∈ envGroup env, group < 0
  metrics :=
    match lastGiven ServerOption.endpoint? opts, lastGiven ServerOption.key? opts with
    | some (a :: endpoint), some (b :: key) => some (a :: endpoint, b :: key)
    | _, _ => none
  processorGroup := ((lastGiven ServerOption.group? opts).or (envGroup env)).getD (-1)

section

variable {env : String → Text} {opts : List ServerOption} {s : Settings}

/-- The settings that the options leave behind, each with what decides on it. -/
structure SettledBy (opts : List ServerOption) (s : Settings) : Prop where
  host : s.host = (lastGiven ServerOption.host? opts).getD "0.0.0.0".toList
  hostExplicit : s.hostExplicit = (lastGiven ServerOption.host? opts).isSome
  port : s.port = (lastGiven ServerOption.port? opts).getD 50051
  portExplicit : s.portExplicit = (lastGiven ServerOption.port? opts).isSome
  numThreads : s.numThreads = (lastGiven ServerOption.threads? opts).getD 0
  logLevel : s.logLevel = (lastGiven ServerOption.logLevel? opts).getD .Information
  transport : s.transport = (lastGiven ServerOption.transport? opts).getD .LibCurl
  enableSdkLogging : s.enableSdkLogging = decide (ServerOption.enableSdkLogging ∈ opts)
  enableMultiNic : s.enableMultiNic = decide (ServerOption.disableMultiNic ∉ opts)
  enableNumaSpread : s.enableNumaSpread =
    decide (ServerOption.disableNumaSpread ∉ opts ∧ lastGiven ServerOption.group? opts = none)
  processorGroup : s.processorGroup = (lastGiven ServerOption.group? opts).getD (-1)
  processorGroupExplicit : s.processorGroupExplicit = (lastGiven ServerOption.group? opts).isSome
  enableMetricsLogging : s.enableMetricsLogging = decide (ServerOption.disableMetrics ∉ opts)
  metricsEndpoint : s.metricsEndpoint = (lastGiven ServerOption.endpoint? opts).getD []
  instrumentationKey : s.instrumentationKey = (lastGiven ServerOption.key? opts).getD []
  configFilePath : s.configFilePath =
    (lastGiven ServerOption.file? opts).getD "service-config.json".toList

/-- What an option sets, one setting after the other. -/
theorem ServerOption.apply_eq (s : Settings) (o : ServerOption) : o.apply s =
    { host := o.host?.getD s.host
      hostExplicit := s.hostExplicit || o.host?.isSome
      port := o.port?.getD s.port
      portExplicit := s.portExplicit || o.port?.isSome
      numThreads := o.threads?.getD s.numThreads
      logLevel := o.logLevel?.getD s.logLevel
      transport := o.transport?.getD s.transport
      enableSdkLogging := s.enableSdkLogging || decide (o = enableSdkLogging)
      enableMultiNic := s.enableMultiNic && decide (o ≠ disableMultiNic)
      enableNumaSpread := s.enableNumaSpread && decide (o ≠ disableNumaSpread) && o.group?.isNone
      processorGroup := o.group?.getD s.processorGroup
      processorGroupExplicit := s.processorGroupExplicit || o.group?.isSome
      enableMetricsLogging := s.enableMetricsLogging && decide (o ≠ disableMetrics)
      metricsEndpoint := o.endpoint?.getD s.metricsEndpoint
      instrumentationKey := o.key?.getD s.instrumentationKey
      configFilePath := o.file?.getD s.configFilePath } := by
  cases o with
  | port number | threads number | processorGroup number =>
    cases h : readNumber number <;>
      simp [apply, h, host?, port?, threads?, logLevel?, transport?, group?, endpoint?, key?, file?]
  | logLevel level =>
    cases h : readLogLevel level <;>
      simp [apply, h, host?, port?, threads?, logLevel?, transport?, group?, endpoint?, key?, file?]
  | transport name =>
    cases h : readTransport name <;>
      simp [apply, h, host?, port?, threads?, logLevel?, transport?, group?, endpoint?, key?, file?]
  | _ =>
    simp [apply, host?, port?, threads?, logLevel?, transport?, group?, endpoint?, key?, file?]

theorem settled_foldl (opts : List ServerOption) :
    SettledBy opts (opts.foldl ServerOption.apply {}) where
  host := foldl_setting fun s o => by rw [o.apply_eq]
  hostExplicit := by
    rw [isSome_lastGiven]
    exact (foldl_flag fun s o => by rw [o.apply_eq]).trans (Bool.false_or _)
  port := foldl_setting fun s o => by rw [o.apply_eq]
  portExplicit := by
    rw [isSome_lastGiven]
    exact (foldl_flag fun s o => by rw [o.apply_eq]).trans (Bool.false_or _)
  numThreads := foldl_setting fun s o => by rw [o.apply_eq]
  logLevel := foldl_setting fun s o => by rw [o.apply_eq]
  transport := foldl_setting fun s o => by rw [o.apply_eq]
  enableSdkLogging := by
    refine (foldl_flag fun s o => by rw [o.apply_eq]).trans ?_
    rw [any_eq_mem, Bool.false_or]
  enableMultiNic := by
    have hlowers (s : Settings) (o : ServerOption) : (o.apply s).enableMultiNic =
        (s.enableMultiNic && !decide (o = .disableMultiNic)) := by
      simp [o.apply_eq]
    refine (foldl_lowered hlowers).trans ?_
    rw [any_eq_mem, Bool.true_and, decide_not]
  enableNumaSpread := by
    have hlowers (s : Settings) (o : ServerOption) : (o.apply s).enableNumaSpread =
        (s.enableNumaSpread && !(decide (o = .disableNumaSpread) || o.group?.isSome)) := by
      simp [o.apply_eq, Bool.and_assoc]
    refine (foldl_lowered hlowers).trans ?_
    rw [Bool.true_and, Bool.eq_iff_iff, decide_eq_true_iff, lastGiven_eq_none_iff]
    simp only [Bool.not_eq_true', List.any_eq_false, Bool.or_eq_true, decide_eq_true_eq, not_or,
      Option.not_isSome_iff_eq_none]
    exact ⟨fun h => ⟨fun hmem => (h _ hmem).1 rfl, fun o ho => (h o ho).2⟩,
      fun ⟨hnot, hgroup⟩ o ho => ⟨fun heq => hnot (heq ▸ ho), hgroup o ho⟩⟩
  processorGroup := foldl_setting fun s o => by rw [o.apply_eq]
  processorGroupExplicit := by
    rw [isSome_lastGiven]
    exact (foldl_flag fun s o => by rw [o.apply_eq]).trans (Bool.false_or _)
  enableMetricsLogging := by
    have hlowers (s : Settings) (o : ServerOption) : (o.apply s).enableMetricsLogging =
        (s.enableMetricsLogging && !decide (o = .disableMetrics)) := by
      simp [o.apply_eq]
    refine (foldl_lowered hlowers).trans ?_
    rw [any_eq_mem, Bool.true_and, decide_not]
  metricsEndpoint := foldl_setting fun s o => by rw [o.apply_eq]
  instrumentationKey := foldl_setting fun s o => by rw [o.apply_eq]
  configFilePath := foldl_setting fun s o => by rw [o.apply_eq]

/-! What the environment sets. -/

theorem overrideHost_eq (env : String → Text) (s : Settings) : overrideHost env s =
    { s with
      host := if s.hostExplicit then s.host else (fromEnv env "KV_BIND_IP").getD s.host } := by
  unfold overrideHost
  by_cases hexplicit : s.hostExplicit = true
  · rw [if_pos hexplicit, if_pos hexplicit]
  · rw [if_neg hexplicit, if_neg hexplicit, fromEnv]
    by_cases h : env "KV_BIND_IP" = []
    · rw [if_pos h, if_pos h]
      rfl
    · rw [if_neg h, if_neg h]
      rfl

theorem overridePort_eq (env : String → Text) (s : Settings) : overridePort env s =
    { s with port := if s.portExplicit then s.port else (envPort env).getD s.port } := by
  unfold overridePort envPort
  by_cases hexplicit : s.portExplicit = true
  · rw [if_pos hexplicit, if_pos hexplicit]
  · rw [if_neg hexplicit, if_neg hexplicit]
    cases tryParseInt (env "KV_PORT") with
    | none => rfl
    | some port =>
      dsimp only [Option.filter]
      by_cases h : 0 < port ∧ port ≤ 65535
      · rw [if_pos h, if_pos (decide_eq_true h)]
        rfl
      · rw [if_neg h, if_neg (by simpa using h)]
        rfl

theorem overrideGroup_eq (env : String → Text) (s : Settings) : overrideGroup env s =
    { s with
      processorGroup :=
        if s.processorGroupExplicit then s.processorGroup else (envGroup env).getD s.processorGroup
      enableNumaSpread := s.enableNumaSpread &&
        (s.processorGroupExplicit || decide (∀ group ∈ envGroup env, group < 0)) } := by
  unfold overrideGroup envGroup
  by_cases hexplicit : s.processorGroupExplicit = true
  · have hor (b : Bool) : (s.processorGroupExplicit || b) = true := by simp [hexplicit]
    rw [if_pos hexplicit, if_pos hexplicit, hor, Bool.and_true]
  · have hor (b : Bool) : (s.processorGroupExplicit || b) = b := by simp [hexplicit]
    rw [if_neg hexplicit, if_neg hexplicit, hor]
    cases tryParseInt (env "KV_PROCESSOR_GROUP") with
    | none =>
      have hall : decide (∀ group ∈ (none : Option Int), group < 0) = true := by simp
      rw [hall, Bool.and_true]
      rfl
    | some group =>
      have hall : decide (∀ g ∈ some group, g < 0) = decide (group < 0) := by simp
      rw [hall]
      by_cases h : 0 ≤ group
      · simp only [h, if_true, Int.not_lt.mpr h, decide_false, Bool.and_false, Option.getD_some]
      · simp only [h, if_false, Int.not_le.mp h, decide_true, Bool.and_true, Option.getD_some]

/-- The fields of a configuration make it up. -/
theorem configOf_get (config : ServiceConfig) : configOf (fun field => field.get config) = config :=
  rfl

theorem fileAccepted_iff (configFilePath : Text) {json : Text} : FileAccepted json ↔
    json ≠ [] ∧ FileConfigProvider.Accepted (.create configFilePath) json := by
  refine and_congr_right fun _ => ⟨fun h => ⟨fun f hf => ?_, ?_⟩, fun h => ⟨fun f hf => ?_, ?_⟩⟩
  · have hne := h.1 f hf
    cases hfield : FileConfigProvider.fieldOf json f with
    | none => simp [hfield] at hne
    | some value => exact ⟨value, rfl, by simpa [hfield] using hne⟩
  · cases hfield : FileConfigProvider.fieldOf json .domainSuffix with
    | none => exact List.cons_ne_nil _ _
    | some value => exact fun hnil => h.2 (by rw [hfield, ← hnil]; rfl)
  · obtain ⟨value, hvalue, hne⟩ := h.required f hf
    rw [hvalue]
    exact hne
  · intro hnil
    apply h.domainSuffix
    rw [hnil]
    rfl

theorem fromFile_accepted {json : Text} (h : FileAccepted json) (field : ConfigField) :
    fromFile (some json) field = FileConfigProvider.fieldOf json field := by
  have hfilter : (some json).filter (fun json => decide (FileAccepted json)) = some json := by
    simp only [Option.filter, h, decide_true, if_true]
  rw [fromFile, hfilter]
  rfl

/-- A file that is not accepted leaves the default configuration. -/
theorem load_create (configFilePath : Text) (content : Option Text) :
    ∃ loaded p, (FileConfigProvider.create configFilePath).load content = .ok (loaded, p) ∧
      (if loaded then p.getConfig else .initial) =
        configOf fun field => (fromFile content field).getD (field.get .initial) := by
  obtain ⟨loaded, p, hload, hcases⟩ :=
    FileConfigProvider.load_cases (.create configFilePath) content
  refine ⟨loaded, p, hload, ?_⟩
  cases hcases with
  | unread hcontent _ =>
    have hnone (field : ConfigField) : fromFile content field = none := by
      rcases hcontent with rfl | rfl
      · rfl
      · simp [fromFile, FileAccepted]
    simp only [hnone, Option.getD_none, configOf_get]
    rfl
  | @refused json _ hne hnot _ =>
    have hrefused : ¬ FileAccepted json := fun h => hnot ((fileAccepted_iff configFilePath).mp h).2
    have hnone (field : ConfigField) : fromFile (some json) field = none := by
      simp [fromFile, hrefused]
    simp only [hnone, Option.getD_none, configOf_get]
    rfl
  | @accepted json _ hne hacc hwritten =>
    have haccepted : FileAccepted json := (fileAccepted_iff configFilePath).mpr ⟨hne, hacc⟩
    have hfound : ∀ f ∈ ConfigField.required, FileConfigProvider.fieldOf json f ≠ none := by
      intro f hf
      obtain ⟨value, hvalue, -⟩ := hacc.required f hf
      rw [hvalue]
      exact Option.some_ne_none value
    have hfile (field : ConfigField) : (fromFile (some json) field).getD (field.get .initial) =
        field.get p.config_ := by
      have hfield : FileConfigProvider.written json field =
          FileConfigProvider.fieldOf json field := by
        rw [FileConfigProvider.written, if_pos]
        exact fun f hf => hfound f ((List.takeWhile_prefix _).mem hf)
      have hget := hwritten field
      rw [hfield] at hget
      rw [fromFile_accepted haccepted, hget]
      rfl
    simp only [hfile, configOf_get]
    rfl

/-- Each field comes from the environment, or else from the file, or else it is the default. -/
theorem loadServiceConfig_eq (env : String → Text) (configFilePath : Text)
    (content : Option Text) :
    loadServiceConfig env configFilePath content = .ok (configOf (configField env content)) := by
  obtain ⟨loaded, p, hload, hconfig⟩ := load_create configFilePath content
  have hfield (field : ConfigField) : configField env content field =
      if env field.envName = [] then (fromFile content field).getD (field.get .initial)
      else env field.envName := by
    unfold configField fromEnv
    by_cases h : env field.envName = [] <;> simp [h]
  unfold loadServiceConfig
  rw [hload]
  simp only [bind, Except.bind, pure, Except.pure]
  rw [hconfig]
  simp only [configOf, hfield, ConfigField.envName]
  by_cases h1 : env "KV_CURRENT_LOCATION" = [] <;>
    by_cases h2 : env "KV_CONFIGURATION_STORE" = [] <;>
    by_cases h3 : env "KV_CONFIGURATION_CONTAINER" = [] <;>
    by_cases h4 : env "KV_DOMAIN_SUFFIX" = [] <;>
    simp only [h1, h2, h3, h4, if_true, if_false]

/-- The settings after the environment. -/
theorem SettledBy.override (h : SettledBy opts s) : overrideFromEnv env s =
    { s with
      host := ((lastGiven ServerOption.host? opts).or (fromEnv env "KV_BIND_IP")).getD
        "0.0.0.0".toList
      port := ((lastGiven ServerOption.port? opts).or (envPort env)).getD 50051
      processorGroup := ((lastGiven ServerOption.group? opts).or (envGroup env)).getD (-1)
      enableNumaSpread := decide (ServerOption.disableNumaSpread ∉ opts ∧
        lastGiven ServerOption.group? opts = none ∧ ∀ group ∈ envGroup env, group < 0) } := by
  have hhost : (if s.hostExplicit then s.host else (fromEnv env "KV_BIND_IP").getD s.host) =
      ((lastGiven ServerOption.host? opts).or (fromEnv env "KV_BIND_IP")).getD
        "0.0.0.0".toList := by
    rw [h.hostExplicit, h.host]
    cases lastGiven ServerOption.host? opts <;> rfl
  have hport : (if s.portExplicit then s.port else (envPort env).getD s.port) =
      ((lastGiven ServerOption.port? opts).or (envPort env)).getD 50051 := by
    rw [h.portExplicit, h.port]
    cases lastGiven ServerOption.port? opts <;> rfl
  have hgroup : (if s.processorGroupExplicit then s.processorGroup
      else (envGroup env).getD s.processorGroup) =
      ((lastGiven ServerOption.group? opts).or (envGroup env)).getD (-1) := by
    rw [h.processorGroupExplicit, h.processorGroup]
    cases lastGiven ServerOption.group? opts <;> rfl
  have hspread : (s.enableNumaSpread &&
      (s.processorGroupExplicit || decide (∀ group ∈ envGroup env, group < 0))) =
      decide (ServerOption.disableNumaSpread ∉ opts ∧ lastGiven ServerOption.group? opts = none ∧
        ∀ group ∈ envGroup env, group < 0) := by
    rw [h.enableNumaSpread, h.processorGroupExplicit]
    cases lastGiven ServerOption.group? opts <;> simp [Bool.decide_and]
  rw [overrideFromEnv, overrideHost_eq, overridePort_eq, overrideGroup_eq, hhost]
  dsimp only
  rw [hport, hgroup, hspread]

/-- A command line of accepted options. -/
theorem serverSettings_line (files : Text → Option Text) (hopts : ∀ o ∈ opts, o.Accepted) :
    serverSettings env files (line ServerOption.words opts) =
      if (configOf (configField env (files (configPath opts)))).isValid = false then
        .error (.exit 1)
      else .ok (effectiveRun env opts (configOf (configField env (files (configPath opts))))) := by
  have hparse : parse readArg (line ServerOption.words opts) {} =
      .ok (opts.foldl ServerOption.apply {}) :=
    serverGrammar.parse_ok_iff.mpr ⟨opts, hopts, rfl, rfl⟩
  have hs := settled_foldl opts
  generalize opts.foldl ServerOption.apply {} = s at hparse hs
  have hpath : (FileConfigProvider.create s.configFilePath).configFilePath_ = configPath opts := by
    rw [hs.configFilePath]
    rfl
  have hmetrics : (if s.metricsEndpoint ≠ [] ∧ s.instrumentationKey ≠ [] then
      some (s.metricsEndpoint, s.instrumentationKey) else none) =
      (effectiveRun env opts (configOf (configField env (files (configPath opts))))).metrics := by
    rw [hs.metricsEndpoint, hs.instrumentationKey, effectiveRun]
    dsimp only
    rcases lastGiven ServerOption.endpoint? opts with _ | _ | ⟨a, endpoint⟩ <;>
      rcases lastGiven ServerOption.key? opts with _ | _ | ⟨b, key⟩ <;> simp
  unfold serverSettings
  rw [hparse]
  dsimp only
  rw [hs.override]
  dsimp only
  rw [loadServiceConfig_eq, hpath, hmetrics, hs.logLevel, hs.transport, hs.enableSdkLogging,
    hs.enableMultiNic, hs.enableMetricsLogging, hs.numThreads]
  rfl

end

/-- What is handed on to `RunServer` before the processor group is looked at. -/
theorem serverSettings_ok_iff {env : String → Text} {files : Text → Option Text}
    {args : List String} {r : ServerRun} :
    serverSettings env files args = .ok r ↔
      ∃ opts : List ServerOption, (∀ o ∈ opts, o.Accepted) ∧
        args = line ServerOption.words opts ∧
        (configOf (configField env (files (configPath opts)))).isValid = true ∧
        r = effectiveRun env opts (configOf (configField env (files (configPath opts)))) := by
  constructor
  · intro h
    cases hparse : parse readArg args {} with
    | error e =>
      rw [serverSettings, hparse] at h
      cases h
    | ok s =>
      obtain ⟨opts, hopts, rfl, -⟩ := serverGrammar.parse_ok_iff.mp hparse
      rw [serverSettings_line files hopts] at h
      cases hvalid : (configOf (configField env (files (configPath opts)))).isValid with
      | false =>
        rw [if_pos hvalid] at h
        cases h
      | true =>
        rw [if_neg (by simp [hvalid])] at h
        exact ⟨opts, hopts, rfl, hvalid, (Except.ok.inj h).symm⟩
  · rintro ⟨opts, hopts, rfl, hvalid, rfl⟩
    rw [serverSettings_line files hopts, if_neg (by simp [hvalid])]

/-- A processor group that is asked for exists, and the system moves the main thread to it. -/
def GroupAvailable (groups : ProcessorGroups) (group : Int) : Prop :=
  0 ≤ group → group < groups.groupCount.toNat ∧
    groups.setThreadGroupAffinity (UInt16.ofNat group.toNat) = true

theorem pinToProcessorGroup_iff {groups : ProcessorGroups} {group : Int} :
    pinToProcessorGroup groups group = true ↔ GroupAvailable groups group := by
  unfold pinToProcessorGroup GroupAvailable
  by_cases hneg : group < 0
  · rw [if_pos hneg]
    exact iff_of_true rfl fun h => absurd hneg (Int.not_lt.mpr h)
  · rw [if_neg hneg]
    have hpos : 0 ≤ group := Int.not_lt.mp hneg
    by_cases hcount : groups.groupCount = 0
    · rw [if_pos hcount]
      refine iff_of_false Bool.false_ne_true fun h => ?_
      have hlt := (h hpos).1
      rw [hcount] at hlt
      exact hneg hlt
    · rw [if_neg hcount]
      by_cases hle : (groups.groupCount.toNat : Int) ≤ group
      · rw [if_pos hle]
        exact iff_of_false Bool.false_ne_true fun h => absurd (h hpos).1 (Int.not_lt.mpr hle)
      · rw [if_neg hle]
        exact ⟨fun h _ => ⟨Int.not_le.mp hle, h⟩, fun h => (h hpos).2⟩

theorem serverStart_ok_iff {env : String → Text} {files : Text → Option Text}
    {groups : Option ProcessorGroups} {args : List String} {r : ServerRun} :
    serverStart env files groups args = .ok r ↔
      serverSettings env files args = .ok r ∧
        ∀ windows ∈ groups, GroupAvailable windows r.processorGroup := by
  unfold serverStart
  cases serverSettings env files args with
  | error e => simp
  | ok r' =>
    cases groups with
    | none => simp
    | some windows =>
      have hall : (∀ w ∈ some windows, GroupAvailable w r.processorGroup) ↔
          GroupAvailable windows r.processorGroup := by simp
      rw [hall]
      dsimp only
      by_cases hpos : 0 ≤ r'.processorGroup
      · rw [if_pos hpos]
        by_cases hpin : pinToProcessorGroup windows r'.processorGroup = true
        · rw [if_pos hpin]
          refine ⟨fun h => ⟨h, ?_⟩, And.left⟩
          rw [← Except.ok.inj h]
          exact pinToProcessorGroup_iff.mp hpin
        · rw [if_neg hpin]
          refine ⟨fun h => (by cases h), fun h => absurd (pinToProcessorGroup_iff.mpr ?_) hpin⟩
          rw [Except.ok.inj h.1]
          exact h.2
      · rw [if_neg hpos]
        refine ⟨fun h => ⟨h, fun hpos' => absurd ?_ hpos⟩, And.left⟩
        rwa [Except.ok.inj h]

/-- Without a processor group that is asked for, `main` ends with exit code 1. -/
theorem serverStart_error {env : String → Text} {files : Text → Option Text}
    {groups : Option ProcessorGroups} {args : List String} {ending : Ending}
    (h : serverStart env files groups args = .error ending) :
    serverSettings env files args = .error ending ∨ ending = .exit 1 := by
  unfold serverStart at h
  cases hsettings : serverSettings env files args with
  | error e =>
    rw [hsettings] at h
    exact Or.inl h
  | ok r =>
    rw [hsettings] at h
    dsimp only at h
    split at h
    · cases h
    · split at h
      · split at h
        · cases h
        · exact Or.inr (Except.error.inj h).symm
      · cases h

/-- **When the server is run, and with what.** -/
theorem server_runs_iff (env : String → Text) (files : Text → Option Text)
    (groups : Option ProcessorGroups) (args : List String) (r : ServerRun) :
    serverStart env files groups args = .ok r ↔
      ∃ opts : List ServerOption, (∀ o ∈ opts, o.Accepted) ∧
        args = line ServerOption.words opts ∧
        (configOf (configField env (files (configPath opts)))).isValid = true ∧
        r = effectiveRun env opts (configOf (configField env (files (configPath opts)))) ∧
        ∀ windows ∈ groups, GroupAvailable windows r.processorGroup := by
  rw [serverStart_ok_iff, serverSettings_ok_iff]
  constructor
  · rintro ⟨⟨opts, hopts, hargs, hvalid, hr⟩, hgroup⟩
    exact ⟨opts, hopts, hargs, hvalid, hr, hgroup⟩
  · rintro ⟨opts, hopts, hargs, hvalid, hr, hgroup⟩
    exact ⟨⟨opts, hopts, hargs, hvalid, hr⟩, hgroup⟩

/-- A command line that is read ends `main` for an invalid configuration only, or for a processor
group. -/
theorem serverStart_parse {env : String → Text} {files : Text → Option Text}
    {groups : Option ProcessorGroups} {args : List String} {ending : Ending}
    (h : serverStart env files groups args = .error ending) :
    parse readArg args {} = .error ending ∨ ending = .exit 1 := by
  refine (serverStart_error h).elim (fun hsettings => ?_) Or.inr
  cases hparse : parse readArg args {} with
  | error e =>
    rw [serverSettings, hparse] at hsettings
    cases hsettings
    exact Or.inl rfl
  | ok s =>
    obtain ⟨opts, hopts, rfl, -⟩ := serverGrammar.parse_ok_iff.mp hparse
    rw [serverSettings_line files hopts] at hsettings
    cases hvalid : (configOf (configField env (files (configPath opts)))).isValid with
    | false =>
      rw [if_pos hvalid] at hsettings
      cases hsettings
      exact Or.inr rfl
    | true =>
      rw [if_neg (by simp [hvalid])] at hsettings
      cases hsettings

theorem serverStart_of_parse {env : String → Text} {files : Text → Option Text}
    {groups : Option ProcessorGroups} {args : List String} {ending : Ending}
    (h : parse readArg args {} = .error ending) :
    serverStart env files groups args = .error ending := by
  rw [serverStart, serverSettings, h]

/-! ## How `main` ends -/

/-- `RunServer` comes to its end: the config store could not be connected to, the server could not
be started, or it was shut down. -/
def ServerOutside.Returns (outside : ServerOutside) (r : ServerRun) : Prop :=
  outside.resolver.connect ≠ none ∨
    outside.buildAndStart r.serverAddress (outside.numThreads r) = .ok false ∨
    outside.buildAndStart r.serverAddress (outside.numThreads r) = .ok true ∧
      outside.wait = .ok ()

theorem runServer_ok_iff {outside : ServerOutside} {r : ServerRun}
    (hvalid : r.serviceConfig.isValid = true) :
    runServer outside r = .ok () ↔ outside.Returns r := by
  have hnot : ¬ r.serviceConfig.isValid = false := by simp [hvalid]
  unfold runServer StorageDatabaseResolver.initializeConfigStoreClient ServerOutside.Returns
  rw [if_neg Bool.false_ne_true, if_neg hnot]
  cases hconnect : outside.resolver.connect with
  | some what => simp
  | none =>
    dsimp only
    cases hstart : outside.buildAndStart r.serverAddress (outside.numThreads r) with
    | error what => simp
    | ok started => cases started <;> simp

theorem serverMain_exit_zero_iff {env : String → Text} {files : Text → Option Text}
    {outside : ServerOutside} {args : List String} :
    serverMain env files outside args = .exit 0 ↔
      serverStart env files outside.groups args = .error (.exit 0) ∨
        ∃ r, serverStart env files outside.groups args = .ok r ∧ outside.Returns r := by
  unfold serverMain
  cases hstart : serverStart env files outside.groups args with
  | error ending => simp
  | ok r =>
    have hreturns : runServer outside r = .ok () ↔ outside.Returns r := by
      obtain ⟨opts, -, -, hvalid, rfl⟩ := serverSettings_ok_iff.mp (serverStart_ok_iff.mp hstart).1
      exact runServer_ok_iff hvalid
    dsimp only
    cases hrun : runServer outside r with
    | error what =>
      rw [hrun] at hreturns
      refine iff_of_false (by simp) ?_
      rintro (h | ⟨r', hr', h⟩)
      · cases h
      · cases hr'
        cases hreturns.mpr h
    | ok =>
      rw [hrun] at hreturns
      exact iff_of_true rfl (Or.inr ⟨r, rfl, hreturns.mp rfl⟩)

theorem serverMain_uncaught_iff {env : String → Text} {files : Text → Option Text}
    {outside : ServerOutside} {args : List String} {e : StdError} :
    serverMain env files outside args = .uncaught e ↔
      serverStart env files outside.groups args = .error (.uncaught e) := by
  unfold serverMain
  cases serverStart env files outside.groups args with
  | error ending => simp
  | ok r =>
    dsimp only
    cases runServer outside r <;> simp

/-- **How `main` ends.** With exit code 0 behind accepted options that are followed by a request for
help, and when `RunServer` has returned; with an exception behind accepted options that are followed
by a numeric option whose value is no number; and otherwise with exit code 1. -/
theorem server_stops_iff (env : String → Text) (files : Text → Option Text)
    (outside : ServerOutside) (args : List String) :
    (serverMain env files outside args = .exit 0 ↔
      (∃ (opts : List ServerOption) (arg : String) (rest : List String),
        (∀ o ∈ opts, o.Accepted) ∧ args = line ServerOption.words opts ++ arg :: rest ∧
          (arg = "--help" ∨ arg = "-h")) ∨
      ∃ r, serverStart env files outside.groups args = .ok r ∧ outside.Returns r) ∧
      (∀ e, serverMain env files outside args = .uncaught e ↔
        ∃ (opts : List ServerOption) (arg number : String) (rest : List String),
          (∀ o ∈ opts, o.Accepted) ∧ args = line ServerOption.words opts ++ arg :: number :: rest ∧
            arg ∈ ["--port", "--threads", "--processor-group"] ∧
            stoi number.toList = .error e) ∧
      ∀ code, serverMain env files outside args = .exit code → code = 0 ∨ code = 1 := by
  refine ⟨?_, fun e => ?_, fun code h => ?_⟩
  · refine serverMain_exit_zero_iff.trans (or_congr_left ⟨fun h => ?_, ?_⟩)
    · have hparse := (serverStart_parse h).resolve_right (by simp)
      obtain ⟨opts, arg, rest, hopts, rfl, hstop⟩ := serverGrammar.parse_error_iff.mp hparse
      exact ⟨opts, arg, rest, hopts, rfl, readArg_help_iff.mp hstop⟩
    · rintro ⟨opts, arg, rest, hopts, rfl, hhelp⟩
      apply serverStart_of_parse
      exact serverGrammar.parse_error_iff.mpr
        ⟨opts, arg, rest, hopts, rfl, readArg_help_iff.mpr hhelp⟩
  · refine serverMain_uncaught_iff.trans ⟨fun h => ?_, ?_⟩
    · have hparse := (serverStart_parse h).resolve_right (by simp)
      obtain ⟨opts, arg, rest, hopts, rfl, hstop⟩ := serverGrammar.parse_error_iff.mp hparse
      obtain ⟨harg, number, hnext, he⟩ := readArg_uncaught_iff.mp hstop
      obtain ⟨rest, rfl⟩ := List.head?_eq_some_iff.mp hnext
      exact ⟨opts, arg, number, rest, hopts, rfl, harg, he⟩
    · rintro ⟨opts, arg, number, rest, hopts, rfl, harg, he⟩
      apply serverStart_of_parse
      exact serverGrammar.parse_error_iff.mpr
        ⟨opts, arg, number :: rest, hopts, rfl, readArg_uncaught_iff.mpr ⟨harg, number, rfl, he⟩⟩
  · unfold serverMain at h
    cases hstart : serverStart env files outside.groups args with
    | ok r =>
      rw [hstart] at h
      dsimp only at h
      cases hrun : runServer outside r with
      | ok =>
        rw [hrun] at h
        exact Or.inl (Ending.exit.inj h).symm
      | error what =>
        rw [hrun] at h
        exact Or.inr (Ending.exit.inj h).symm
    | error ending =>
      rw [hstart] at h
      obtain rfl : ending = .exit code := h
      rcases serverStart_parse hstart with hparse | hexit
      · obtain ⟨opts, arg, rest, -, -, hstop⟩ := serverGrammar.parse_error_iff.mp hparse
        have hreads := readArg_cases (opts.foldl ServerOption.apply {}) arg rest.head?
        rw [hstop] at hreads
        cases hreads with
        | help => exact Or.inl rfl
        | other => exact Or.inr rfl
      · exact Or.inr (Ending.exit.inj hexit)

end KVStore
