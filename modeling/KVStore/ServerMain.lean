import KVStore.FileConfig
import KVStore.Lib.Options

/-!
# Start of the server (`server.cpp`)

`main` reads its settings from the command line, then from the environment, and the configuration
of the service from a file and the environment; on Windows it moves its thread to a processor group.
Then `RunServer` connects to the config store and starts the server. `serverGrammar`: the options
that the loop over the arguments knows.
-/

namespace KVStore

open Options

inductive LogLevel
  | Error
  | Information
  | Verbose
deriving DecidableEq

inductive HttpTransportProtocol
  | WinHTTP
  | LibCurl
deriving DecidableEq

/-- `std::stoi`, with the text behind the number. -/
def stoi (s : Text) : Except StdError (Int × Text) :=
  let s := s.dropWhile isSpace
  let negative := s.head? = some '-'
  let s := if s.head? = some '-' ∨ s.head? = some '+' then s.tail else s
  let digits := s.takeWhile Char.isDigit
  if digits = [] then .error .invalidArgument
  else
    let value : Int := Nat.ofDigitChars 10 digits 0
    let value := if negative then -value else value
    if value < -2147483648 ∨ 2147483647 < value then .error .outOfRange
    else .ok (value, s.dropWhile Char.isDigit)

def tryParseInt (value : Text) : Option Int :=
  if value = [] then none
  else
    match stoi value with
    | .ok (parsed, rest) => if rest = [] then some parsed else none
    | .error _ => none

/-! ## The command line -/

/-- What `main` reads from the command line. -/
structure Settings where
  host : Text := "0.0.0.0".toList
  port : Int := 50051
  numThreads : Int := 0
  logLevel : LogLevel := .Information
  transport : HttpTransportProtocol := .LibCurl
  enableSdkLogging : Bool := false
  enableMultiNic : Bool := true
  enableNumaSpread : Bool := true
  processorGroup : Int := -1
  enableMetricsLogging : Bool := true
  metricsEndpoint : Text := []
  instrumentationKey : Text := []
  configFilePath : Text := "service-config.json".toList
  hostExplicit : Bool := false
  portExplicit : Bool := false
  processorGroupExplicit : Bool := false

/-- How `main` ends: with an exit code, or with an exception of `std::stoi` that nothing catches. -/
inductive Ending
  | exit (code : Int)
  | uncaught (e : StdError)
deriving DecidableEq

/-- One turn of the loop over the arguments; `next` is the argument behind `arg`. -/
def readArg (s : Settings) (arg : String) (next : Option String) : Options.Step Settings Ending :=
  if arg = "--help" ∨ arg = "-h" then .stop (.exit 0)
  else if arg = "--config" ∧ next.isSome then
    .pair { s with configFilePath := (next.getD "").toList }
  else if arg = "--port" ∧ next.isSome then
    match stoi (next.getD "").toList with
    | .ok (port, _) => .pair { s with port, portExplicit := true }
    | .error e => .stop (.uncaught e)
  else if arg = "--host" ∧ next.isSome then
    .pair { s with host := (next.getD "").toList, hostExplicit := true }
  else if arg = "--threads" ∧ next.isSome then
    match stoi (next.getD "").toList with
    | .ok (numThreads, _) => .pair { s with numThreads }
    | .error e => .stop (.uncaught e)
  else if arg = "--log-level" ∧ next.isSome then
    if next = some "error" then .pair { s with logLevel := .Error }
    else if next = some "info" then .pair { s with logLevel := .Information }
    else if next = some "verbose" then .pair { s with logLevel := .Verbose }
    else .stop (.exit 1)
  else if arg = "--transport" ∧ next.isSome then
    if next = some "winhttp" then .pair { s with transport := .WinHTTP }
    else if next = some "libcurl" then .pair { s with transport := .LibCurl }
    else .stop (.exit 1)
  else if arg = "--enable-sdk-logging" then .word { s with enableSdkLogging := true }
  else if arg = "--disable-multi-nic" then .word { s with enableMultiNic := false }
  else if arg = "--disable-numa-spread" then .word { s with enableNumaSpread := false }
  else if arg = "--processor-group" ∧ next.isSome then
    match stoi (next.getD "").toList with
    | .ok (processorGroup, _) =>
      .pair { s with processorGroup, enableNumaSpread := false, processorGroupExplicit := true }
    | .error e => .stop (.uncaught e)
  else if arg = "--disable-metrics" then .word { s with enableMetricsLogging := false }
  else if arg = "--metrics-endpoint" ∧ next.isSome then
    .pair { s with metricsEndpoint := (next.getD "").toList }
  else if arg = "--instrumentation-key" ∧ next.isSome then
    .pair { s with instrumentationKey := (next.getD "").toList }
  else .stop (.exit 1)

/-- An option, with its value as it is written. -/
inductive ServerOption
  | config (file : String)
  | port (number : String)
  | host (name : String)
  | threads (number : String)
  | logLevel (level : String)
  | transport (name : String)
  | enableSdkLogging
  | disableMultiNic
  | disableNumaSpread
  | processorGroup (number : String)
  | disableMetrics
  | metricsEndpoint (endpoint : String)
  | instrumentationKey (key : String)
deriving DecidableEq

def readLogLevel (level : String) : Option LogLevel :=
  if level = "error" then some .Error
  else if level = "info" then some .Information
  else if level = "verbose" then some .Verbose
  else none

def readTransport (name : String) : Option HttpTransportProtocol :=
  if name = "winhttp" then some .WinHTTP
  else if name = "libcurl" then some .LibCurl
  else none

/-- The number at the start of a text. -/
def readNumber (number : String) : Option Int :=
  match stoi number.toList with
  | .ok (value, _) => some value
  | .error _ => none

/-- Text behind a number is accepted on the command line, and not in the environment. -/
example : readNumber "80abc" = some 80 ∧ tryParseInt "80abc".toList = none := by decide

namespace ServerOption

def words : ServerOption → Words String
  | config file => .pair "--config" file
  | port number => .pair "--port" number
  | host name => .pair "--host" name
  | threads number => .pair "--threads" number
  | logLevel level => .pair "--log-level" level
  | transport name => .pair "--transport" name
  | enableSdkLogging => .word "--enable-sdk-logging"
  | disableMultiNic => .word "--disable-multi-nic"
  | disableNumaSpread => .word "--disable-numa-spread"
  | processorGroup number => .pair "--processor-group" number
  | disableMetrics => .word "--disable-metrics"
  | metricsEndpoint endpoint => .pair "--metrics-endpoint" endpoint
  | instrumentationKey key => .pair "--instrumentation-key" key

/-- The value can be read. -/
def Accepted : ServerOption → Prop
  | port number | threads number | processorGroup number => readNumber number ≠ none
  | logLevel level => readLogLevel level ≠ none
  | transport name => readTransport name ≠ none
  | _ => True

/-- What an option sets; a value that cannot be read sets nothing. -/
def apply (s : Settings) : ServerOption → Settings
  | config file => { s with configFilePath := file.toList }
  | port number =>
    match readNumber number with
    | some n => { s with port := n, portExplicit := true }
    | none => s
  | host name => { s with host := name.toList, hostExplicit := true }
  | threads number =>
    match readNumber number with
    | some n => { s with numThreads := n }
    | none => s
  | logLevel level =>
    match readLogLevel level with
    | some l => { s with logLevel := l }
    | none => s
  | transport name =>
    match readTransport name with
    | some t => { s with transport := t }
    | none => s
  | enableSdkLogging => { s with enableSdkLogging := true }
  | disableMultiNic => { s with enableMultiNic := false }
  | disableNumaSpread => { s with enableNumaSpread := false }
  | processorGroup number =>
    match readNumber number with
    | some n =>
      { s with processorGroup := n, enableNumaSpread := false, processorGroupExplicit := true }
    | none => s
  | disableMetrics => { s with enableMetricsLogging := false }
  | metricsEndpoint endpoint => { s with metricsEndpoint := endpoint.toList }
  | instrumentationKey key => { s with instrumentationKey := key.toList }

end ServerOption

section

variable {s s' : Settings} {arg value : String} {next : Option String}

/-- What a turn of the loop makes of an argument. -/
inductive ReadsArg (s : Settings) (arg : String) (next : Option String) :
    Options.Step Settings Ending → Prop
  | word (o : ServerOption) (ho : o.Accepted) (hw : o.words = .word arg) :
      ReadsArg s arg next (.word (o.apply s))
  | pair (o : ServerOption) (value : String) (ho : o.Accepted) (hnext : next = some value)
      (hw : o.words = .pair arg value) : ReadsArg s arg next (.pair (o.apply s))
  | help (h : arg = "--help" ∨ arg = "-h") : ReadsArg s arg next (.stop (.exit 0))
  | number (value : String) (e : StdError)
      (harg : arg ∈ ["--port", "--threads", "--processor-group"])
      (hnext : next = some value) (he : stoi value.toList = .error e) :
      ReadsArg s arg next (.stop (.uncaught e))
  | other : ReadsArg s arg next (.stop (.exit 1))

/-- A numeric option: the number is read, or the exception leaves `main`. -/
theorem readsArg_number (o : ServerOption) {key : String} {set : Int → Settings}
    (hkey : key ∈ ["--port", "--threads", "--processor-group"])
    (hw : o.words = .pair key value) (ho : o.Accepted ↔ readNumber value ≠ none)
    (hset : ∀ n, readNumber value = some n → o.apply s = set n) :
    ReadsArg s key (some value)
      (match stoi value.toList with
        | .ok (n, _) => .pair (set n)
        | .error e => .stop (.uncaught e)) := by
  cases hstoi : stoi value.toList with
  | error e => exact .number value e hkey rfl hstoi
  | ok r =>
    have hread : readNumber value = some r.1 := by rw [readNumber, hstoi]
    have hpair := ReadsArg.pair (s := s) o value (ho.mpr (by simp [hread])) rfl hw
    rwa [hset r.1 hread] at hpair

theorem ReadsArg.ite {c : Prop} [Decidable c] {x y : Options.Step Settings Ending}
    (hx : c → ReadsArg s arg next x) (hy : ReadsArg s arg next y) :
    ReadsArg s arg next (if c then x else y) := by
  by_cases h : c
  · rw [if_pos h]
    exact hx h
  · rw [if_neg h]
    exact hy

/-- An option with a value, as the loop tests for it. -/
theorem ReadsArg.valued {key : String} {x y : Options.Step Settings Ending}
    (hx : ∀ value, next = some value → ReadsArg s key (some value) x)
    (hy : ReadsArg s arg next y) :
    ReadsArg s arg next (if arg = key ∧ next.isSome then x else y) := by
  refine .ite (fun h => ?_) hy
  obtain ⟨rfl, hnext⟩ := h
  obtain ⟨value, hvalue⟩ := Option.isSome_iff_exists.mp hnext
  rw [hvalue]
  exact hx value hvalue

theorem readArg_cases (s : Settings) (arg : String) (next : Option String) :
    ReadsArg s arg next (readArg s arg next) := by
  unfold readArg
  refine .ite .help ?_
  refine .valued ?_ ?_
  · rintro value rfl
    exact .pair (.config value) value trivial rfl rfl
  refine .valued ?_ ?_
  · rintro value rfl
    exact readsArg_number (.port value) (by simp) rfl Iff.rfl fun n hn => by
      simp only [ServerOption.apply, hn]
  refine .valued ?_ ?_
  · rintro value rfl
    exact .pair (.host value) value trivial rfl rfl
  refine .valued ?_ ?_
  · rintro value rfl
    exact readsArg_number (.threads value) (by simp) rfl Iff.rfl fun n hn => by
      simp only [ServerOption.apply, hn]
  refine .valued ?_ ?_
  · rintro value rfl
    have hlevel (level : LogLevel) (h : readLogLevel value = some level) :
        ReadsArg s "--log-level" (some value) (.pair { s with logLevel := level }) := by
      have hpair := ReadsArg.pair (s := s) (.logLevel value) value
        (by simp [ServerOption.Accepted, h]) rfl rfl
      simpa only [ServerOption.apply, h] using hpair
    refine .ite (fun h => ?_) (.ite (fun h => ?_) (.ite (fun h => ?_) .other))
    · exact hlevel .Error (by rw [Option.some.inj h]; rfl)
    · exact hlevel .Information (by rw [Option.some.inj h]; rfl)
    · exact hlevel .Verbose (by rw [Option.some.inj h]; rfl)
  refine .valued ?_ ?_
  · rintro value rfl
    have htransport (t : HttpTransportProtocol) (h : readTransport value = some t) :
        ReadsArg s "--transport" (some value) (.pair { s with transport := t }) := by
      have hpair := ReadsArg.pair (s := s) (.transport value) value
        (by simp [ServerOption.Accepted, h]) rfl rfl
      simpa only [ServerOption.apply, h] using hpair
    refine .ite (fun h => ?_) (.ite (fun h => ?_) .other)
    · exact htransport .WinHTTP (by rw [Option.some.inj h]; rfl)
    · exact htransport .LibCurl (by rw [Option.some.inj h]; rfl)
  refine .ite (fun h => .word .enableSdkLogging trivial (h ▸ rfl)) ?_
  refine .ite (fun h => .word .disableMultiNic trivial (h ▸ rfl)) ?_
  refine .ite (fun h => .word .disableNumaSpread trivial (h ▸ rfl)) ?_
  refine .valued ?_ ?_
  · rintro value rfl
    exact readsArg_number (.processorGroup value) (by simp) rfl Iff.rfl fun n hn => by
      simp only [ServerOption.apply, hn]
  refine .ite (fun h => .word .disableMetrics trivial (h ▸ rfl)) ?_
  refine .valued ?_ ?_
  · rintro value rfl
    exact .pair (.metricsEndpoint value) value trivial rfl rfl
  refine .valued ?_ .other
  rintro value rfl
  exact .pair (.instrumentationKey value) value trivial rfl rfl

/-- An option is read as what it is. -/
theorem readArg_option (s : Settings) (o : ServerOption) (ho : o.Accepted) :
    match o.words with
    | .word arg => ∀ next, readArg s arg next = .word (o.apply s)
    | .pair arg value => readArg s arg (some value) = .pair (o.apply s) := by
  cases o with
  | config file => simp [ServerOption.words, readArg, ServerOption.apply]
  | host name => simp [ServerOption.words, readArg, ServerOption.apply]
  | metricsEndpoint endpoint => simp [ServerOption.words, readArg, ServerOption.apply]
  | instrumentationKey key => simp [ServerOption.words, readArg, ServerOption.apply]
  | enableSdkLogging => simp [ServerOption.words, readArg, ServerOption.apply]
  | disableMultiNic => simp [ServerOption.words, readArg, ServerOption.apply]
  | disableNumaSpread => simp [ServerOption.words, readArg, ServerOption.apply]
  | disableMetrics => simp [ServerOption.words, readArg, ServerOption.apply]
  | port number | threads number | processorGroup number =>
    simp only [ServerOption.Accepted, readNumber] at ho
    cases hstoi : stoi number.toList with
    | error e => simp [hstoi] at ho
    | ok r => simp [ServerOption.words, readArg, ServerOption.apply, readNumber, hstoi]
  | logLevel level =>
    obtain ⟨l, hl⟩ := Option.ne_none_iff_exists'.mp ho
    simp only [ServerOption.words, ServerOption.apply, hl]
    unfold readLogLevel at hl
    by_cases h1 : level = "error"
    · simp [h1] at hl
      simp [readArg, h1, hl]
    · by_cases h2 : level = "info"
      · simp [h2] at hl
        simp [readArg, h2, hl]
      · have h3 : level = "verbose" ∧ LogLevel.Verbose = l := by simpa [h1, h2] using hl
        simp [readArg, h3]
  | transport name =>
    obtain ⟨t, ht⟩ := Option.ne_none_iff_exists'.mp ho
    simp only [ServerOption.words, ServerOption.apply, ht]
    unfold readTransport at ht
    by_cases h1 : name = "winhttp"
    · simp [h1] at ht
      simp [readArg, h1, ht]
    · have h2 : name = "libcurl" ∧ HttpTransportProtocol.LibCurl = t := by simpa [h1] using ht
      simp [readArg, h2]

/-- What the loop over the arguments knows. -/
theorem serverGrammar :
    Grammar readArg ServerOption.words ServerOption.apply ServerOption.Accepted where
  word_iff := by
    intro s arg next s'
    constructor
    · intro h
      have hreads := readArg_cases s arg next
      rw [h] at hreads
      cases hreads with
      | word o ho hw => exact ⟨o, ho, hw, rfl⟩
    · rintro ⟨o, ho, hw, rfl⟩
      have hoption := readArg_option s o ho
      rw [hw] at hoption
      exact hoption next
  pair_iff := by
    intro s arg next s'
    constructor
    · intro h
      have hreads := readArg_cases s arg next
      rw [h] at hreads
      cases hreads with
      | pair o value ho hnext hw => exact ⟨o, value, ho, hnext, hw, rfl⟩
    · rintro ⟨o, value, ho, rfl, hw, rfl⟩
      have hoption := readArg_option s o ho
      rwa [hw] at hoption

theorem readArg_help_iff :
    readArg s arg next = .stop (.exit 0) ↔ arg = "--help" ∨ arg = "-h" := by
  constructor
  · intro h
    have hreads := readArg_cases s arg next
    rw [h] at hreads
    cases hreads with
    | help hhelp => exact hhelp
  · intro h
    rw [readArg, if_pos h]

theorem readArg_uncaught_iff {e : StdError} :
    readArg s arg next = .stop (.uncaught e) ↔
      arg ∈ ["--port", "--threads", "--processor-group"] ∧
        ∃ number, next = some number ∧ stoi number.toList = .error e := by
  constructor
  · intro h
    have hreads := readArg_cases s arg next
    rw [h] at hreads
    cases hreads with
    | number number _ harg hnext he => exact ⟨harg, number, hnext, he⟩
  · rintro ⟨harg, number, rfl, he⟩
    simp only [List.mem_cons, List.not_mem_nil, or_false] at harg
    rcases harg with rfl | rfl | rfl <;> simp [readArg, he]

end

/-! ## `main` -/

/-- `std::to_string` on an `int`. -/
def intToText (n : Int) : Text :=
  if n < 0 then '-' :: Nat.toDigits 10 n.natAbs else Nat.toDigits 10 n.natAbs

/-- What the server runs with: the arguments of `RunServer`, the endpoint and key that the metrics
are initialized with, and the processor group for the main thread. -/
structure ServerRun where
  serverAddress : Text
  serviceConfig : ServiceConfig
  logLevel : LogLevel
  transport : HttpTransportProtocol
  enableSdkLogging : Bool
  enableMultiNic : Bool
  enableMetricsLogging : Bool
  numThreads : Int
  enableNumaSpread : Bool
  metrics : Option (Text × Text)
  processorGroup : Int
deriving DecidableEq

/-! The environment, for the settings that were not explicit; `env` is `GetEnvVar`. -/

def overrideHost (env : String → Text) (s : Settings) : Settings :=
  if s.hostExplicit then s
  else if env "KV_BIND_IP" = [] then s
  else { s with host := env "KV_BIND_IP" }

def overridePort (env : String → Text) (s : Settings) : Settings :=
  if s.portExplicit then s
  else
    match tryParseInt (env "KV_PORT") with
    | some envPort => if 0 < envPort ∧ envPort ≤ 65535 then { s with port := envPort } else s
    | none => s

def overrideGroup (env : String → Text) (s : Settings) : Settings :=
  if s.processorGroupExplicit then s
  else
    match tryParseInt (env "KV_PROCESSOR_GROUP") with
    | some envGroup =>
      { s with
        processorGroup := envGroup
        enableNumaSpread := if 0 ≤ envGroup then false else s.enableNumaSpread }
    | none => s

def overrideFromEnv (env : String → Text) (s : Settings) : Settings :=
  overrideGroup env (overridePort env (overrideHost env s))

/-- The file first, and the environment over it. `content` is what the file holds. -/
def loadServiceConfig (env : String → Text) (configFilePath : Text) (content : Option Text) :
    Except StdError ServiceConfig := do
  let (loaded, provider) ← (FileConfigProvider.create configFilePath).load content
  let config := if loaded then provider.getConfig else .initial
  let config := if env "KV_CURRENT_LOCATION" = [] then config
    else { config with currentLocation := env "KV_CURRENT_LOCATION" }
  let config := if env "KV_CONFIGURATION_STORE" = [] then config
    else { config with configurationStore := env "KV_CONFIGURATION_STORE" }
  let config := if env "KV_CONFIGURATION_CONTAINER" = [] then config
    else { config with configurationContainer := env "KV_CONFIGURATION_CONTAINER" }
  return if env "KV_DOMAIN_SUFFIX" = [] then config
    else { config with domainSuffix := env "KV_DOMAIN_SUFFIX" }

/-- `main` up to its `try`, on the arguments behind the name of the program. -/
def serverSettings (env : String → Text) (files : Text → Option Text) (args : List String) :
    Except Ending ServerRun :=
  match parse readArg args {} with
  | .error e => .error e
  | .ok s =>
    let s := overrideFromEnv env s
    let provider := FileConfigProvider.create s.configFilePath
    match loadServiceConfig env s.configFilePath (files provider.configFilePath_) with
    | .error e => .error (.uncaught e)
    | .ok serviceConfig =>
      if serviceConfig.isValid = false then .error (.exit 1)
      else
        .ok {
          serverAddress := s.host ++ ':' :: intToText s.port
          serviceConfig
          logLevel := s.logLevel
          transport := s.transport
          enableSdkLogging := s.enableSdkLogging
          enableMultiNic := s.enableMultiNic
          enableMetricsLogging := s.enableMetricsLogging
          numThreads := s.numThreads
          enableNumaSpread := s.enableNumaSpread
          metrics :=
            if s.metricsEndpoint ≠ [] ∧ s.instrumentationKey ≠ [] then
              some (s.metricsEndpoint, s.instrumentationKey)
            else none
          processorGroup := s.processorGroup }

/-- The processor groups of a Windows machine: `GetActiveProcessorGroupCount`, and whether
`SetThreadGroupAffinity` succeeds for a group. -/
structure ProcessorGroups where
  groupCount : UInt16
  setThreadGroupAffinity : UInt16 → Bool

def pinToProcessorGroup (groups : ProcessorGroups) (groupIndex : Int) : Bool :=
  if groupIndex < 0 then true
  else if groups.groupCount = 0 then false
  else if groups.groupCount.toNat ≤ groupIndex then false
  else groups.setThreadGroupAffinity (UInt16.ofNat groupIndex.toNat)

/-- What `main` calls `RunServer` with, or how it ends before; only a build for Windows (`some`)
looks at the processor group. -/
def serverStart (env : String → Text) (files : Text → Option Text)
    (groups : Option ProcessorGroups) (args : List String) : Except Ending ServerRun :=
  match serverSettings env files args with
  | .error e => .error e
  | .ok r =>
    match groups with
    | none => .ok r
    | some groups =>
      if 0 ≤ r.processorGroup then
        if pinToProcessorGroup groups r.processorGroup then .ok r else .error (.exit 1)
      else .ok r

/-- What happens outside `main`: what the resolver meets, `GetTotalProcessorCount`, whether gRPC
starts a server at an address and with so many threads, and how the server ends. An exception is
given by its text. -/
structure ServerOutside where
  groups : Option ProcessorGroups
  resolver : Outside
  totalProcessorCount : Int
  buildAndStart : Text → Int → Except Text Bool
  wait : Except Text Unit

/-- The thread count of the server. -/
def ServerOutside.numThreads (outside : ServerOutside) (r : ServerRun) : Int :=
  if r.numThreads ≤ 0 then outside.totalProcessorCount else r.numThreads

/-- `RunServer`, which returns in the same way when it could not start a server. -/
def runServer (outside : ServerOutside) (r : ServerRun) : Except Text Unit :=
  match StorageDatabaseResolver.initializeConfigStoreClient { serviceConfig := r.serviceConfig }
      outside.resolver { more := {} } with
  | (false, _) => .ok ()
  | (true, _) =>
    match outside.buildAndStart r.serverAddress (outside.numThreads r) with
    | .error what => .error what
    | .ok false => .ok ()
    | .ok true => outside.wait

def serverMain (env : String → Text) (files : Text → Option Text) (outside : ServerOutside)
    (args : List String) : Ending :=
  match serverStart env files outside.groups args with
  | .error ending => ending
  | .ok r =>
    match runServer outside r with
    | .ok () => .exit 0
    | .error _ => .exit 1

end KVStore
