import KVStore.AccountResolver
import KVStore.ConfigText
import KVStore.Lib.TextReplace

/-!
# The configuration of the service (`FileConfigProvider`)

`Load` writes the fields that it finds into the configuration in use, one at a time, and returns at
the first required one that is missing; only then does it look at whether the result is valid. An
optional field that the file does not have keeps the value of an earlier file. `load_cases`: what a
load does. `loads_atomic_iff`: in which sequences of loads every load is atomic and forgets the
loads before it.
-/

namespace KVStore

open TextSearch

deriving instance DecidableEq for ServiceConfig

/-! ## `ExtractStringValue` -/

/-- The two passes that replace escapes. -/
def unescape (value : Text) : Text :=
  let value := replaceLoop '\\' '"' '"' value.length value 0
  replaceLoop '\\' '\\' '\\' value.length value 0

namespace FileConfigProvider

def extractStringValue (json key : Text) : Except StdError (Option Text) :=
  match find json (searchKey key) 0 with
  | none => .ok none
  | some keyPos =>
    match find json [':'] (keyPos + (searchKey key).length) with
    | none => .ok none
    | some colonPos =>
      match find json ['"'] (colonPos + 1) with
      | none => .ok none
      | some startQuote => do
        let endQuote ← closingQuote json json.length (startQuote + 1)
        if json.length ≤ endQuote then return none
        else
          let value ← substrAt json (startQuote + 1) (sizeSub (sizeSub endQuote startQuote) 1)
          return some (unescape value)

end FileConfigProvider

/-! ## The provider -/

/-- The configuration of a new provider. -/
def ServiceConfig.initial : ServiceConfig where
  currentLocation := []
  configurationStore := []
  configurationContainer := []

structure FileConfigProvider where
  configFilePath_ : Text
  config_ : ServiceConfig := .initial
  lastError_ : Text := []
  isLoaded_ : Bool := false
deriving DecidableEq

/-- The fields that a file can give. -/
inductive ConfigField
  | currentLocation
  | configurationStore
  | configurationContainer
  | domainSuffix
deriving DecidableEq

namespace ConfigField

def name : ConfigField → Text
  | currentLocation => "currentLocation".toList
  | configurationStore => "configurationStore".toList
  | configurationContainer => "configurationContainer".toList
  | domainSuffix => "domainSuffix".toList

@[simp] def get (config : ServiceConfig) : ConfigField → Text
  | currentLocation => config.currentLocation
  | configurationStore => config.configurationStore
  | configurationContainer => config.configurationContainer
  | domainSuffix => config.domainSuffix

@[simp] def set (config : ServiceConfig) (value : Text) : ConfigField → ServiceConfig
  | currentLocation => { config with currentLocation := value }
  | configurationStore => { config with configurationStore := value }
  | configurationContainer => { config with configurationContainer := value }
  | domainSuffix => { config with domainSuffix := value }

/-- The required fields, in the order of the code. -/
def required : List ConfigField := [currentLocation, configurationStore, configurationContainer]

end ConfigField

namespace FileConfigProvider

def create (configFilePath : Text) : FileConfigProvider where
  configFilePath_ := if configFilePath = [] then "service-config.json".toList else configFilePath

def getConfig (p : FileConfigProvider) : ServiceConfig := p.config_

/-- The checks for the required fields, up to the first that the text does not have. -/
def parseRequired (json : Text) :
    List ConfigField → FileConfigProvider → Except StdError (Bool × FileConfigProvider)
  | [], p => .ok (true, p)
  | field :: fields, p => do
    match ← extractStringValue json field.name with
    | none =>
      return (false, { p with lastError_ := "Missing required field: ".toList ++ field.name })
    | some value => parseRequired json fields { p with config_ := field.set p.config_ value }

def parseJson (p : FileConfigProvider) (jsonContent : Text) :
    Except StdError (Bool × FileConfigProvider) := do
  match ← parseRequired jsonContent ConfigField.required p with
  | (false, p) => return (false, p)
  | (true, p) =>
    match ← extractStringValue jsonContent ConfigField.domainSuffix.name with
    | some value =>
      return (true, { p with config_ := ConfigField.domainSuffix.set p.config_ value })
    | none => return (true, p)

/-- `content` is what the file holds, if it can be opened. -/
def load (p : FileConfigProvider) (content : Option Text) :
    Except StdError (Bool × FileConfigProvider) :=
  let p := { p with isLoaded_ := false, lastError_ := [] }
  match content with
  | none =>
    .ok (false, { p with
      lastError_ := "Failed to open configuration file: ".toList ++ p.configFilePath_ })
  | some content =>
    if content = [] then
      .ok (false, { p with
        lastError_ := "Configuration file is empty: ".toList ++ p.configFilePath_ })
    else do
      match ← p.parseJson content with
      | (false, p) => return (false, p)
      | (true, p) =>
        if p.config_.isValid = false then
          return (false, { p with
            lastError_ := "Invalid configuration: ".toList ++ p.config_.getValidationError })
        else return (true, { p with isLoaded_ := true })

end FileConfigProvider

/-! ## What an extraction gives -/

namespace FileConfigProvider

/-- An extraction never throws. -/
theorem extractStringValue_ok (json key : Text) :
    ∃ value, extractStringValue json key = .ok value := by
  unfold extractStringValue
  split
  · exact ⟨_, rfl⟩
  · split
    · exact ⟨_, rfl⟩
    · split
      · exact ⟨_, rfl⟩
      · next hquote =>
        obtain ⟨t, s, rfl, rfl⟩ := split_of_find hquote
        exact ⟨_, readString_eq t s unescape⟩

/-- What the text gives for a field. -/
def fieldOf (json : Text) (field : ConfigField) : Option Text :=
  match extractStringValue json field.name with
  | .ok value => value
  | .error _ => none

theorem extractStringValue_eq (json : Text) (field : ConfigField) :
    extractStringValue json field.name = .ok (fieldOf json field) := by
  obtain ⟨value, hvalue⟩ := extractStringValue_ok json field.name
  rw [fieldOf, hvalue]

/-! ## What a load writes -/

/-- The field that a parse writes: it stops at the first required one that is missing. -/
def written (json : Text) (field : ConfigField) : Option Text :=
  if ∀ f ∈ ConfigField.required.takeWhile (· ≠ field), fieldOf json f ≠ none then
    fieldOf json field
  else none

/-- `p'` holds what a parse by `p` has written. -/
def Written (json : Text) (p p' : FileConfigProvider) : Prop :=
  ∀ field : ConfigField, field.get p'.config_ = (written json field).getD (field.get p.config_)

/-- The text has the required fields, and the configuration is then valid. -/
structure Accepted (p : FileConfigProvider) (json : Text) : Prop where
  required : ∀ f ∈ ConfigField.required, ∃ value, fieldOf json f = some value ∧ value ≠ []
  domainSuffix : (fieldOf json .domainSuffix).getD p.config_.domainSuffix ≠ []

/-- The five ways through a parse: one for each required field that may be missing first, and with
or without the optional one. -/
theorem parseJson_spec (p : FileConfigProvider) (json : Text) :
    ∃ r p', p.parseJson json = .ok (r, p') ∧ Written json p p' ∧
      (r = true ↔ ∀ f ∈ ConfigField.required, fieldOf json f ≠ none) := by
  simp only [parseJson, ConfigField.required, parseRequired, extractStringValue_eq]
  cases h1 : fieldOf json .currentLocation with
  | none =>
    refine ⟨_, _, rfl, ?_, by simp [h1]⟩
    intro field
    cases field <;> simp [written, ConfigField.required, h1]
  | some location =>
    cases h2 : fieldOf json .configurationStore with
    | none =>
      refine ⟨_, _, rfl, ?_, by simp [h2]⟩
      intro field
      cases field <;> simp [written, ConfigField.required, h1, h2]
    | some store =>
      cases h3 : fieldOf json .configurationContainer with
      | none =>
        refine ⟨_, _, rfl, ?_, by simp [h3]⟩
        intro field
        cases field <;> simp [written, ConfigField.required, h1, h2, h3]
      | some container =>
        cases h4 : fieldOf json .domainSuffix with
        | none =>
          refine ⟨_, { p with config_ := ⟨location, store, container, p.config_.domainSuffix⟩ },
            rfl, ?_, by simp [h1, h2, h3]⟩
          intro field
          cases field <;> simp [written, ConfigField.required, h1, h2, h3, h4]
        | some domain =>
          refine ⟨_, { p with config_ := ⟨location, store, container, domain⟩ }, rfl, ?_,
            by simp [h1, h2, h3]⟩
          intro field
          cases field <;> simp [written, ConfigField.required, h1, h2, h3, h4]

/-- What a load does. -/
inductive Loaded (p : FileConfigProvider) : Option Text → Bool → FileConfigProvider → Prop
  | unread {content : Option Text} {p' : FileConfigProvider}
      (hcontent : content = none ∨ content = some []) (config : p'.config_ = p.config_) :
      Loaded p content false p'
  | refused {json : Text} {p' : FileConfigProvider} (hne : json ≠ []) (h : ¬ Accepted p json)
      (config : Written json p p') : Loaded p (some json) false p'
  | accepted {json : Text} {p' : FileConfigProvider} (hne : json ≠ []) (h : Accepted p json)
      (config : Written json p p') : Loaded p (some json) true p'

/-- With the required fields found, the configuration is what the text gives for them. -/
theorem Written.required {json : Text} {p p' : FileConfigProvider} (h : Written json p p')
    (hfound : ∀ f ∈ ConfigField.required, fieldOf json f ≠ none) {field : ConfigField}
    (hfield : field ∈ ConfigField.required) : fieldOf json field = some (field.get p'.config_) := by
  obtain ⟨value, hvalue⟩ := Option.ne_none_iff_exists'.mp (hfound field hfield)
  have hwritten : written json field = some value := by
    rw [written, if_pos, hvalue]
    exact fun f hf => hfound f ((List.takeWhile_prefix _).mem hf)
  rw [h field, hwritten, hvalue]
  rfl

theorem Written.domainSuffix {json : Text} {p p' : FileConfigProvider} (h : Written json p p')
    (hfound : ∀ f ∈ ConfigField.required, fieldOf json f ≠ none) :
    p'.config_.domainSuffix = (fieldOf json .domainSuffix).getD p.config_.domainSuffix := by
  have hwritten : written json .domainSuffix = fieldOf json .domainSuffix := by
    rw [written, if_pos]
    exact fun f hf => hfound f ((List.takeWhile_prefix _).mem hf)
  rw [← hwritten]
  exact h .domainSuffix

/-- The check at the end says whether the text is accepted. -/
theorem isValid_iff {json : Text} {p p' : FileConfigProvider} (h : Written json p p')
    (hfound : ∀ f ∈ ConfigField.required, fieldOf json f ≠ none) :
    p'.config_.isValid = true ↔ Accepted p json := by
  have hdomain := h.domainSuffix hfound
  constructor
  · intro hvalid
    simp only [ServiceConfig.isValid, decide_eq_true_eq] at hvalid
    refine ⟨fun field hfield => ⟨_, h.required hfound hfield, ?_⟩, hdomain ▸ hvalid.2.2.2⟩
    simp only [ConfigField.required, List.mem_cons, List.not_mem_nil, or_false] at hfield
    rcases hfield with rfl | rfl | rfl
    · exact hvalid.1
    · exact hvalid.2.1
    · exact hvalid.2.2.1
  · intro hacc
    have hget (field : ConfigField) (hfield : field ∈ ConfigField.required) :
        field.get p'.config_ ≠ [] := by
      obtain ⟨value, hvalue, hne⟩ := hacc.required field hfield
      rw [h.required hfound hfield] at hvalue
      exact Option.some.inj hvalue ▸ hne
    simp only [ServiceConfig.isValid, decide_eq_true_eq]
    exact ⟨hget .currentLocation (by decide), hget .configurationStore (by decide),
      hget .configurationContainer (by decide), hdomain ▸ hacc.domainSuffix⟩

theorem load_cases (p : FileConfigProvider) (content : Option Text) :
    ∃ r p', p.load content = .ok (r, p') ∧ Loaded p content r p' := by
  unfold load
  cases content with
  | none => exact ⟨_, _, rfl, .unread (.inl rfl) rfl⟩
  | some json =>
    by_cases hne : json = []
    · subst hne
      exact ⟨_, _, rfl, .unread (.inr rfl) rfl⟩
    · obtain ⟨r, p', hparse, hwritten, hr⟩ :=
        parseJson_spec { p with isLoaded_ := false, lastError_ := [] } json
      simp only [hne, if_false, hparse]
      have hacc (h : Accepted p json) : ∀ f ∈ ConfigField.required, fieldOf json f ≠ none := by
        intro f hf
        obtain ⟨value, hvalue, -⟩ := h.required f hf
        rw [hvalue]
        exact Option.some_ne_none value
      cases r with
      | false =>
        refine ⟨_, _, rfl, .refused hne (fun h => ?_) hwritten⟩
        exact absurd (hr.mpr (hacc h)) Bool.false_ne_true
      | true =>
        have hvalid := isValid_iff hwritten (hr.mp rfl)
        simp only [bind, Except.bind]
        split
        · next hv =>
          refine ⟨_, _, rfl, .refused hne (fun h => ?_) hwritten⟩
          rw [hvalid.mpr ⟨h.required, h.domainSuffix⟩] at hv
          cases hv
        · next hv =>
          have h := hvalid.mp (eq_true_of_ne_false hv)
          exact ⟨_, _, rfl, .accepted hne ⟨h.required, h.domainSuffix⟩ hwritten⟩

/-! ## Sequences of loads -/

/-- A sequence of loads: for each one the provider before it, and what the file then holds. No load
throws (`load_cases`). -/
def loads (p : FileConfigProvider) :
    List (Option Text) → List (FileConfigProvider × Option Text)
  | [] => []
  | content :: contents =>
    (p, content) ::
      match p.load content with
      | .ok (_, p') => loads p' contents
      | .error _ => []

/-- Every load of the sequence takes place. -/
theorem loads_contents (p : FileConfigProvider) (contents : List (Option Text)) :
    (loads p contents).map Prod.snd = contents := by
  induction contents generalizing p with
  | nil => rfl
  | cons content contents ih =>
    obtain ⟨r, p', hload, -⟩ := load_cases p content
    rw [loads, hload, List.map_cons]
    exact congrArg _ (ih p')

/-- After the load, if it succeeds, the configuration is the one that a new provider would have
obtained, and if it fails, the one before it. -/
def LoadAtomic (configFilePath : Text) (p : FileConfigProvider) (content : Option Text) : Prop :=
  ∀ r p', p.load content = .ok (r, p') →
    if r then
      ∃ q, (create configFilePath).load content = .ok (true, q) ∧ p'.getConfig = q.getConfig
    else p'.getConfig = p.getConfig

/-- A text that is accepted has the optional field, or the provider still has its default; one that
is not accepted gives the fields before the first missing one the values that they have. -/
structure Harmless (p : FileConfigProvider) (json : Text) : Prop where
  accepted : Accepted p json →
    fieldOf json .domainSuffix ≠ none ∨
      p.config_.domainSuffix = ServiceConfig.initial.domainSuffix
  refused : ¬ Accepted p json →
    ∀ field value, written json field = some value → field.get p.config_ = value

theorem config_ext {config config' : ServiceConfig}
    (h : ∀ field : ConfigField, field.get config = field.get config') : config = config' := by
  obtain ⟨_, _, _, _⟩ := config
  obtain ⟨_, _, _, _⟩ := config'
  obtain rfl := h .currentLocation
  obtain rfl := h .configurationStore
  obtain rfl := h .configurationContainer
  obtain rfl := h .domainSuffix
  rfl

/-- What a parse has written is what was there. -/
theorem Written.config_eq_iff {json : Text} {p p' : FileConfigProvider} (h : Written json p p') :
    p'.config_ = p.config_ ↔
      ∀ field value, written json field = some value → field.get p.config_ = value := by
  constructor
  · intro he field value hvalue
    have hget := h field
    rw [he, hvalue] at hget
    exact hget
  · intro hall
    apply config_ext
    intro field
    rw [h field]
    cases hw : written json field with
    | none => rfl
    | some value => exact (hall field value hw).symm

/-- A new provider accepts what any provider accepts. -/
theorem Accepted.create {p : FileConfigProvider} {json : Text} (h : Accepted p json)
    (configFilePath : Text) : Accepted (create configFilePath) json := by
  refine ⟨h.required, ?_⟩
  have hdomain := h.domainSuffix
  cases hfield : fieldOf json .domainSuffix with
  | none => exact (by decide : ServiceConfig.initial.domainSuffix ≠ [])
  | some value =>
    rw [hfield] at hdomain
    exact hdomain

/-- Two parses of an accepted text can differ in the optional field only. -/
theorem Accepted.config_eq_iff {p p' q q' : FileConfigProvider} {json : Text}
    (h : Accepted p json) (hp : Written json p p') (hq : Written json q q') :
    p'.config_ = q'.config_ ↔
      fieldOf json .domainSuffix ≠ none ∨ p.config_.domainSuffix = q.config_.domainSuffix := by
  have hfound : ∀ f ∈ ConfigField.required, fieldOf json f ≠ none := by
    intro f hf
    obtain ⟨value, hvalue, -⟩ := h.required f hf
    rw [hvalue]
    exact Option.some_ne_none value
  have hdomain : p'.config_.domainSuffix = q'.config_.domainSuffix ↔
      fieldOf json .domainSuffix ≠ none ∨ p.config_.domainSuffix = q.config_.domainSuffix := by
    rw [hp.domainSuffix hfound, hq.domainSuffix hfound]
    cases fieldOf json .domainSuffix with
    | none => simp
    | some value => simp
  have hget {field : ConfigField} (hfield : field ∈ ConfigField.required) :
      field.get p'.config_ = field.get q'.config_ :=
    Option.some.inj ((hp.required hfound hfield).symm.trans (hq.required hfound hfield))
  rw [← hdomain]
  constructor
  · intro he
    rw [he]
  · intro he
    apply config_ext
    intro field
    cases field with
    | domainSuffix => exact he
    | currentLocation | configurationStore | configurationContainer => exact hget (by decide)

/-- One load is atomic exactly when its text is harmless. -/
theorem loadAtomic_step (configFilePath : Text) (p : FileConfigProvider) (content : Option Text) :
    LoadAtomic configFilePath p content ↔
      ∀ json, content = some json → json ≠ [] → Harmless p json := by
  obtain ⟨r, p', hload, hcases⟩ := load_cases p content
  have hiff : LoadAtomic configFilePath p content ↔
      if r then
        ∃ q, (FileConfigProvider.create configFilePath).load content = .ok (true, q) ∧
          p'.config_ = q.config_
      else p'.config_ = p.config_ := by
    constructor
    · intro h
      exact h r p' hload
    · intro h r₁ p₁ hload₁
      rw [hload] at hload₁
      cases hload₁
      exact h
  rw [hiff]
  cases hcases with
  | unread hcontent config =>
    refine ⟨fun _ json hjson hne => ?_, fun _ => config⟩
    rcases hcontent with rfl | rfl
    · cases hjson
    · exact absurd (Option.some.inj hjson).symm hne
  | refused hne hno config =>
    refine Iff.trans config.config_eq_iff ⟨fun h json hjson _ => ?_, fun h => ?_⟩
    · obtain rfl := Option.some.inj hjson
      exact ⟨fun hacc => absurd hacc hno, fun _ => h⟩
    · exact (h _ rfl hne).refused hno
  | accepted hne hacc config =>
    obtain ⟨r₀, q, hfresh, hcases⟩ :=
      load_cases (FileConfigProvider.create configFilePath) (some _)
    cases hcases with
    | unread hcontent =>
      rcases hcontent with h | h
      · cases h
      · exact absurd (Option.some.inj h) hne
    | refused _ hno => exact absurd (hacc.create configFilePath) hno
    | accepted _ _ config' =>
      have hdomain := hacc.config_eq_iff config config'
      constructor
      · rintro ⟨q', hq', he⟩ json hjson -
        obtain rfl := Option.some.inj hjson
        rw [hfresh] at hq'
        cases hq'
        exact ⟨fun _ => hdomain.mp he, fun h => absurd hacc h⟩
      · intro h
        exact ⟨q, hfresh, hdomain.mpr ((h _ rfl hne).accepted hacc)⟩

/-- In which sequences of loads every load is atomic and depends on its own text only. -/
theorem loads_atomic_iff (configFilePath : Text) (contents : List (Option Text)) :
    (∀ l ∈ loads (create configFilePath) contents, LoadAtomic configFilePath l.1 l.2) ↔
      ∀ l ∈ loads (create configFilePath) contents,
        ∀ json, l.2 = some json → json ≠ [] → Harmless l.1 json := by
  constructor
  · intro hall l hl
    exact (loadAtomic_step configFilePath l.1 l.2).mp (hall l hl)
  · intro hall l hl
    exact (loadAtomic_step configFilePath l.1 l.2).mpr (hall l hl)

/-! ### Two files -/

/-- A text with the required fields, and `more` behind them. -/
def sampleText (more : Text) : Text :=
  "\x7b\"currentLocation\":\"w\",\"configurationStore\":\"s\",".toList ++
    ("\"configurationContainer\":\"c\"".toList ++ (more ++ "\x7d".toList))

def sampleSuffix : Text := ",\"domainSuffix\":\".d\"".toList

/-- The provider after a load of the text with the suffix. -/
def sampleProvider : FileConfigProvider where
  configFilePath_ := "f".toList
  config_ := ⟨"w".toList, "s".toList, "c".toList, ".d".toList⟩
  isLoaded_ := true

/-- A load of a text without the optional field keeps the suffix of the file before it. -/
theorem loads_keep_suffix :
    ¬ ∀ (configFilePath : Text) (contents : List (Option Text)),
      ∀ l ∈ loads (create configFilePath) contents, LoadAtomic configFilePath l.1 l.2 := by
  intro h
  have hfirst : (create "f".toList).load (some (sampleText sampleSuffix)) =
      .ok (true, sampleProvider) := by
    decide +kernel
  have hsecond : sampleProvider.load (some (sampleText [])) = .ok (true, sampleProvider) := by
    decide +kernel
  have hfresh : (create "f".toList).load (some (sampleText [])) =
      .ok (true, { sampleProvider with
        config_ := ⟨"w".toList, "s".toList, "c".toList, ".blob.core.windows.net".toList⟩ }) := by
    decide +kernel
  have hmem : (sampleProvider, some (sampleText [])) ∈
      loads (create "f".toList) [some (sampleText sampleSuffix), some (sampleText [])] := by
    rw [loads, hfirst]
    exact List.mem_cons_of_mem _ List.mem_cons_self
  obtain ⟨q, hq, he⟩ := h _ _ _ hmem true sampleProvider hsecond
  rw [hfresh] at hq
  cases hq
  exact absurd he (by decide)

end FileConfigProvider

end KVStore
