import KVStore.Types
import KVStore.Lib.TextSearch
import Mathlib.Data.List.Forall2

/-!
# The `additionalversions` text (`ParseAdditionalVersions`, `SerializeAdditionalVersions`)

The additional versions of a block are kept as JSON text in the metadata of its blob. The writer
prints the list, and the parser finds its way by substring searches and offsets.
`parse_serialize`: reading back what was written gives the same list, for every list whose
locations have no quote and no closing brace before their last character; every location that the
parser itself returns is of that kind (`plainLocation_of_parse`).
-/

namespace KVStore

open TextSearch

structure AdditionalVersion where
  hash : Hash
  parentHash : Hash
  location : Text
deriving DecidableEq, Repr

/-! ## Parser -/

/-- `obj.find(key) + width`. Where `find` fails it gives `npos`, the largest 64-bit value, and the
sum wraps around. -/
def fieldStart (obj key : Text) (width : Nat) : Nat :=
  match find obj key 0 with
  | some p => p + width
  | none => width - 1

/-- `obj.substr(start, obj.find("\"", start) - start)`: up to the next quote, or up to the end
where `find` gives `npos`. `substr` throws when `start` lies past the end. -/
def fieldText (obj : Text) (start : Nat) : Except StdError Text :=
  let count := match find obj ['"'] start with
    | some e => e - start
    | none => obj.length
  match substr obj start count with
  | some text => .ok text
  | none => .error .outOfRange

/-- The body of the parser's loop: one object of the array. -/
def parseVersion (obj : Text) : Except StdError AdditionalVersion := do
  let hashStr ← fieldText obj (fieldStart obj "\"hash\":\"".toList 8)
  let parentStr ← fieldText obj (fieldStart obj "\"parentHash\":\"".toList 14)
  let location ← fieldText obj (fieldStart obj "\"location\":\"".toList 12)
  let hash ← stoull hashStr
  let parentHash ← stoull parentStr
  return { hash, parentHash, location }

/-- The parser's loop from position `pos` on. Every round moves `pos` forward, so the length of the
text is fuel enough (`parseLoop_fuel`). -/
def parseLoop (json : Text) : Nat → Nat → List AdditionalVersion →
    Except StdError (List AdditionalVersion)
  | 0, _, versions => .ok versions
  | fuel + 1, pos, versions =>
    if pos < json.length then
      match find json "\x7b\"hash\":".toList pos with
      | none => .ok versions
      | some start =>
        match find json ['}'] start with
        | none => .ok versions
        | some e => do
          let version ← parseVersion ((json.drop start).take (e - start + 1))
          parseLoop json fuel (e + 1) (versions ++ [version])
    else .ok versions

def parseAdditionalVersions (jsonStr : Text) : Except StdError (List AdditionalVersion) :=
  if jsonStr = [] ∨ jsonStr = "[]".toList then .ok []
  else parseLoop jsonStr jsonStr.length 0 []

/-! ## Printer -/

def serializeVersion (v : AdditionalVersion) : Text :=
  "\x7b\"hash\":\"".toList ++ toText v.hash ++ "\"".toList ++
    ",\"parentHash\":\"".toList ++ toText v.parentHash ++ "\"".toList ++
    ",\"location\":\"".toList ++ v.location ++ "\"\x7d".toList

def serializeAdditionalVersions (versions : List AdditionalVersion) : Text :=
  if versions = [] then "[]".toList
  else "[".toList ++ [','].intercalate (versions.map serializeVersion) ++ "]".toList

/-! ## The parser's loop has fuel enough -/

/-- Fuel beyond the rest of the text changes nothing. -/
theorem parseLoop_fuel (json : Text) : ∀ {fuel pos : Nat} {versions : List AdditionalVersion},
    json.length - pos ≤ fuel →
      parseLoop json (fuel + 1) pos versions = parseLoop json fuel pos versions := by
  intro fuel
  induction fuel with
  | zero =>
    intro pos versions h
    have hend : ¬ pos < json.length := by omega
    simp [parseLoop, hend]
  | succ fuel ih =>
    intro pos versions h
    rw [parseLoop, parseLoop]
    split
    · split
      · rfl
      · next start hstart =>
        split
        · rfl
        · next e he =>
          have hpos := (find_eq_some hstart).1
          have hend := (find_eq_some he).1
          have hnext := fun v => @ih (e + 1) (versions ++ [v]) (by omega)
          simp only [hnext]
    · rfl

/-! ## Objects of the documented form -/

/-- An object up to its location. -/
def objectHead (hash parentHash : Text) : Text :=
  "\x7b\"hash\":\"".toList ++ (hash ++ ("\",\"parentHash\":\"".toList ++
    (parentHash ++ "\",\"location\":\"".toList)))

def objectText (hash parentHash location : Text) : Text :=
  objectHead hash parentHash ++ (location ++ "\"\x7d".toList)

/-- `<digits>`. -/
def IsNumber (s : Text) : Prop := s ≠ [] ∧ ∀ c ∈ s, c.isDigit = true

def hashKey : Text := "\"hash\":\"".toList

def parentHashKey : Text := "\"parentHash\":\"".toList

def locationKey : Text := "\"location\":\"".toList

variable {hash parentHash location : Text}

theorem IsNumber.of_all {s : Text} (hne : s ≠ []) (h : s.all Char.isDigit = true) : IsNumber s :=
  ⟨hne, List.all_eq_true.mp h⟩

theorem IsNumber.notMem {s : Text} (h : IsNumber s) {c : Char} (hc : c.isDigit = false) :
    c ∉ s := by
  intro hm
  rw [h.2 c hm] at hc
  cases hc

theorem IsNumber.isPrefixOf {s t pat : Text} {c : Char} (h : IsNumber s)
    (hc : c.isDigit = false) : (c :: pat).isPrefixOf (s ++ t) = false :=
  isPrefixOf_append_eq_false h.1 (h.notMem hc)

theorem IsNumber.findFrom {s t pat : Text} {c : Char} {i : Nat} (h : IsNumber s)
    (hc : c.isDigit = false) :
    TextSearch.findFrom (c :: pat) (s ++ t) i =
      TextSearch.findFrom (c :: pat) t (i + s.length) :=
  findFrom_append (h.notMem hc)

theorem isNumber_toText (n : UInt64) : IsNumber (toText n) :=
  ⟨toText_ne_nil n, fun _ => isDigit_of_mem_toText⟩

theorem length_objectHead :
    (objectHead hash parentHash).length = 39 + hash.length + parentHash.length := by
  have hkey : ("\x7b\"hash\":\"".toList).length = 9 := rfl
  have hparentKey : ("\",\"parentHash\":\"".toList).length = 16 := rfl
  have hlocationKey : ("\",\"location\":\"".toList).length = 14 := rfl
  unfold objectHead
  simp only [List.length_append]
  omega

theorem notMem_objectHead (hhash : IsNumber hash) (hparent : IsNumber parentHash) :
    '}' ∉ objectHead hash parentHash := by
  unfold objectHead
  simp only [List.mem_append, not_or]
  exact ⟨by decide, hhash.notMem (by decide), by decide, hparent.notMem (by decide), by decide⟩

/-! ### Where the keys stand -/

theorem findFrom_hashKey (hash parentHash tail : Text) (i : Nat) :
    findFrom hashKey (objectHead hash parentHash ++ tail) i = some (i + 1) := by
  unfold objectHead hashKey
  simp [findFrom, List.isPrefixOf]

section objectHead

variable (hhash : IsNumber hash) (hparent : IsNumber parentHash) (tail : Text) (i : Nat)

include hhash in
theorem findFrom_parentHashKey :
    findFrom parentHashKey (objectHead hash parentHash ++ tail) i =
      some (i + 11 + hash.length) := by
  unfold objectHead parentHashKey
  simp [findFrom, List.isPrefixOf, hhash.isPrefixOf, hhash.findFrom]
  omega

include hhash hparent in
theorem findFrom_locationKey :
    findFrom locationKey (objectHead hash parentHash ++ tail) i =
      some (i + 27 + hash.length + parentHash.length) := by
  unfold objectHead locationKey
  simp [findFrom, List.isPrefixOf, hhash.isPrefixOf, hhash.findFrom, hparent.isPrefixOf,
    hparent.findFrom]
  omega

end objectHead

/-- The start of a field whose key does not occur in a part that is skipped. -/
theorem fieldStart_skipped {skipped key s : Text} {width j : Nat} (hkey : '{' ∉ key)
    (hno : ¬ key <:+: skipped)
    (hfind : ∀ i, findFrom key ('{' :: s) i = some (i + j)) :
    fieldStart (skipped ++ '{' :: s) key width = skipped.length + j + width := by
  rw [fieldStart, find_of_le (Nat.zero_le _), List.drop_zero, findFrom_skip hkey hno, hfind,
    Nat.zero_add]

/-! ## Reading one object -/

/-- A location that the parser reads back: no quote, and no closing brace before the last
character. -/
def PlainLocation (location : Text) : Prop :=
  '"' ∉ location ∧ '}' ∉ location.dropLast

theorem fieldText_quote {obj x : Text} {start : Nat} (pre post : Text)
    (hobj : obj = pre ++ (x ++ '"' :: post)) (hstart : start = pre.length) (hx : '"' ∉ x) :
    fieldText obj start = .ok x := by
  subst hobj hstart
  have hfind : find (pre ++ (x ++ '"' :: post)) ['"'] pre.length =
      some (pre.length + x.length) := by
    rw [find_of_le (by simp), List.drop_left, findFrom_append hx]
    exact findFrom_self ['"'] post _
  simp [fieldText, hfind, substr]

theorem fieldText_end {obj x : Text} {start : Nat} (pre : Text)
    (hobj : obj = pre ++ x) (hstart : start = pre.length) (hx : '"' ∉ x) :
    fieldText obj start = .ok x := by
  subst hobj hstart
  have hfind : find (pre ++ x) ['"'] pre.length = none := by
    rw [find_of_le (by simp), List.drop_left, findFrom_none hx]
  simp [fieldText, hfind, substr]

section fields

variable {obj skipped tail : Text} (hhash : IsNumber hash) (hparent : IsNumber parentHash)
  (hkeys : ∀ key ∈ [hashKey, parentHashKey, locationKey], ¬ key <:+: skipped)
  (hobj : obj = skipped ++ (objectHead hash parentHash ++ tail))

include hkeys hobj in
theorem fieldStart_hash : fieldStart obj hashKey 8 = skipped.length + 9 := by
  obtain ⟨s, hs⟩ : ∃ s, objectHead hash parentHash ++ tail = '{' :: s := ⟨_, rfl⟩
  rw [hobj, hs, fieldStart_skipped (j := 1) (by decide) (hkeys _ (by simp))
    fun i => hs ▸ findFrom_hashKey _ _ _ i]

include hhash hkeys hobj in
theorem fieldStart_parentHash :
    fieldStart obj parentHashKey 14 = skipped.length + (25 + hash.length) := by
  obtain ⟨s, hs⟩ : ∃ s, objectHead hash parentHash ++ tail = '{' :: s := ⟨_, rfl⟩
  have hfind : ∀ i, findFrom parentHashKey ('{' :: s) i = some (i + (11 + hash.length)) := by
    intro i
    rw [← hs, findFrom_parentHashKey hhash, Nat.add_assoc]
  rw [hobj, hs, fieldStart_skipped (by decide) (hkeys _ (by simp)) hfind]
  omega

include hhash hparent hkeys hobj in
theorem fieldStart_location :
    fieldStart obj locationKey 12 = skipped.length + (objectHead hash parentHash).length := by
  obtain ⟨s, hs⟩ : ∃ s, objectHead hash parentHash ++ tail = '{' :: s := ⟨_, rfl⟩
  have hfind : ∀ i, findFrom locationKey ('{' :: s) i =
      some (i + (27 + hash.length + parentHash.length)) := by
    intro i
    rw [← hs, findFrom_locationKey hhash hparent]
    congr 1
    omega
  rw [hobj, hs, fieldStart_skipped (by decide) (hkeys _ (by simp)) hfind, length_objectHead]
  omega

include hhash hobj in
theorem fieldText_hash : fieldText obj (skipped.length + 9) = .ok hash := by
  have hquote : "\",\"parentHash\":\"".toList = '"' :: ",\"parentHash\":\"".toList := rfl
  have hkey : ("\x7b\"hash\":\"".toList).length = 9 := rfl
  refine fieldText_quote (skipped ++ "\x7b\"hash\":\"".toList) (",\"parentHash\":\"".toList ++
    (parentHash ++ ("\",\"location\":\"".toList ++ tail))) ?_ ?_ (hhash.notMem (by decide))
  · refine hobj.trans ?_
    unfold objectHead
    rw [hquote]
    simp only [List.append_assoc, List.cons_append]
  · rw [List.length_append, hkey]

include hparent hobj in
theorem fieldText_parentHash :
    fieldText obj (skipped.length + (25 + hash.length)) = .ok parentHash := by
  have hquote : "\",\"location\":\"".toList = '"' :: ",\"location\":\"".toList := rfl
  have hkey : ("\x7b\"hash\":\"".toList).length = 9 := rfl
  have hparentKey : ("\",\"parentHash\":\"".toList).length = 16 := rfl
  refine fieldText_quote (skipped ++ ("\x7b\"hash\":\"".toList ++ (hash ++
    "\",\"parentHash\":\"".toList))) (",\"location\":\"".toList ++ tail) ?_ ?_
    (hparent.notMem (by decide))
  · refine hobj.trans ?_
    unfold objectHead
    rw [hquote]
    simp only [List.append_assoc, List.cons_append]
  · simp only [List.length_append, hkey, hparentKey]
    omega

include hhash hparent hkeys hobj in
/-- The parser reads the values of the object, when it reads the location. -/
theorem parseVersion_object (hlocation : fieldText obj
    (skipped.length + (objectHead hash parentHash).length) = .ok location) :
    parseVersion obj = do
      let hash ← stoull hash
      let parentHash ← stoull parentHash
      return { hash, parentHash, location } := by
  have hhashText : fieldText obj (fieldStart obj hashKey 8) = .ok hash := by
    rw [fieldStart_hash hkeys hobj, fieldText_hash hhash hobj]
  have hparentText : fieldText obj (fieldStart obj parentHashKey 14) = .ok parentHash := by
    rw [fieldStart_parentHash hhash hkeys hobj, fieldText_parentHash hparent hobj]
  have hlocationText : fieldText obj (fieldStart obj locationKey 12) = .ok location := by
    rw [fieldStart_location hhash hparent hkeys hobj, hlocation]
  unfold hashKey at hhashText
  unfold parentHashKey at hparentText
  unfold locationKey at hlocationText
  unfold parseVersion
  rw [hhashText, hparentText, hlocationText]
  rfl

end fields

/-- The first closing brace of an object is its last character, or the last one of its location. The
parser takes the text up to this brace for the object; the last quote and brace of an object whose
location ends in a brace are left over. -/
theorem object_ends (hhash : IsNumber hash) (hparent : IsNumber parentHash)
    (hlocation : PlainLocation location) :
    ∃ body left tail, objectText hash parentHash location = body ++ '}' :: left ∧
      '}' ∉ body ∧ '{' ∉ left ∧ body ++ ['}'] = objectHead hash parentHash ++ tail ∧
      ∀ skipped, fieldText (skipped ++ (body ++ ['}'])) (skipped.length +
        (objectHead hash parentHash).length) = .ok location := by
  have hhead := notMem_objectHead hhash hparent
  obtain ⟨hquote, hbrace⟩ := hlocation
  rcases Decidable.em ('}' ∈ location) with hmem | hmem
  · have hlast : location = location.dropLast ++ ['}'] := by
      have h := List.dropLast_append_getLast (List.ne_nil_of_mem hmem)
      rw [← h] at hmem
      rcases List.mem_append.mp hmem with hm | hm
      · exact absurd hm hbrace
      · rw [List.mem_singleton.mp hm, h]
    refine ⟨objectHead hash parentHash ++ location.dropLast, "\"\x7d".toList, location, ?_, ?_,
      by decide, ?_, fun skipped => ?_⟩
    · unfold objectText
      conv_lhs => rw [hlast]
      simp only [List.append_assoc, List.cons_append, List.nil_append]
    · simp only [List.mem_append, not_or]
      exact ⟨hhead, hbrace⟩
    · rw [List.append_assoc, ← hlast]
    · refine fieldText_end (skipped ++ objectHead hash parentHash) ?_ (List.length_append ..).symm
        hquote
      rw [List.append_assoc, ← hlast, List.append_assoc]
  · refine ⟨objectHead hash parentHash ++ (location ++ ['"']), [], location ++ ['"', '}'], ?_, ?_,
      by simp, ?_, fun skipped => ?_⟩
    · have hclose : "\"\x7d".toList = ['"', '}'] := rfl
      unfold objectText
      rw [hclose]
      simp only [List.append_assoc, List.cons_append, List.nil_append]
    · simp only [List.mem_append, not_or]
      exact ⟨hhead, hmem, by decide⟩
    · simp only [List.append_assoc, List.cons_append, List.nil_append]
    · refine fieldText_quote (skipped ++ objectHead hash parentHash) ['}'] ?_
        (List.length_append ..).symm hquote
      simp only [List.append_assoc, List.cons_append, List.nil_append]

/-- The printed object up to its location. -/
def versionHead (v : AdditionalVersion) : Text :=
  "\x7b\"hash\":\"".toList ++ (toText v.hash ++ ("\",\"parentHash\":\"".toList ++
    (toText v.parentHash ++ "\",\"location\":\"".toList)))

theorem versionHead_eq (v : AdditionalVersion) :
    versionHead v = objectHead (toText v.hash) (toText v.parentHash) := rfl

theorem serializeVersion_eq (v : AdditionalVersion) :
    serializeVersion v = versionHead v ++ (v.location ++ "\"\x7d".toList) := by
  have hparent : "\",\"parentHash\":\"".toList = "\"".toList ++ ",\"parentHash\":\"".toList := rfl
  have hlocation : "\",\"location\":\"".toList = "\"".toList ++ ",\"location\":\"".toList := rfl
  unfold serializeVersion versionHead
  rw [hparent, hlocation]
  simp only [List.append_assoc]

theorem length_versionHead (v : AdditionalVersion) :
    (versionHead v).length = 39 + (toText v.hash).length + (toText v.parentHash).length :=
  length_objectHead

/-! ## Reading the array -/

/-- The parser takes a printed object up to its first closing brace, and reads the version off it. -/
theorem exists_object {v : AdditionalVersion} (hv : PlainLocation v.location) (rest : Text) :
    ∃ obj junk, serializeVersion v ++ rest = obj ++ (junk ++ rest) ∧ '{' ∉ junk ∧
      parseVersion obj = .ok v ∧ obj ≠ [] ∧
      ∀ i, findFrom ['}'] (serializeVersion v ++ rest) i = some (i + obj.length - 1) := by
  have hhash := isNumber_toText v.hash
  have hparent := isNumber_toText v.parentHash
  obtain ⟨body, left, tail, htext, hbody, hleft, hobj, hlocation⟩ := object_ends hhash hparent hv
  have hprinted : serializeVersion v = body ++ '}' :: left := by
    rw [serializeVersion_eq, versionHead_eq]
    exact htext
  have hkeys : ∀ key ∈ [hashKey, parentHashKey, locationKey], ¬ key <:+: [] := by decide
  refine ⟨body ++ ['}'], left, ?_, hleft, ?_, by simp, fun i => ?_⟩
  · rw [hprinted]
    simp only [List.append_assoc, List.cons_append, List.nil_append]
  · rw [parseVersion_object hhash hparent hkeys hobj (hlocation []), stoull_toText,
      stoull_toText]
    rfl
  · rw [hprinted, List.append_assoc, List.cons_append, findFrom_append hbody]
    rw [List.length_append, List.length_singleton]
    exact findFrom_self ['}'] (left ++ rest) _

theorem parseLoop_done {json : Text} {fuel pos : Nat} {versions : List AdditionalVersion}
    (h : '{' ∉ json.drop pos) : parseLoop json fuel pos versions = .ok versions := by
  cases fuel with
  | zero => rfl
  | succ fuel =>
    rw [parseLoop]
    split
    · next hpos =>
      have hnone : find json "\x7b\"hash\":".toList pos = none := by
        rw [find_of_le hpos.le]
        exact findFrom_none h
      rw [hnone]
    · rfl

/-- One round of the parser's loop reads one printed object and skips past it. -/
theorem parseLoop_version {json junk rest : Text} {v : AdditionalVersion} {fuel pos : Nat}
    {versions : List AdditionalVersion} (hv : PlainLocation v.location) (hjunk : '{' ∉ junk)
    (hdrop : json.drop pos = junk ++ (serializeVersion v ++ rest)) :
    ∃ pos' junk', json.drop pos' = junk' ++ rest ∧ '{' ∉ junk' ∧
      parseLoop json (fuel + 1) pos versions = parseLoop json fuel pos' (versions ++ [v]) := by
  obtain ⟨obj, junk', hobj, hjunk', hparse, hne, hend⟩ := exists_object hv rest
  have hlen : json.length = pos + (junk.length + (obj.length + (junk'.length + rest.length))) := by
    have := congrArg List.length hdrop
    rw [hobj] at this
    simp only [List.length_drop, List.length_append] at this
    have hobj' : 0 < obj.length := List.length_pos_of_ne_nil hne
    omega
  have hobj' : 0 < obj.length := List.length_pos_of_ne_nil hne
  have hstart : find json "\x7b\"hash\":".toList pos = some (pos + junk.length) := by
    have hbrace : "\x7b\"hash\":".toList = '{' :: "\"hash\":".toList := rfl
    rw [find_of_le (by omega), hdrop, hbrace, findFrom_append hjunk, serializeVersion_eq]
    unfold versionHead
    exact findFrom_self _ _ _
  have hdrop' : json.drop (pos + junk.length) = obj ++ (junk' ++ rest) := by
    rw [← List.drop_drop, hdrop, List.drop_left, hobj]
  have hclose : find json ['}'] (pos + junk.length) =
      some (pos + junk.length + obj.length - 1) := by
    rw [find_of_le (by omega), hdrop', ← hobj, hend]
  have hcount : pos + junk.length + obj.length - 1 - (pos + junk.length) + 1 = obj.length := by
    omega
  refine ⟨pos + junk.length + obj.length - 1 + 1, junk', ?_, hjunk', ?_⟩
  · have hskip : pos + junk.length + obj.length - 1 + 1 = pos + junk.length + obj.length := by
      omega
    rw [hskip, ← List.drop_drop, hdrop', List.drop_left]
  · rw [parseLoop, if_pos (by omega), hstart]
    simp only [hclose, hcount, hdrop', List.take_left, hparse]
    rfl

theorem parseLoop_serialize {json : Text} : ∀ {vs : List AdditionalVersion} {junk : Text}
    {fuel pos : Nat} {versions : List AdditionalVersion}, (∀ v ∈ vs, PlainLocation v.location) →
    '{' ∉ junk → vs.length ≤ fuel →
    json.drop pos = junk ++ ([','].intercalate (vs.map serializeVersion) ++ "]".toList) →
      parseLoop json fuel pos versions = .ok (versions ++ vs) := by
  intro vs
  induction vs with
  | nil =>
    intro junk fuel pos versions _ hjunk _ hdrop
    rw [parseLoop_done, List.append_nil]
    rw [hdrop]
    simp only [List.mem_append, not_or]
    exact ⟨hjunk, by decide⟩
  | cons v vs ih =>
    intro junk fuel pos versions hplain hjunk hfuel hdrop
    obtain ⟨fuel, rfl⟩ : ∃ f, fuel = f + 1 := ⟨fuel - 1, by simp at hfuel; omega⟩
    have hv := hplain v List.mem_cons_self
    -- what follows the object: nothing, or a comma and the other objects
    obtain ⟨sep, hsep, hrest⟩ : ∃ sep : Text, '{' ∉ sep ∧
        [','].intercalate ((v :: vs).map serializeVersion) =
          serializeVersion v ++ (sep ++ [','].intercalate (vs.map serializeVersion)) := by
      cases vs with
      | nil => exact ⟨[], by simp, by simp [List.intercalate]⟩
      | cons w vs => exact ⟨[','], by decide, by simp [List.intercalate]⟩
    rw [hrest, List.append_assoc] at hdrop
    obtain ⟨pos', junk', hdrop', hjunk', hstep⟩ := parseLoop_version hv hjunk hdrop
    have hnext : json.drop pos' =
        junk' ++ sep ++ ([','].intercalate (vs.map serializeVersion) ++ "]".toList) := by
      rw [hdrop']
      simp only [List.append_assoc]
    have hjunk'' : '{' ∉ junk' ++ sep := by
      simp only [List.mem_append, not_or]
      exact ⟨hjunk', hsep⟩
    rw [hstep, ih (fun w hw => hplain w (List.mem_cons_of_mem _ hw)) hjunk''
      (by simpa using hfuel) hnext, List.append_assoc, List.singleton_append]

theorem length_le_intercalate (vs : List AdditionalVersion) :
    vs.length ≤ ([','].intercalate (vs.map serializeVersion)).length := by
  induction vs with
  | nil => exact Nat.zero_le _
  | cons v vs ih =>
    cases vs with
    | nil =>
      simp only [List.map_cons, List.map_nil, List.intercalate, List.intersperse_singleton,
        List.flatten_cons, List.flatten_nil, List.append_nil, serializeVersion_eq,
        List.length_append, length_versionHead, List.length_singleton]
      omega
    | cons w vs =>
      simp only [List.map_cons, List.intercalate, List.intersperse_cons_cons, List.flatten_cons,
        List.length_append, List.length_cons] at ih ⊢
      omega

theorem serialize_ne_nil (vs : List AdditionalVersion) : serializeAdditionalVersions vs ≠ [] := by
  unfold serializeAdditionalVersions
  split
  · exact List.cons_ne_nil _ _
  · rw [List.append_assoc]
    exact List.cons_ne_nil _ _

/-- **The text round-trips**: the parser returns the list that was printed. -/
theorem parse_serialize {vs : List AdditionalVersion}
    (h : ∀ v ∈ vs, PlainLocation v.location) :
    parseAdditionalVersions (serializeAdditionalVersions vs) = .ok vs := by
  rcases Decidable.em (vs = []) with rfl | hne
  · rfl
  · have hbody := length_le_intercalate vs
    have hpos : 0 < vs.length := List.length_pos_of_ne_nil hne
    have htext : serializeAdditionalVersions vs =
        ['['] ++ ([','].intercalate (vs.map serializeVersion) ++ [']']) := by
      rw [serializeAdditionalVersions, if_neg hne, List.append_assoc]
      rfl
    have hlen := congrArg List.length htext
    simp only [List.length_append, List.length_singleton] at hlen
    have hnot : ¬ (serializeAdditionalVersions vs = [] ∨
        serializeAdditionalVersions vs = "[]".toList) := by
      rintro (he | he)
      · exact serialize_ne_nil vs he
      · have hbrackets : ("[]".toList).length = 2 := rfl
        rw [he] at hlen
        omega
    have hdrop : (serializeAdditionalVersions vs).drop 0 =
        ['['] ++ ([','].intercalate (vs.map serializeVersion) ++ "]".toList) := htext
    rw [parseAdditionalVersions, if_neg hnot,
      parseLoop_serialize h (by decide) (by omega) hdrop, List.nil_append]

/-! ## What the parser returns -/

theorem notMem_dropLast_substr {l : Text} {c : Char} {start count : Nat}
    (h : c ∉ l.dropLast) : c ∉ ((l.drop start).take count).dropLast := by
  intro hm
  apply h
  rw [List.dropLast_eq_take] at hm ⊢
  obtain ⟨i, hi, rfl⟩ := List.mem_take_iff_getElem.mp hm
  simp only [List.length_take, List.length_drop] at hi
  exact List.mem_take_iff_getElem.mpr ⟨start + i, by omega, by simp⟩

theorem plainLocation_of_fieldText {obj text : Text} {start : Nat}
    (h : fieldText obj start = .ok text) (hbrace : '}' ∉ obj.dropLast) : PlainLocation text := by
  unfold fieldText at h
  simp only [substr] at h
  by_cases hpos : start ≤ obj.length
  · simp only [hpos, if_true, Except.ok.injEq] at h
    subst h
    refine ⟨?_, notMem_dropLast_substr hbrace⟩
    cases hfind : find obj ['"'] start with
    | some e => exact find_singleton_eq_some hfind
    | none => exact fun hm => find_singleton_eq_none hfind hpos (List.mem_of_mem_take hm)
  · simp only [hpos, if_false] at h
    cases h

theorem plainLocation_of_parseVersion {obj : Text} {v : AdditionalVersion}
    (h : parseVersion obj = .ok v) (hbrace : '}' ∉ obj.dropLast) : PlainLocation v.location := by
  obtain ⟨hashStr, -, h⟩ := bind_eq_ok h
  obtain ⟨parentStr, -, h⟩ := bind_eq_ok h
  obtain ⟨location, hlocation, h⟩ := bind_eq_ok h
  obtain ⟨hash, -, h⟩ := bind_eq_ok h
  obtain ⟨parentHash, -, h⟩ := bind_eq_ok h
  cases h
  exact plainLocation_of_fieldText hlocation hbrace

/-! ### The objects of a text -/

/-- The positions and texts of the objects from `pos` on. -/
def objectsFrom (json : Text) : Nat → Nat → List (Nat × Text)
  | 0, _ => []
  | fuel + 1, pos =>
    if pos < json.length then
      match find json "\x7b\"hash\":".toList pos with
      | none => []
      | some start =>
        match find json ['}'] start with
        | none => []
        | some e =>
          (start, (json.drop start).take (e - start + 1)) :: objectsFrom json fuel (e + 1)
    else []

def objects (json : Text) : List (Nat × Text) := objectsFrom json json.length 0

section objects

variable {json obj : Text} {start fuel pos : Nat}

theorem parseLoop_objects {versions vs : List AdditionalVersion}
    (h : parseLoop json fuel pos versions = .ok vs) :
    ∃ ws, vs = versions ++ ws ∧
      List.Forall₂ (fun o v => parseVersion o.2 = .ok v) (objectsFrom json fuel pos) ws := by
  induction fuel generalizing pos versions with
  | zero =>
    cases h
    exact ⟨[], by simp, .nil⟩
  | succ fuel ih =>
    rw [parseLoop] at h
    rw [objectsFrom]
    by_cases hpos : pos < json.length
    · rw [if_pos hpos] at h ⊢
      cases hstart : find json "\x7b\"hash\":".toList pos with
      | none =>
        simp only [hstart] at h ⊢
        cases h
        exact ⟨[], by simp, .nil⟩
      | some start =>
        simp only [hstart] at h ⊢
        cases he : find json ['}'] start with
        | none =>
          simp only [he] at h ⊢
          cases h
          exact ⟨[], by simp, .nil⟩
        | some e =>
          simp only [he] at h ⊢
          obtain ⟨version, hversion, hrest⟩ := bind_eq_ok h
          obtain ⟨ws, rfl, hws⟩ := ih hrest
          exact ⟨version :: ws, by simp, .cons hversion hws⟩
    · rw [if_neg hpos] at h ⊢
      cases h
      exact ⟨[], by simp, .nil⟩

/-- Each version is parsed from its object. -/
theorem parse_objects {vs : List AdditionalVersion} (h : parseAdditionalVersions json = .ok vs) :
    List.Forall₂ (fun o v => parseVersion o.2 = .ok v) (objects json) vs := by
  unfold parseAdditionalVersions at h
  split at h
  · next hempty =>
    cases h
    rcases hempty with rfl | rfl
    · exact .nil
    · have hnone : objects "[]".toList = [] := by decide
      rw [hnone]
      exact .nil
  · obtain ⟨ws, rfl, hws⟩ := parseLoop_objects h
    exact hws

/-- An object begins with its key and ends at the first brace. -/
theorem mem_objectsFrom (h : (start, obj) ∈ objectsFrom json fuel pos) :
    start ≤ json.length ∧ "\x7b\"hash\":".toList <+: json.drop start ∧
      ∃ body rest, obj = body ++ ['}'] ∧ '}' ∉ body ∧ json.drop start = obj ++ rest := by
  induction fuel generalizing pos with
  | zero => cases h
  | succ fuel ih =>
    rw [objectsFrom] at h
    split at h
    · split at h
      · cases h
      · next start' hstart =>
        split at h
        · cases h
        · next e he =>
          rcases List.mem_cons.mp h with heq | htail
          · cases heq
            obtain ⟨-, hle, hkey, -⟩ := find_eq_some hstart
            obtain ⟨hse, -, ⟨rest, hrest⟩, -⟩ := find_eq_some he
            have hlength : e + 1 ≤ json.length := by
              have := congrArg List.length hrest
              simp only [List.length_append, List.length_singleton, List.length_drop] at this
              omega
            have hbody := find_singleton_eq_some he
            have hsplit : (json.drop start).drop (e - start) = '}' :: rest := by
              rw [List.drop_drop, Nat.add_sub_cancel' hse, ← hrest]
              rfl
            have htext := List.take_append_drop (e - start) (json.drop start)
            rw [hsplit] at htext
            have hlen : ((json.drop start).take (e - start)).length = e - start := by
              rw [List.length_take, List.length_drop]
              omega
            have hobj : (json.drop start).take (e - start + 1) =
                (json.drop start).take (e - start) ++ ['}'] := by
              conv_lhs => rw [← htext]
              rw [List.take_append, hlen, List.take_of_length_le (by omega)]
              simp
            refine ⟨hle, hkey, _, rest, hobj, hbody, ?_⟩
            rw [hobj, List.append_assoc]
            exact htext.symm
          · exact ih htail
    · cases h

end objects

/-- Every location that the parser returns is one that it reads back. -/
theorem plainLocation_of_parse {json : Text} {vs : List AdditionalVersion}
    (h : parseAdditionalVersions json = .ok vs) : ∀ v ∈ vs, PlainLocation v.location := by
  have hparsed := parse_objects h
  intro v hv
  obtain ⟨i, hi, rfl⟩ := List.getElem_of_mem hv
  have hi' : i < (objects json).length := hparsed.length_eq ▸ hi
  obtain ⟨-, -, body, rest, hobj, hbody, -⟩ := mem_objectsFrom (List.getElem_mem hi')
  apply plainLocation_of_parseVersion (hparsed.get hi' hi)
  rwa [hobj, List.dropLast_concat]

end KVStore
