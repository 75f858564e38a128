import KVStore.AccountResolver
import KVStore.ConfigText

/-!
# Account configurations (`ParseAccountConfigJson`)

The resolver with a storage database reads a configuration text for each resource name. The map of
regions is cut out of the text by counting braces, and its entries by searching for the next quote
or bracket: `regionLoop_eq` and `arrayLoop_eq` say that the loops over positions read the text once,
from left to right. No call throws (`parseAccountConfigJson_ok`).
-/

namespace KVStore

open TextSearch

namespace StorageDatabaseResolver

/-! ## `ExtractStringValue` -/

/-- The loop over the white space. Every round moves `valueStart` forward, so the length of the text
is fuel enough. -/
def skipSpace (json : Text) : Nat → Nat → Except StdError Nat
  | 0, valueStart => .ok valueStart
  | fuel + 1, valueStart =>
    if valueStart < json.length then do
      let c ← charAt json valueStart
      if isSpace c then skipSpace json fuel (valueStart + 1) else return valueStart
    else .ok valueStart

def extractStringValue (json key : Text) : Except StdError (Option Text) :=
  match find json (searchKey key) 0 with
  | none => .ok none
  | some keyPos =>
    match find json [':'] (keyPos + (searchKey key).length) with
    | none => .ok none
    | some colonPos => do
      let valueStart ← skipSpace json json.length (colonPos + 1)
      if json.length ≤ valueStart then return none
      else if (← substrAt json valueStart 4) = "null".toList then return some []
      else if (← charAt json valueStart) ≠ '"' then return none
      else
        let endQuote ← closingQuote json json.length (valueStart + 1)
        if json.length ≤ endQuote then return none
        else
          return some (← substrAt json (valueStart + 1) (sizeSub (sizeSub endQuote valueStart) 1))

/-! ## `ExtractRegionStorageMap` -/

/-- The braces that are open behind `c`. -/
def braceStep (braceCount : Nat) (c : Char) : Nat :=
  if c = '{' then braceCount + 1 else if c = '}' then braceCount - 1 else braceCount

/-- The loop that looks for the closing brace; it gives `endBrace` and `braceCount`. -/
def matchBrace (json : Text) : Nat → Nat → Nat → Except StdError (Nat × Nat)
  | 0, endBrace, braceCount => .ok (endBrace, braceCount)
  | fuel + 1, endBrace, braceCount =>
    if endBrace < json.length ∧ 0 < braceCount then do
      let c ← charAt json endBrace
      matchBrace json fuel (endBrace + 1) (braceStep braceCount c)
    else .ok (endBrace, braceCount)

/-- The loop over the elements of an array. -/
def arrayLoop (arrayContent : Text) : Nat → Nat → List Text → Except StdError (List Text)
  | 0, _, accounts => .ok accounts
  | fuel + 1, arrPos, accounts =>
    if arrPos < arrayContent.length then
      match find arrayContent ['"'] arrPos with
      | none => .ok accounts
      | some elemStart =>
        match find arrayContent ['"'] (elemStart + 1) with
        | none => .ok accounts
        | some elemEnd => do
          let elem ← substrAt arrayContent (elemStart + 1) (sizeSub (sizeSub elemEnd elemStart) 1)
          arrayLoop arrayContent fuel (elemEnd + 1) (accounts ++ [elem])
    else .ok accounts

/-- `regionMap[regionName] = accounts`, if there are any. -/
def assignRegion (regionMap : List (Text × List Text)) (entry : Text × List Text) :
    List (Text × List Text) :=
  if entry.2 = [] then regionMap else entry :: regionMap.filter fun e => e.1 ≠ entry.1

/-- The loop over the regions. -/
def regionLoop (mapContent : Text) :
    Nat → Nat → List (Text × List Text) → Except StdError (List (Text × List Text))
  | 0, _, regionMap => .ok regionMap
  | fuel + 1, pos, regionMap =>
    if pos < mapContent.length then
      match find mapContent ['"'] pos with
      | none => .ok regionMap
      | some quoteStart =>
        match find mapContent ['"'] (quoteStart + 1) with
        | none => .ok regionMap
        | some quoteEnd => do
          let regionName ←
            substrAt mapContent (quoteStart + 1) (sizeSub (sizeSub quoteEnd quoteStart) 1)
          match find mapContent ['['] quoteEnd with
          | none => return regionMap
          | some arrayStart =>
            match find mapContent [']'] arrayStart with
            | none => return regionMap
            | some arrayEnd =>
              let arrayContent ←
                substrAt mapContent (arrayStart + 1) (sizeSub (sizeSub arrayEnd arrayStart) 1)
              let accounts ← arrayLoop arrayContent arrayContent.length 0 []
              regionLoop mapContent fuel (arrayEnd + 1)
                (assignRegion regionMap (regionName, accounts))
    else .ok regionMap

def extractRegionStorageMap (json : Text) (regionMap : List (Text × List Text)) :
    Except StdError (Bool × List (Text × List Text)) :=
  match find json (searchKey "regionStorageMap".toList) 0 with
  | none => .ok (false, regionMap)
  | some keyPos =>
    match find json ['{'] (keyPos + (searchKey "regionStorageMap".toList).length) with
    | none => .ok (false, regionMap)
    | some bracePos => do
      let (endBrace, braceCount) ← matchBrace json json.length (bracePos + 1) 1
      if braceCount ≠ 0 then return (false, regionMap)
      else
        let mapContent ← substrAt json (bracePos + 1) (sizeSub (sizeSub endBrace bracePos) 2)
        let regionMap ← regionLoop mapContent mapContent.length 0 regionMap
        return (regionMap ≠ [], regionMap)

/-! ## `ParseAccountConfigJson` -/

/-- The resource name is for the log only. -/
def parseAccountConfigJson (jsonContent : Text) : Except StdError PromptAccountConfig := do
  let promptAccountId ← extractStringValue jsonContent "promptAccountId".toList
  let promptAccountName ← extractStringValue jsonContent "promptAccountName".toList
  let location ← extractStringValue jsonContent "location".toList
  let kind ← extractStringValue jsonContent "kind".toList
  let (extracted, regionStorageMap) ← extractRegionStorageMap jsonContent []
  let config : PromptAccountConfig := {
    promptAccountId := promptAccountId.getD []
    promptAccountName := promptAccountName.getD []
    location := location.getD []
    kind := kind.getD []
    regionStorageMap := regionStorageMap }
  if extracted = false then
    return { config with error := "Failed to parse regionStorageMap from account config".toList }
  else if regionStorageMap = [] then
    return { config with error := "regionStorageMap is empty in account config".toList }
  else return { config with success := true }

/-! ## What the loops read -/

/-- The texts between quotes, two quotes at a time. -/
def quotedStrings : Nat → Text → List Text
  | 0, _ => []
  | fuel + 1, s =>
    match cut '"' s with
    | none => []
    | some (_, s) =>
      match cut '"' s with
      | none => []
      | some (elem, s) => elem :: quotedStrings fuel s

/-- The text between the next brackets, its strings, and what is read behind it. -/
def nextArray (s : Text) : Option (List Text × Text) :=
  match cut '[' s with
  | none => none
  | some (_, s) => (cut ']' s).map fun p => (quotedStrings p.1.length p.1, p.2)

/-- The next text between quotes, with the strings of the next array behind it, and so on. -/
def regionEntries : Nat → Text → List (Text × List Text)
  | 0, _ => []
  | fuel + 1, s =>
    match cut '"' s with
    | none => []
    | some (_, s) =>
      match cut '"' s with
      | none => []
      | some (regionName, s) =>
        match nextArray s with
        | none => []
        | some (accounts, s) => (regionName, accounts) :: regionEntries fuel s

theorem cut_of_not_lt {t s : Text} {c : Char} (h : ¬ t.length < (t ++ s).length) :
    cut c s = none := by
  rw [List.length_append] at h
  obtain rfl : s = [] := List.length_eq_zero_iff.mp (by omega)
  rfl

/-- What stands behind a quote up to the next one. -/
theorem substrAt_quoted {s s' elem : Text} {c : Char} (h : cut c s = some (elem, s')) (t : Text) :
    substrAt (t ++ s) t.length elem.length = .ok elem := by
  obtain ⟨rfl, -⟩ := cut_eq_some h
  exact substrAt_append t elem _

theorem arrayLoop_eq (fuel : Nat) (t s : Text) (accounts : List Text) :
    arrayLoop (t ++ s) fuel t.length accounts = .ok (accounts ++ quotedStrings fuel s) := by
  induction fuel generalizing t s accounts with
  | zero => rw [arrayLoop, quotedStrings, List.append_nil]
  | succ fuel ih =>
    rw [arrayLoop, quotedStrings]
    by_cases hlt : t.length < (t ++ s).length
    · rw [if_pos hlt, find_cut]
      cases hstart : cut '"' s with
      | none => simp
      | some p =>
        obtain ⟨pre, s₁⟩ := p
        obtain ⟨htext, hlen⟩ := append_of_cut hstart t
        simp only [Option.map_some]
        rw [htext, ← hlen, find_cut]
        cases hend : cut '"' s₁ with
        | none => simp
        | some q =>
          obtain ⟨elem, s₂⟩ := q
          obtain ⟨htext₂, hlen₂⟩ := append_of_cut hend (t ++ pre ++ ['"'])
          have hcount : sizeSub (sizeSub ((t ++ pre ++ ['"']).length + elem.length)
              (t.length + pre.length)) 1 = elem.length := by
            rw [hlen, sizeSub_between]
          simp only [Option.map_some, hcount]
          rw [substrAt_quoted hend]
          change arrayLoop _ fuel _ _ = _
          rw [htext₂, ← hlen₂, ih, List.append_assoc, List.singleton_append]
    · rw [if_neg hlt, cut_of_not_lt hlt, List.append_nil]

theorem regionLoop_eq (fuel : Nat) (t s : Text) (regionMap : List (Text × List Text)) :
    regionLoop (t ++ s) fuel t.length regionMap =
      .ok ((regionEntries fuel s).foldl assignRegion regionMap) := by
  induction fuel generalizing t s regionMap with
  | zero => rfl
  | succ fuel ih =>
    rw [regionLoop, regionEntries]
    by_cases hlt : t.length < (t ++ s).length
    · rw [if_pos hlt, find_cut]
      cases hstart : cut '"' s with
      | none => rfl
      | some p =>
        obtain ⟨pre, s₁⟩ := p
        obtain ⟨htext, hlen⟩ := append_of_cut hstart t
        simp only [Option.map_some]
        rw [htext, ← hlen, find_cut]
        cases hend : cut '"' s₁ with
        | none => rfl
        | some q =>
          obtain ⟨name, s₂⟩ := q
          have hcount : sizeSub (sizeSub ((t ++ pre ++ ['"']).length + name.length)
              (t.length + pre.length)) 1 = name.length := by
            rw [hlen, sizeSub_between]
          have hopen := find_behind_cut hend (by decide : '"' ≠ '[') (t ++ pre ++ ['"'])
          simp only [Option.map_some, hcount, hopen]
          rw [substrAt_quoted hend]
          obtain ⟨htext₂, hlen₂⟩ := append_of_cut hend (t ++ pre ++ ['"'])
          generalize t ++ pre ++ ['"'] ++ name ++ ['"'] = t₂ at *
          rw [htext₂]
          cases hstart₂ : cut '[' s₂ with
          | none =>
            simp only [nextArray, hstart₂]
            rfl
          | some p₂ =>
            obtain ⟨pre₂, s₃⟩ := p₂
            obtain ⟨htext₃, hlen₃⟩ := append_of_cut hstart₂ t₂
            have hclose := find_behind_cut hstart₂ (by decide : '[' ≠ ']') t₂
            change (match find (t₂ ++ s₂) [']'] (t₂.length + pre₂.length) with
              | none => Except.ok regionMap
              | some arrayEnd => _) = _
            rw [hclose]
            cases hend₂ : cut ']' s₃ with
            | none =>
              simp only [nextArray, hstart₂, hend₂]
              rfl
            | some q₂ =>
              obtain ⟨body, s₄⟩ := q₂
              obtain ⟨htext₄, hlen₄⟩ := append_of_cut hend₂ (t₂ ++ pre₂ ++ ['['])
              have hcount₂ : sizeSub (sizeSub ((t₂ ++ pre₂ ++ ['[']).length + body.length)
                  (t₂.length + pre₂.length)) 1 = body.length := by
                rw [hlen₃, sizeSub_between]
              simp only [Option.map_some, hcount₂]
              rw [htext₃, ← hlen₃, substrAt_quoted hend₂]
              have harray := arrayLoop_eq body.length [] body []
              simp only [List.nil_append, List.length_nil] at harray
              simp only [bind, Except.bind, harray, nextArray, hstart₂, hend₂, Option.map_some]
              rw [htext₄, ← hlen₄, ih, List.foldl_cons]
    · rw [if_neg hlt, cut_of_not_lt hlt]
      rfl

/-- The braces that are open at the end of a text, unless all are closed before. -/
def braceDepth : Nat → Text → Option Nat
  | n, [] => some n
  | n, c :: s => if n = 0 then none else braceDepth (braceStep n c) s

theorem matchBrace_skip {n k : Nat} {body : Text} (h : braceDepth n body = some k) (t s : Text)
    (fuel : Nat) :
    matchBrace (t ++ (body ++ s)) (body.length + fuel) t.length n =
      matchBrace (t ++ (body ++ s)) fuel (t ++ body).length k := by
  induction body generalizing t n with
  | nil =>
    obtain rfl := Option.some.inj h
    rw [List.length_nil, Nat.zero_add, List.append_nil]
  | cons c body ih =>
    rw [braceDepth] at h
    split at h
    · cases h
    · next hn =>
      have hnext := ih h (t ++ [c])
      simp only [List.append_assoc, List.singleton_append] at hnext
      have hlt : t.length < (t ++ (c :: body ++ s)).length := by simp
      rw [List.length_cons, Nat.add_right_comm, matchBrace,
        if_pos ⟨hlt, Nat.pos_of_ne_zero hn⟩, List.cons_append, charAt_append]
      change matchBrace _ _ (t.length + 1) _ = _
      rw [← hnext, List.length_append, List.length_singleton]

/-- The search for the closing brace of a text whose braces are balanced. -/
theorem matchBrace_eq {body : Text} (h : braceDepth 1 body = some 1) (t s : Text) {fuel : Nat}
    (hfuel : body.length < fuel) :
    matchBrace (t ++ (body ++ '}' :: s)) fuel t.length 1 = .ok ((t ++ body).length + 1, 0) := by
  obtain ⟨k, rfl⟩ := Nat.exists_eq_add_of_lt hfuel
  have hlt : (t ++ body).length < (t ++ (body ++ '}' :: s)).length := by simp
  have hchar := charAt_append (t ++ body) '}' s
  rw [List.append_assoc] at hchar
  rw [Nat.add_assoc, matchBrace_skip h, matchBrace, if_pos ⟨hlt, Nat.one_pos⟩, hchar]
  change matchBrace _ k _ 0 = _
  cases k with
  | zero => rfl
  | succ k => rw [matchBrace, if_neg (fun hpos => absurd hpos.2 (Nat.lt_irrefl 0))]

/-! ## No call throws -/

theorem skipSpace_ok (json : Text) (fuel valueStart : Nat) :
    ∃ valueStart', skipSpace json fuel valueStart = .ok valueStart' := by
  induction fuel generalizing valueStart with
  | zero => exact ⟨valueStart, rfl⟩
  | succ fuel ih =>
    rw [skipSpace]
    by_cases hlt : valueStart < json.length
    · rw [if_pos hlt, charAt_of_lt hlt]
      change ∃ _, (if isSpace json[valueStart] = true then _ else _) = _
      split
      · exact ih (valueStart + 1)
      · exact ⟨valueStart, rfl⟩
    · exact ⟨valueStart, if_neg hlt⟩

theorem extractStringValue_ok (json key : Text) :
    ∃ value, extractStringValue json key = .ok value := by
  unfold extractStringValue
  split
  · exact ⟨_, rfl⟩
  · split
    · exact ⟨_, rfl⟩
    · next colonPos _ =>
      obtain ⟨valueStart, hstart⟩ := skipSpace_ok json json.length (colonPos + 1)
      rw [hstart]
      change ∃ _, (if json.length ≤ valueStart then _ else _) = _
      split
      · exact ⟨_, rfl⟩
      · next hlt =>
        rw [Nat.not_le] at hlt
        rw [substrAt_of_le (Nat.le_of_lt hlt), charAt_of_lt hlt]
        change ∃ _, (if _ = _ then _ else if json[valueStart] ≠ '"' then _ else _) = _
        split
        · exact ⟨_, rfl⟩
        · split
          · exact ⟨_, rfl⟩
          · next hquote =>
            have hsplit : json = json.take valueStart ++ '"' :: json.drop (valueStart + 1) := by
              have hc := List.drop_eq_getElem_cons hlt
              rw [not_ne_iff.mp hquote] at hc
              rw [← hc, List.take_append_drop]
            have hread := readString_eq (json.take valueStart) (json.drop (valueStart + 1)) id
            rw [← hsplit, List.length_take_of_le (Nat.le_of_lt hlt)] at hread
            exact ⟨_, hread⟩

theorem matchBrace_ok (json : Text) (fuel endBrace braceCount : Nat) :
    ∃ r, matchBrace json fuel endBrace braceCount = .ok r := by
  induction fuel generalizing endBrace braceCount with
  | zero => exact ⟨_, rfl⟩
  | succ fuel ih =>
    rw [matchBrace]
    by_cases h : endBrace < json.length ∧ 0 < braceCount
    · rw [if_pos h, charAt_of_lt h.1]
      exact ih (endBrace + 1) (braceStep braceCount json[endBrace])
    · exact ⟨_, if_neg h⟩

theorem extractRegionStorageMap_ok (json : Text) (regionMap : List (Text × List Text)) :
    ∃ r, extractRegionStorageMap json regionMap = .ok r := by
  unfold extractRegionStorageMap
  split
  · exact ⟨_, rfl⟩
  · split
    · exact ⟨_, rfl⟩
    · next bracePos hbrace =>
      obtain ⟨t, s, rfl, rfl⟩ := split_of_find hbrace
      obtain ⟨⟨endBrace, braceCount⟩, hmatch⟩ :=
        matchBrace_ok (t ++ '{' :: s) (t ++ '{' :: s).length (t.length + 1) 1
      rw [hmatch]
      change ∃ _, (if braceCount ≠ 0 then _ else _) = _
      split
      · exact ⟨_, rfl⟩
      · have hpos : t.length + 1 ≤ (t ++ '{' :: s).length := by simp
        rw [substrAt_of_le hpos]
        generalize ((t ++ '{' :: s).drop (t.length + 1)).take _ = mapContent
        have hloop := regionLoop_eq mapContent.length [] mapContent regionMap
        simp only [List.nil_append, List.length_nil] at hloop
        simp only [bind, Except.bind, hloop]
        exact ⟨_, rfl⟩

/-- A configuration is successful when its map was extracted, and holds that map. -/
theorem parseAccountConfigJson_ok (jsonContent : Text) :
    ∃ config, parseAccountConfigJson jsonContent = .ok config ∧
      (config.success = true →
        extractRegionStorageMap jsonContent [] = .ok (true, config.regionStorageMap)) := by
  obtain ⟨promptAccountId, hid⟩ := extractStringValue_ok jsonContent "promptAccountId".toList
  obtain ⟨promptAccountName, hname⟩ := extractStringValue_ok jsonContent "promptAccountName".toList
  obtain ⟨location, hlocation⟩ := extractStringValue_ok jsonContent "location".toList
  obtain ⟨kind, hkind⟩ := extractStringValue_ok jsonContent "kind".toList
  obtain ⟨⟨extracted, regionStorageMap⟩, hmap⟩ := extractRegionStorageMap_ok jsonContent []
  simp only [parseAccountConfigJson, hid, hname, hlocation, hkind, hmap, bind, Except.bind]
  split
  · exact ⟨_, rfl, fun h => by cases h⟩
  · next hextracted =>
    obtain rfl := eq_true_of_ne_false hextracted
    split
    · exact ⟨_, rfl, fun h => by cases h⟩
    · exact ⟨_, rfl, fun _ => rfl⟩

end StorageDatabaseResolver

end KVStore
