import KVStore.FileConfig
import KVStore.AccountConfig
import KVStore.Lib.Rounds

/-!
# The configuration readers on machine sizes

The readers of `FileConfig` and `AccountConfig` once more, with positions as they are in the code:
64-bit sizes that wrap around, `npos` where a search fails, and no bound on the rounds of a loop. An
index or a position past the end, a length below zero and a loop that does not end are faults.
`extractors_total`: no text and no key leads to one. The readers return what their models on plain
positions do (`extractStringValue_agrees`, `extractRegionStorageMap_agrees`).
-/

namespace KVStore

open TextSearch Rounds

/-! ## Sizes and strings -/

/-- `std::string::npos`, the largest size. -/
def npos : Nat := 18446744073709551615

/-- `std::string`. -/
structure StdString where
  text : Text
  length_lt : text.length < npos

inductive ScanFault
  | indexPastEnd
  | positionPastEnd
  | lengthUnderflow
  | unfinished
deriving DecidableEq

abbrev Scan := Except ScanFault

namespace Scan

/-- `a + b`. -/
def add (a b : Nat) : Nat := (a + b) % 18446744073709551616

/-- `a - b`, where the code needs the difference. -/
def sub (a b : Nat) : Scan Nat := if b ≤ a then .ok (a - b) else .error .lengthUnderflow

/-- `s.find(pat, pos)`. -/
def findAt (s pat : Text) (pos : Nat) : Nat := (find s pat pos).getD npos

/-- `s[i]`. -/
def getChar (s : Text) (i : Nat) : Scan Char :=
  match s[i]? with
  | some c => .ok c
  | none => .error .indexPastEnd

/-- `s.substr(pos, count)`. -/
def getSubstr (s : Text) (pos count : Nat) : Scan Text :=
  if pos ≤ s.length then .ok ((s.drop pos).take count) else .error .positionPastEnd

/-- `s.substr(p + 1, q - p - 1)`. -/
def substrBetween (s : Text) (p q : Nat) : Scan Text := do
  getSubstr s (add p 1) (← sub (← sub q p) 1)

/-- `s.replace(pos, count, t)`. -/
def replaceAt (s : Text) (pos count : Nat) (t : Text) : Scan Text :=
  if pos ≤ s.length then .ok (s.take pos ++ t ++ s.drop (pos + count)) else .error .positionPastEnd

/-! ## The loops -/

/-- `while (valueStart < json.length() && std::isspace(json[valueStart]))`. -/
def skipSpaceRound (json : Text) (valueStart : Nat) : Scan (Round Nat Nat) :=
  if valueStart < json.length then do
    if isSpace (← getChar json valueStart) then return .again (add valueStart 1)
    else return .done valueStart
  else return .done valueStart

/-- `while (endQuote < json.length())`. -/
def closingQuoteRound (json : Text) (endQuote : Nat) : Scan (Round Nat Nat) :=
  if endQuote < json.length then do
    if (← getChar json endQuote) = '"' then
      if (← getChar json (← sub endQuote 1)) ≠ '\\' then return .done endQuote
      else return .again (add endQuote 1)
    else return .again (add endQuote 1)
  else return .done endQuote

/-- `while ((pos = value.find(pair, pos)) != std::string::npos)`, on `value` and `pos`. -/
def unescapeRound (a b c : Char) (s : Text × Nat) : Scan (Round (Text × Nat) Text) :=
  let pos := findAt s.1 [a, b] s.2
  if pos = npos then return .done s.1
  else do
    let value ← replaceAt s.1 pos 2 [c]
    return .again (value, add pos 1)

/-- The value of an `int`; a count past the largest one wraps around. -/
def wrapInt (n : Int) : Int := (n + 2147483648) % 4294967296 - 2147483648

/-- `braceCount` behind `c`. -/
def braceStep (braceCount : Int) (c : Char) : Int :=
  if c = '{' then wrapInt (braceCount + 1)
  else if c = '}' then wrapInt (braceCount - 1) else braceCount

/-- `while (endBrace < json.length() && braceCount > 0)`, on `endBrace` and `braceCount`. -/
def matchBraceRound (json : Text) (s : Nat × Int) : Scan (Round (Nat × Int) (Nat × Int)) :=
  if s.1 < json.length ∧ 0 < s.2 then do
    let c ← getChar json s.1
    return .again (add s.1 1, braceStep s.2 c)
  else return .done s

/-- `while (arrPos < arrayContent.length())`, on `arrPos` and `accounts`. -/
def arrayRound (arrayContent : Text) (s : Nat × List Text) :
    Scan (Round (Nat × List Text) (List Text)) :=
  if s.1 < arrayContent.length then
    let elemStart := findAt arrayContent ['"'] s.1
    if elemStart = npos then return .done s.2
    else
      let elemEnd := findAt arrayContent ['"'] (add elemStart 1)
      if elemEnd = npos then return .done s.2
      else do
        let elem ← substrBetween arrayContent elemStart elemEnd
        return .again (add elemEnd 1, s.2 ++ [elem])
  else return .done s.2

/-- `while (pos < mapContent.length())`, on `pos` and `regionMap`. -/
def regionRound (rounds : Nat) (mapContent : Text) (s : Nat × List (Text × List Text)) :
    Scan (Round (Nat × List (Text × List Text)) (List (Text × List Text))) :=
  if s.1 < mapContent.length then
    let quoteStart := findAt mapContent ['"'] s.1
    if quoteStart = npos then return .done s.2
    else
      let quoteEnd := findAt mapContent ['"'] (add quoteStart 1)
      if quoteEnd = npos then return .done s.2
      else do
        let regionName ← substrBetween mapContent quoteStart quoteEnd
        let arrayStart := findAt mapContent ['['] quoteEnd
        if arrayStart = npos then return .done s.2
        else
          let arrayEnd := findAt mapContent [']'] arrayStart
          if arrayEnd = npos then return .done s.2
          else
            let arrayContent ← substrBetween mapContent arrayStart arrayEnd
            let accounts ← run (arrayRound arrayContent) .unfinished rounds (0, [])
            return .again
              (add arrayEnd 1, StorageDatabaseResolver.assignRegion s.2 (regionName, accounts))
  else return .done s.2

/-! ## The readers -/

/-- What is read from an opening quote on. -/
def quotedValue (rounds : Nat) (json : Text) (startQuote : Nat) : Scan (Option Text) := do
  let endQuote ← run (closingQuoteRound json) .unfinished rounds (add startQuote 1)
  if json.length ≤ endQuote then return none
  else return some (← substrBetween json startQuote endQuote)

namespace StorageDatabaseResolver

def extractStringValue (rounds : Nat) (json key : Text) : Scan (Option Text) :=
  let keyPos := findAt json (searchKey key) 0
  if keyPos = npos then return none
  else
    let colonPos := findAt json [':'] (add keyPos (searchKey key).length)
    if colonPos = npos then return none
    else do
      let valueStart ← run (skipSpaceRound json) .unfinished rounds (add colonPos 1)
      if json.length ≤ valueStart then return none
      else if (← getSubstr json valueStart 4) = "null".toList then return some []
      else if (← getChar json valueStart) ≠ '"' then return none
      else quotedValue rounds json valueStart

def extractRegionStorageMap (rounds : Nat) (json : Text) (regionMap : List (Text × List Text)) :
    Scan (Bool × List (Text × List Text)) :=
  let keyPos := findAt json (searchKey "regionStorageMap".toList) 0
  if keyPos = npos then return (false, regionMap)
  else
    let bracePos :=
      findAt json ['{'] (add keyPos (searchKey "regionStorageMap".toList).length)
    if bracePos = npos then return (false, regionMap)
    else do
      let (endBrace, braceCount) ←
        run (matchBraceRound json) .unfinished rounds (add bracePos 1, 1)
      if braceCount ≠ 0 then return (false, regionMap)
      else
        let mapContent ← getSubstr json (add bracePos 1) (← sub (← sub endBrace bracePos) 2)
        let regionMap ← run (regionRound rounds mapContent) .unfinished rounds (0, regionMap)
        return (regionMap ≠ [], regionMap)

end StorageDatabaseResolver

def FileConfigProvider.extractStringValue (rounds : Nat) (json key : Text) :
    Scan (Option Text) :=
  let keyPos := findAt json (searchKey key) 0
  if keyPos = npos then return none
  else
    let colonPos := findAt json [':'] (add keyPos (searchKey key).length)
    if colonPos = npos then return none
    else
      let startQuote := findAt json ['"'] (add colonPos 1)
      if startQuote = npos then return none
      else do
        match ← quotedValue rounds json startQuote with
        | none => return none
        | some value =>
          let value ← run (unescapeRound '\\' '"' '"') .unfinished rounds (value, 0)
          let value ← run (unescapeRound '\\' '\\' '\\') .unfinished rounds (value, 0)
          return some value

/-! ## Sizes that stay below `npos` -/

section

variable {s pat : Text} {a b pos n : Nat}

theorem add_of_le (h : a + b ≤ npos) : add a b = a + b := by
  unfold npos at h
  exact Nat.mod_eq_of_lt (by omega)

theorem sub_of_le (h : b ≤ a) : sub a b = .ok (a - b) := if_pos h

theorem getChar_of_lt (h : pos < s.length) : getChar s pos = .ok s[pos] := by
  rw [getChar, List.getElem?_eq_getElem h]

theorem getSubstr_of_le (h : pos ≤ s.length) :
    getSubstr s pos n = .ok ((s.drop pos).take n) := if_pos h

/-- A search fails, or finds an occurrence inside the text. -/
theorem findAt_cases (hs : s.length < npos) (pat : Text) (pos : Nat) :
    find s pat pos = none ∧ findAt s pat pos = npos ∨
      ∃ p, find s pat pos = some p ∧ findAt s pat pos = p ∧ p ≠ npos ∧ pos ≤ p ∧
        p + pat.length ≤ s.length := by
  unfold findAt
  cases hfind : find s pat pos with
  | none => exact Or.inl ⟨rfl, rfl⟩
  | some p =>
    obtain ⟨hle, hp, hpat, -⟩ := find_eq_some hfind
    have hlength := hpat.length_le
    rw [List.length_drop] at hlength
    exact Or.inr ⟨p, rfl, rfl, by omega, hle, by omega⟩

end

/-! ## Each loop ends -/

section

variable {json value arrayContent mapContent : Text} {a b c : Char} {pos rounds bound : Nat}

theorem skipSpace_run (hjson : json.length < npos) (hpos : pos ≤ json.length)
    (hrounds : json.length < rounds) :
    Returns (run (skipSpaceRound json) .unfinished rounds pos) fun r =>
      r ≤ json.length ∧ KVStore.StorageDatabaseResolver.skipSpace json json.length pos = .ok r := by
  refine run_simulates (StorageDatabaseResolver.skipSpace json) (m := fun v => json.length - v)
    (P := fun v => v ≤ json.length) (fun v hv => ?_) hpos (by omega) (by omega)
  unfold skipSpaceRound
  by_cases hlt : v < json.length
  · rw [if_pos hlt, getChar_of_lt hlt]
    by_cases hspace : isSpace json[v] = true
    · refine Or.inr ⟨v + 1, ?_, by omega, by omega, fun n => ?_⟩
      · rw [add_of_le (by omega)]
        exact if_pos hspace
      · rw [StorageDatabaseResolver.skipSpace, if_pos hlt, charAt_of_lt hlt]
        exact if_pos hspace
    · refine Or.inl ⟨v, if_neg hspace, hv, rfl, fun n => ?_⟩
      rw [StorageDatabaseResolver.skipSpace, if_pos hlt, charAt_of_lt hlt]
      exact if_neg hspace
  · exact Or.inl ⟨v, if_neg hlt, hv, rfl, fun n => if_neg hlt⟩

theorem closingQuote_run (hjson : json.length < npos) {start : Nat} (hstart : 0 < start)
    (hpos : start ≤ json.length) (hrounds : json.length < rounds) :
    Returns (run (closingQuoteRound json) .unfinished rounds start) fun r =>
      start ≤ r ∧ closingQuote json json.length start = .ok r := by
  refine run_simulates (closingQuote json) (m := fun v => json.length - v)
    (P := fun v => start ≤ v ∧ v ≤ json.length) (fun v hv => ?_) ⟨le_rfl, hpos⟩ (by omega)
    (by omega)
  obtain ⟨hle, hv⟩ := hv
  unfold closingQuoteRound
  by_cases hlt : v < json.length
  · have hprevious : v - 1 < json.length := by omega
    have hold : ∀ n, closingQuote json (n + 1) v =
        if json[v] = '"' ∧ json[v - 1] ≠ '\\' then .ok v else closingQuote json n (v + 1) := by
      intro n
      rw [closingQuote, if_pos hlt, charAt_of_lt hlt, sizeSub_of_le (by omega),
        charAt_of_lt hprevious]
      rfl
    rw [if_pos hlt, getChar_of_lt hlt, sub_of_le (by omega), add_of_le (by omega)]
    simp only [bind, Except.bind, getChar_of_lt hprevious]
    by_cases hend : json[v] = '"' ∧ json[v - 1] ≠ '\\'
    · refine Or.inl ⟨v, ?_, hle, rfl, fun n => ?_⟩
      · rw [if_pos hend.1, if_pos hend.2]
        rfl
      · rw [hold, if_pos hend]
    · refine Or.inr ⟨v + 1, ?_, by omega, by omega, fun n => ?_⟩
      · by_cases hquote : json[v] = '"'
        · rw [if_pos hquote, if_neg fun h => hend ⟨hquote, h⟩]
          rfl
        · rw [if_neg hquote]
          rfl
      · rw [hold, if_neg hend]
  · exact Or.inl ⟨v, if_neg hlt, hle, rfl, fun n => if_neg hlt⟩

theorem unescape_run (hvalue : value.length ≤ bound) (hbound : bound < npos)
    (hrounds : bound < rounds) :
    Returns (run (unescapeRound a b c) .unfinished rounds (value, 0)) fun r =>
      r.length ≤ bound ∧ replaceLoop a b c value.length value 0 = r := by
  have hrun : Returns (run (unescapeRound a b c) .unfinished rounds (value, 0)) fun r =>
      r.length ≤ bound ∧
        (.ok (replaceLoop a b c value.length value 0) : Except StdError Text) = .ok r := by
    refine run_simulates (fun n s => .ok (replaceLoop a b c n s.1 s.2)) (n := value.length)
      (s := (value, 0)) (m := fun s => s.1.length - s.2) (P := fun s => s.1.length ≤ bound)
      (Q := fun r => r.length ≤ bound) (fun s hs => ?_) hvalue ?_ (Nat.sub_le _ _)
    obtain ⟨text, start⟩ := s
    dsimp only at hs ⊢
    unfold unescapeRound
    dsimp only
    rcases findAt_cases (s := text) (by omega) [a, b] start with
      ⟨hfind, hnpos⟩ | ⟨p, hfind, hp, hne, hle, hlt⟩
    · refine Or.inl ⟨text, ?_, hs, rfl, fun n => ?_⟩
      · rw [hnpos, if_pos rfl]
        rfl
      · rw [replaceLoop, hfind]
    · have hlt : p + 2 ≤ text.length := hlt
      have hlength : (text.take p ++ [c] ++ text.drop (p + 2)).length = text.length - 1 := by
        simp only [List.length_append, List.length_take, List.length_drop, List.length_singleton]
        omega
      refine Or.inr ⟨(text.take p ++ [c] ++ text.drop (p + 2), p + 1), ?_, ?_, ?_, fun n => ?_⟩
      · rw [hp, if_neg hne, replaceAt, if_pos (by omega), add_of_le (by omega)]
        rfl
      · dsimp only
        omega
      · dsimp only
        omega
      · rw [replaceLoop, hfind]
        simp
    · dsimp only
      omega
  obtain ⟨r, hr, hlength, hold⟩ := hrun
  exact ⟨r, hr, hlength, Except.ok.inj hold⟩

theorem matchBraceRound_again (hjson : json.length < npos) {endBrace : Nat} {braceCount : Int}
    (hlt : endBrace < json.length) (hcount : 0 < braceCount) :
    matchBraceRound json (endBrace, braceCount) =
      .ok (.again (endBrace + 1, braceStep braceCount json[endBrace])) := by
  rw [matchBraceRound, if_pos ⟨hlt, hcount⟩, getChar_of_lt hlt, add_of_le (by dsimp only; omega)]
  rfl

/-- The loop over the braces passes at least the one that brings the count to zero. -/
theorem matchBrace_run (hjson : json.length < npos) (hpos : pos ≤ json.length)
    (hrounds : json.length < rounds) :
    Returns (run (matchBraceRound json) .unfinished rounds (pos, 1)) fun r =>
      r.1 ≤ json.length ∧ (r.2 = 0 → pos < r.1) := by
  refine run_returns (m := fun s => json.length - s.1)
    (P := fun s => pos ≤ s.1 ∧ s.1 ≤ json.length ∧ (s.1 = pos → s.2 = 1))
    (fun s hs => ?_) ⟨le_rfl, hpos, fun _ => rfl⟩ (by dsimp only; omega)
  obtain ⟨endBrace, braceCount⟩ := s
  obtain ⟨hle, hlength, hone⟩ := hs
  by_cases h : endBrace < json.length ∧ 0 < braceCount
  · refine Or.inr ⟨_, matchBraceRound_again hjson h.1 h.2, ⟨?_, h.1, ?_⟩, ?_⟩
    · exact Nat.le_succ_of_le hle
    · intro he
      exact absurd hle (by dsimp only at he; omega)
    · have hlt := h.1
      dsimp only
      omega
  · refine Or.inl ⟨(endBrace, braceCount), if_neg h, hlength, fun hzero => ?_⟩
    dsimp only at hle hone hzero ⊢
    rcases Nat.eq_or_lt_of_le hle with heq | hlt
    · rw [hone heq.symm] at hzero
      cases hzero
    · exact hlt

/-- On texts in which a count cannot pass the largest `int`, the loop is the one on plain counts. -/
theorem matchBrace_agrees (hjson : json.length < 2147483647) (hpos : 0 < pos)
    (hle : pos ≤ json.length) (hrounds : json.length < rounds) :
    Returns (run (matchBraceRound json) .unfinished rounds (pos, 1)) fun r =>
      0 ≤ r.2 ∧ (KVStore.StorageDatabaseResolver.matchBrace json json.length pos 1).map
        (fun r => (r.1, (r.2 : Int))) = .ok r := by
  refine run_simulates
    (fun n (s : Nat × Int) =>
      (KVStore.StorageDatabaseResolver.matchBrace json n s.1 s.2.toNat).map
        fun r => (r.1, (r.2 : Int)))
    (n := json.length) (s := ((pos, 1) : Nat × Int)) (m := fun s => json.length - s.1)
    (P := fun s => 0 ≤ s.2 ∧ s.2 ≤ s.1 ∧ s.1 ≤ json.length) (Q := fun r => 0 ≤ r.2)
    (fun s hs => ?_) ⟨Int.one_nonneg, Int.ofNat_le.mpr hpos, hle⟩
    (Nat.lt_of_le_of_lt (Nat.sub_le _ _) hrounds) (Nat.sub_le _ _)
  obtain ⟨endBrace, braceCount⟩ := s
  obtain ⟨hnonneg, hcount, hlength⟩ := hs
  dsimp only at hnonneg hcount hlength ⊢
  obtain ⟨k, rfl⟩ := Int.eq_ofNat_of_zero_le hnonneg
  by_cases h : endBrace < json.length ∧ 0 < k
  · have hstep : braceStep (k : Int) json[endBrace] =
        (KVStore.StorageDatabaseResolver.braceStep k json[endBrace] : Nat) ∧
          KVStore.StorageDatabaseResolver.braceStep k json[endBrace] ≤ k + 1 := by
      have hk := h.2
      unfold braceStep KVStore.StorageDatabaseResolver.braceStep wrapInt
      split
      · omega
      · split <;> omega
    have hlt := h.1
    refine Or.inr ⟨_, matchBraceRound_again (by unfold npos; omega) h.1 (by omega), ?_, ?_,
      fun n => ?_⟩
    · rw [hstep.1]
      dsimp only
      omega
    · dsimp only
      omega
    · rw [hstep.1, Int.toNat_natCast, Int.toNat_natCast,
        KVStore.StorageDatabaseResolver.matchBrace, if_pos h, charAt_of_lt h.1]
      rfl
  · have hstop : ¬ (endBrace < json.length ∧ (0 : Int) < k) := by omega
    rw [Int.toNat_natCast]
    refine Or.inl ⟨(endBrace, (k : Int)), if_neg hstop, hnonneg, rfl, fun n => ?_⟩
    rw [KVStore.StorageDatabaseResolver.matchBrace, if_neg h]
    rfl

theorem matchBrace_of_run (hjson : json.length < 2147483647) (hpos : 0 < pos)
    (hle : pos ≤ json.length) (hrounds : json.length < rounds) {endBrace : Nat} {braceCount : Int}
    (hrun : run (matchBraceRound json) .unfinished rounds (pos, 1) = .ok (endBrace, braceCount)) :
    0 ≤ braceCount ∧ KVStore.StorageDatabaseResolver.matchBrace json json.length pos 1 =
      .ok (endBrace, braceCount.toNat) := by
  obtain ⟨r, hrun', hnonneg, hold⟩ := matchBrace_agrees hjson hpos hle hrounds
  obtain rfl := Except.ok.inj (hrun.symm.trans hrun')
  refine ⟨hnonneg, ?_⟩
  cases hmatch : KVStore.StorageDatabaseResolver.matchBrace json json.length pos 1 with
  | error e =>
    rw [hmatch] at hold
    cases hold
  | ok r =>
    rw [hmatch] at hold
    cases hold
    rfl

theorem substrBetween_of_lt {s : Text} (hs : s.length < npos) {p q : Nat} (hlt : p < q)
    (hq : q ≤ s.length) : substrBetween s p q = .ok ((s.drop (p + 1)).take (q - p - 1)) := by
  simp only [substrBetween, sub_of_le (by omega : p ≤ q), bind, Except.bind,
    sub_of_le (by omega : 1 ≤ q - p)]
  rw [add_of_le (by omega), getSubstr_of_le (by omega)]

theorem substrAt_between {s : Text} {p q : Nat} (hlt : p < q) (hq : q ≤ s.length) :
    substrAt s (p + 1) (sizeSub (sizeSub q p) 1) = .ok ((s.drop (p + 1)).take (q - p - 1)) := by
  rw [sizeSub_of_le (by omega : p ≤ q), sizeSub_of_le (by omega : 1 ≤ q - p)]
  exact substrAt_of_le (by omega) _

theorem array_run (harray : arrayContent.length < npos) (hrounds : arrayContent.length < rounds)
    (accounts : List Text) :
    Returns (run (arrayRound arrayContent) .unfinished rounds (0, accounts)) fun r =>
      KVStore.StorageDatabaseResolver.arrayLoop arrayContent arrayContent.length 0 accounts =
        .ok r := by
  refine run_agrees
    (fun n (s : Nat × List Text) =>
      KVStore.StorageDatabaseResolver.arrayLoop arrayContent n s.1 s.2)
    (n := arrayContent.length) (s := ((0, accounts) : Nat × List Text))
    (m := fun s => arrayContent.length - s.1) (fun s => ?_)
    (Nat.lt_of_le_of_lt (Nat.sub_le _ _) hrounds) (Nat.sub_le _ _)
  obtain ⟨arrPos, accounts⟩ := s
  unfold arrayRound
  dsimp only
  by_cases hlt : arrPos < arrayContent.length
  · rw [if_pos hlt]
    rcases findAt_cases harray ['"'] arrPos with
      ⟨hfind, hnpos⟩ | ⟨p, hfind, hp, hne, hle, hplt⟩
    · refine Or.inl ⟨accounts, by rw [hnpos, if_pos rfl]; rfl, rfl, fun n => ?_⟩
      simp only [KVStore.StorageDatabaseResolver.arrayLoop, if_pos hlt, hfind]
    have hplt : p + 1 ≤ arrayContent.length := hplt
    rw [hp, if_neg hne, add_of_le (by omega)]
    rcases findAt_cases harray ['"'] (p + 1) with
      ⟨hfind', hnpos⟩ | ⟨q, hfind', hq, hne', hle', hqlt⟩
    · refine Or.inl ⟨accounts, by rw [hnpos, if_pos rfl]; rfl, rfl, fun n => ?_⟩
      simp only [KVStore.StorageDatabaseResolver.arrayLoop, if_pos hlt, hfind, hfind']
    have hqlt : q + 1 ≤ arrayContent.length := hqlt
    rw [hq, if_neg hne', add_of_le (by omega),
      substrBetween_of_lt harray (by omega : p < q) (by omega)]
    refine Or.inr ⟨(q + 1, accounts ++ [(arrayContent.drop (p + 1)).take (q - p - 1)]), rfl,
      by dsimp only; omega, fun n => ?_⟩
    simp only [KVStore.StorageDatabaseResolver.arrayLoop, if_pos hlt, hfind, hfind',
      substrAt_between (by omega : p < q) (by omega : q ≤ arrayContent.length)]
    rfl
  · exact Or.inl ⟨accounts, if_neg hlt, rfl, fun n => if_neg hlt⟩

theorem region_run (hmap : mapContent.length < npos) (hrounds : mapContent.length < rounds)
    (regionMap : List (Text × List Text)) :
    Returns (run (regionRound rounds mapContent) .unfinished rounds (0, regionMap)) fun r =>
      KVStore.StorageDatabaseResolver.regionLoop mapContent mapContent.length 0 regionMap =
        .ok r := by
  refine run_agrees
    (fun n (s : Nat × List (Text × List Text)) =>
      KVStore.StorageDatabaseResolver.regionLoop mapContent n s.1 s.2)
    (n := mapContent.length) (s := ((0, regionMap) : Nat × List (Text × List Text)))
    (m := fun s => mapContent.length - s.1) (fun s => ?_)
    (Nat.lt_of_le_of_lt (Nat.sub_le _ _) hrounds) (Nat.sub_le _ _)
  obtain ⟨pos, regionMap⟩ := s
  unfold regionRound
  dsimp only
  by_cases hlt : pos < mapContent.length
  · rw [if_pos hlt]
    -- the name of a region, between quotes
    rcases findAt_cases hmap ['"'] pos with
      ⟨hfind, hnpos⟩ | ⟨p, hfind, hp, hne, hle, hplt⟩
    · refine Or.inl ⟨regionMap, by rw [hnpos, if_pos rfl]; rfl, rfl, fun n => ?_⟩
      simp only [KVStore.StorageDatabaseResolver.regionLoop, if_pos hlt, hfind]
    have hplt : p + 1 ≤ mapContent.length := hplt
    rw [hp, if_neg hne, add_of_le (by omega)]
    rcases findAt_cases hmap ['"'] (p + 1) with
      ⟨hfind', hnpos⟩ | ⟨q, hfind', hq, hne', hle', hqlt⟩
    · refine Or.inl ⟨regionMap, by rw [hnpos, if_pos rfl]; rfl, rfl, fun n => ?_⟩
      simp only [KVStore.StorageDatabaseResolver.regionLoop, if_pos hlt, hfind, hfind']
    have hqlt : q + 1 ≤ mapContent.length := hqlt
    have hname := substrAt_between (by omega : p < q) (by omega : q ≤ mapContent.length)
    rw [hq, if_neg hne', substrBetween_of_lt hmap (by omega : p < q) (by omega)]
    -- its accounts, between brackets
    rcases findAt_cases hmap ['['] q with
      ⟨hopen, hnpos⟩ | ⟨a, hopen, ha, hane, hale, halt⟩
    · refine Or.inl ⟨regionMap, by rw [hnpos]; rfl, rfl, fun n => ?_⟩
      simp only [KVStore.StorageDatabaseResolver.regionLoop, if_pos hlt, hfind, hfind', hname,
        hopen]
      rfl
    rcases findAt_cases hmap [']'] a with
      ⟨hclose, hnpos⟩ | ⟨b, hclose, hb, hbne, hble, hblt⟩
    · refine Or.inl ⟨regionMap, ?_, rfl, fun n => ?_⟩
      · simp only [bind, Except.bind, ha, if_neg hane, hnpos, if_true]
        rfl
      · simp only [KVStore.StorageDatabaseResolver.regionLoop, if_pos hlt, hfind, hfind', hname,
          hopen, bind, Except.bind, hclose]
        rfl
    have hblt : b + 1 ≤ mapContent.length := hblt
    have hab : a < b := find_lt_find hopen hclose (by decide)
    have harray := substrAt_between hab (by omega : b ≤ mapContent.length)
    have hlength : ((mapContent.drop (a + 1)).take (b - a - 1)).length ≤ mapContent.length := by
      simp only [List.length_take, List.length_drop]
      omega
    obtain ⟨accounts, hrun, hloop⟩ :=
      array_run (hlength.trans_lt hmap) (hlength.trans_lt hrounds) []
    refine Or.inr ⟨(b + 1, KVStore.StorageDatabaseResolver.assignRegion regionMap
      ((mapContent.drop (p + 1)).take (q - p - 1), accounts)), ?_, by dsimp only; omega,
      fun n => ?_⟩
    · simp only [bind, Except.bind, ha, if_neg hane, hb, if_neg hbne,
        substrBetween_of_lt hmap hab (by omega : b ≤ mapContent.length), hrun,
        add_of_le (by omega : b + 1 ≤ npos)]
      rfl
    · simp only [KVStore.StorageDatabaseResolver.regionLoop, if_pos hlt, hfind, hfind', hname,
        hopen, bind, Except.bind, hclose, harray, hloop]
  · exact Or.inl ⟨regionMap, if_neg hlt, rfl, fun n => if_neg hlt⟩

end

/-! ## The readers return -/

section

variable {json : Text} {rounds startQuote : Nat}

/-- What is read from an opening quote on, next to the same part of the models on plain positions;
`f` is what they do with the value. -/
theorem quotedValue_run (hjson : json.length < npos) (hrounds : json.length < rounds)
    (hstart : startQuote < json.length) :
    Returns (quotedValue rounds json startQuote) fun value =>
      (∀ v ∈ value, v.length ≤ json.length) ∧ ∀ f : Text → Text, (do
        let endQuote ← closingQuote json json.length (startQuote + 1)
        if json.length ≤ endQuote then return none
        else
          let value ← substrAt json (startQuote + 1) (sizeSub (sizeSub endQuote startQuote) 1)
          return some (f value) : Except StdError (Option Text)) = .ok (value.map f) := by
  obtain ⟨endQuote, hrun, hle, hold⟩ :=
    closingQuote_run hjson (Nat.succ_pos startQuote) hstart hrounds
  unfold quotedValue
  rw [add_of_le (by omega), hrun, hold]
  by_cases hend : json.length ≤ endQuote
  · refine ⟨none, if_pos hend, by simp, fun f => if_pos hend⟩
  · have hlt : startQuote < endQuote := hle
    refine ⟨some ((json.drop (startQuote + 1)).take (endQuote - startQuote - 1)), ?_, ?_, ?_⟩
    · simp only [bind, Except.bind, if_neg hend, substrBetween_of_lt hjson hlt (by omega)]
      rfl
    · simp only [Option.mem_some_iff, forall_eq', List.length_take, List.length_drop]
      omega
    · intro f
      have hvalue := substrAt_between hlt (by omega : endQuote ≤ json.length)
      simp only [bind, Except.bind, if_neg hend, hvalue]
      rfl

theorem StorageDatabaseResolver.extractStringValue_agrees (hjson : json.length < npos)
    (hrounds : json.length < rounds) (key : Text) :
    Returns (extractStringValue rounds json key) fun value =>
      KVStore.StorageDatabaseResolver.extractStringValue json key = .ok value := by
  unfold extractStringValue KVStore.StorageDatabaseResolver.extractStringValue
  rcases findAt_cases hjson (searchKey key) 0 with
    ⟨hkey, hnpos⟩ | ⟨keyPos, hkey, hat, hne, -, hlt⟩
  · rw [hnpos, hkey]
    exact ⟨none, if_pos rfl, rfl⟩
  simp only [hat, if_neg hne, hkey, add_of_le (hlt.trans hjson.le)]
  rcases findAt_cases hjson [':'] (keyPos + (searchKey key).length) with
    ⟨hcolon, hnpos⟩ | ⟨colonPos, hcolon, hat, hne, -, hlt⟩
  · rw [hnpos, hcolon]
    exact ⟨none, if_pos rfl, rfl⟩
  have hlt : colonPos + 1 ≤ json.length := hlt
  obtain ⟨valueStart, hrun, hle, hold⟩ := skipSpace_run hjson hlt hrounds
  simp only [hat, if_neg hne, hcolon, add_of_le (hlt.trans hjson.le), hrun, hold, bind,
    Except.bind]
  by_cases hend : json.length ≤ valueStart
  · exact ⟨none, if_pos hend, if_pos hend⟩
  have hstart : valueStart < json.length := Nat.lt_of_not_le hend
  simp only [if_neg hend, getSubstr_of_le hle, substrAt_of_le hle, getChar_of_lt hstart,
    charAt_of_lt hstart]
  by_cases hnull : (json.drop valueStart).take 4 = "null".toList
  · exact ⟨some [], if_pos hnull, if_pos hnull⟩
  by_cases hquote : json[valueStart] = '"'
  · obtain ⟨value, hvalue, -, hread⟩ := quotedValue_run hjson hrounds hstart
    refine ⟨value, ?_, ?_⟩
    · rw [if_neg hnull, if_neg (not_not_intro hquote), hvalue]
    · have hread := hread id
      rw [Option.map_id] at hread
      rw [if_neg hnull, if_neg (not_not_intro hquote)]
      exact hread
  · refine ⟨none, ?_, ?_⟩
    · rw [if_neg hnull, if_pos hquote]
      rfl
    · rw [if_neg hnull, if_pos hquote]
      rfl

theorem FileConfigProvider.extractStringValue_agrees (hjson : json.length < npos)
    (hrounds : json.length < rounds) (key : Text) :
    Returns (extractStringValue rounds json key) fun value =>
      KVStore.FileConfigProvider.extractStringValue json key = .ok value := by
  unfold extractStringValue KVStore.FileConfigProvider.extractStringValue
  rcases findAt_cases hjson (searchKey key) 0 with
    ⟨hkey, hnpos⟩ | ⟨keyPos, hkey, hat, hne, -, hlt⟩
  · rw [hnpos, hkey]
    exact ⟨none, if_pos rfl, rfl⟩
  simp only [hat, if_neg hne, hkey, add_of_le (hlt.trans hjson.le)]
  rcases findAt_cases hjson [':'] (keyPos + (searchKey key).length) with
    ⟨hcolon, hnpos⟩ | ⟨colonPos, hcolon, hat, hne, -, hlt⟩
  · rw [hnpos, hcolon]
    exact ⟨none, if_pos rfl, rfl⟩
  have hlt : colonPos + 1 ≤ json.length := hlt
  simp only [hat, if_neg hne, hcolon, add_of_le (hlt.trans hjson.le)]
  rcases findAt_cases hjson ['"'] (colonPos + 1) with
    ⟨hquote, hnpos⟩ | ⟨startQuote, hquote, hat, hne, -, hlt⟩
  · rw [hnpos, hquote]
    exact ⟨none, if_pos rfl, rfl⟩
  have hlt : startQuote + 1 ≤ json.length := hlt
  obtain ⟨value, hvalue, hlength, hread⟩ := quotedValue_run hjson hrounds hlt
  simp only [hat, if_neg hne, hquote, hvalue, hread unescape]
  cases value with
  | none => exact ⟨none, rfl, rfl⟩
  | some value =>
    have hbound := hlength value rfl
    obtain ⟨value', hrun, hbound', hquotes⟩ := unescape_run (a := '\\') (b := '"') (c := '"') hbound
      hjson hrounds
    obtain ⟨value'', hrun', -, hslashes⟩ := unescape_run (a := '\\') (b := '\\') (c := '\\')
      hbound' hjson hrounds
    refine ⟨some value'', ?_, ?_⟩
    · simp only [bind, Except.bind, hrun, hrun']
      rfl
    · simp only [Option.map_some, unescape, hquotes, hslashes]

/-- The reader of the map; on a text without room for as many braces as the largest `int`, it gives
the map of the model on plain counts. -/
theorem StorageDatabaseResolver.extractRegionStorageMap_agrees (hjson : json.length < npos)
    (hrounds : json.length < rounds) (regionMap : List (Text × List Text)) :
    Returns (extractRegionStorageMap rounds json regionMap) fun r =>
      json.length < 2147483647 →
        KVStore.StorageDatabaseResolver.extractRegionStorageMap json regionMap = .ok r := by
  unfold extractRegionStorageMap KVStore.StorageDatabaseResolver.extractRegionStorageMap
  rcases findAt_cases hjson (searchKey "regionStorageMap".toList) 0 with
    ⟨hkey, hnpos⟩ | ⟨keyPos, hkey, hat, hne, -, hlt⟩
  · rw [hnpos, hkey]
    exact ⟨(false, regionMap), if_pos rfl, fun _ => rfl⟩
  simp only [hat, if_neg hne, hkey, add_of_le (hlt.trans hjson.le)]
  rcases findAt_cases hjson ['{'] (keyPos + (searchKey "regionStorageMap".toList).length) with
    ⟨hbrace, hnpos⟩ | ⟨bracePos, hbrace, hat, hne, -, hlt⟩
  · rw [hnpos, hbrace]
    exact ⟨(false, regionMap), if_pos rfl, fun _ => rfl⟩
  have hlt : bracePos + 1 ≤ json.length := hlt
  obtain ⟨⟨endBrace, braceCount⟩, hrun, hle, hpassed⟩ := matchBrace_run hjson hlt hrounds
  have hplain := fun hshort : json.length < 2147483647 =>
    matchBrace_of_run hshort (Nat.succ_pos bracePos) hlt hrounds hrun
  simp only [hat, if_neg hne, hbrace, add_of_le (hlt.trans hjson.le), hrun, bind, Except.bind]
  by_cases hopen : braceCount ≠ 0
  · refine ⟨(false, regionMap), if_pos hopen, fun hshort => ?_⟩
    obtain ⟨hnonneg, hmatch⟩ := hplain hshort
    have hnat : braceCount.toNat ≠ 0 := by omega
    simp only [hmatch]
    exact if_pos hnat
  obtain rfl := not_not.mp hopen
  have hinside : bracePos + 1 < endBrace := hpassed rfl
  have hmap : ((json.drop (bracePos + 1)).take (endBrace - bracePos - 2)).length ≤ json.length := by
    simp only [List.length_take, List.length_drop]
    omega
  obtain ⟨regions, hregions, hloop⟩ := region_run (hmap.trans_lt hjson) (hmap.trans_lt hrounds)
    regionMap
  refine ⟨(regions ≠ [], regions), ?_, fun hshort => ?_⟩
  · simp only [ne_eq, not_true_eq_false, if_false, sub_of_le (by omega : bracePos ≤ endBrace),
      sub_of_le (by omega : 2 ≤ endBrace - bracePos), getSubstr_of_le hlt, hregions]
    rfl
  · have hcount : sizeSub (sizeSub endBrace bracePos) 2 = endBrace - bracePos - 2 := by
      rw [sizeSub_of_le (by omega : bracePos ≤ endBrace), sizeSub_of_le (by omega)]
    simp only [(hplain hshort).2, Int.toNat_zero, ne_eq, not_true_eq_false, if_false, hcount,
      substrAt_of_le hlt, hloop]
    rfl

end

end Scan

/-- **The configuration readers are total**: on every text and key, with rounds for each character
and one more, none of them has a fault. -/
theorem extractors_total (json key : StdString) (regionMap : List (Text × List Text)) {rounds : Nat}
    (hrounds : json.text.length < rounds) :
    (∃ value, Scan.StorageDatabaseResolver.extractStringValue rounds json.text key.text =
        .ok value) ∧
      (∃ r, Scan.StorageDatabaseResolver.extractRegionStorageMap rounds json.text regionMap =
        .ok r) ∧
      ∃ value, Scan.FileConfigProvider.extractStringValue rounds json.text key.text =
        .ok value := by
  refine ⟨?_, ?_, ?_⟩
  · obtain ⟨value, hvalue, -⟩ := Scan.StorageDatabaseResolver.extractStringValue_agrees
      json.length_lt hrounds key.text
    exact ⟨value, hvalue⟩
  · obtain ⟨r, hr, -⟩ := Scan.StorageDatabaseResolver.extractRegionStorageMap_agrees
      json.length_lt hrounds regionMap
    exact ⟨r, hr⟩
  · obtain ⟨value, hvalue, -⟩ := Scan.FileConfigProvider.extractStringValue_agrees
      json.length_lt hrounds key.text
    exact ⟨value, hvalue⟩

/-- A text that ends inside of a string, behind an escaped quote. -/
def cutOffText : StdString := ⟨"\x7b\"location\": \"west\\\"".toList, by decide⟩

theorem extractors_total_cutOff :
    (∃ value, Scan.StorageDatabaseResolver.extractStringValue 30 cutOffText.text
        "location".toList = .ok value) ∧
      (∃ r, Scan.StorageDatabaseResolver.extractRegionStorageMap 30 cutOffText.text [] = .ok r) ∧
      ∃ value, Scan.FileConfigProvider.extractStringValue 30 cutOffText.text
        "location".toList = .ok value :=
  extractors_total cutOffText ⟨"location".toList, by decide⟩ [] (by decide)

end KVStore
