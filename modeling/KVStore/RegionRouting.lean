import KVStore.AccountConfig
import KVStore.Lib.Json
import Mathlib.Data.List.Chain
import Mathlib.Data.List.Count
import Mathlib.Data.List.Nodup

/-!
# Which accounts a region is mapped to

`ExtractRegionStorageMap` on a well-formed JSON object. The loop over the regions takes the next
name and then the next brackets, whether or not they stand in the value of the member so named
(`regionEntries_members`). `extractRegionStorageMap_faithful_iff`: where the searches stop at the
quotes and brackets of the map, every region is mapped to its own accounts exactly when brackets
with a string between them are those of an array of strings, whose member stands first or directly
behind one with brackets, and neither the strings nor the name of the member have escapes; members at
the end of the map without two quotes between brackets may be anything. A region whose value is
`null` is mapped to the accounts of the next one (`extractRegionStorageMap_null_region`).
-/

namespace KVStore

open TextSearch Json StorageDatabaseResolver

/-! ## Arrays of strings -/

def stringElements : List (Element Value) → Option (List Text)
  | [] => some []
  | ⟨_, .string s, _⟩ :: es => (stringElements es).map (decode s :: ·)
  | _ :: _ => none

/-- What an array of strings means. -/
def strings : Value → Option (List Text)
  | .array _ elements => stringElements elements
  | _ => none

theorem stringElements_of_values {elements : List (Element Value)} {ss : List (List Piece)}
    (h : elements.map Element.value = ss.map Value.string) :
    stringElements elements = some (ss.map decode) := by
  induction elements generalizing ss with
  | nil =>
    obtain rfl := List.map_eq_nil_iff.mp h.symm
    rfl
  | cons e elements ih =>
    obtain ⟨s, ss, rfl, hs, hss⟩ := List.map_eq_cons_iff.mp h.symm
    obtain ⟨before, value, after⟩ := e
    obtain rfl : Value.string s = value := hs
    rw [stringElements, ih hss.symm]
    rfl

theorem values_of_stringElements {elements : List (Element Value)} {L : List Text}
    (h : stringElements elements = some L) :
    ∃ ss : List (List Piece), elements.map Element.value = ss.map Value.string ∧
      L = ss.map decode := by
  induction elements generalizing L with
  | nil => exact ⟨[], rfl, (Option.some.inj h).symm⟩
  | cons e elements ih =>
    obtain ⟨before, value, after⟩ := e
    cases value with
    | string s =>
      obtain ⟨L', hL', rfl⟩ := Option.map_eq_some_iff.mp h
      obtain ⟨ss, hss, rfl⟩ := ih hL'
      exact ⟨s :: ss, congrArg (Value.string s :: ·) hss, rfl⟩
    | null | bool | number | array | object => cases h

/-- The loop finds the strings of an array, as they are written. -/
theorem quotedStrings_elements {elements : List (Element Value)} {ss : List (List Piece)}
    (hss : elements.map Element.value = ss.map Value.string) (hquote : ∀ s ∈ ss, '"' ∉ raw s)
    {fuel : Nat} (hfuel : elements.length ≤ fuel) {pre : Text} (hpre : '"' ∉ pre) :
    quotedStrings fuel (pre ++ textAfter (elementTexts elements)) = ss.map raw := by
  induction elements generalizing ss fuel pre with
  | nil =>
    obtain rfl := List.map_eq_nil_iff.mp hss.symm
    have hnone : cut '"' (pre ++ textAfter (elementTexts [])) = none := by
      rw [elementTexts, textAfter_nil, List.append_nil]
      exact cut_none hpre
    cases fuel with
    | zero => rfl
    | succ fuel => rw [quotedStrings, hnone, List.map_nil]
  | cons e elements ih =>
    obtain ⟨fuel, rfl⟩ := Nat.exists_eq_add_of_le' (Nat.lt_of_lt_of_le (Nat.zero_lt_succ _) hfuel)
    obtain ⟨s, ss, rfl, hs, hrest⟩ := List.map_eq_cons_iff.mp hss.symm
    obtain ⟨before, value, after⟩ := e
    obtain rfl : Value.string s = value := hs
    obtain ⟨hraw, hquote⟩ := List.forall_mem_cons.mp hquote
    have htext : pre ++ textAfter (elementTexts (⟨before, .string s, after⟩ :: elements)) =
        (pre ++ ',' :: blankText before) ++ '"' :: (raw s ++ '"' ::
          (blankText after ++ textAfter (elementTexts elements))) := by
      rw [elementTexts, textAfter_cons, Element.text, Value.text, quoted]
      simp only [List.append_assoc, List.cons_append, List.nil_append]
    have hopen : '"' ∉ pre ++ ',' :: blankText before := by simp [hpre]
    rw [htext, quotedStrings, cut_append hopen]
    dsimp only
    rw [cut_append hraw]
    dsimp only
    rw [ih hrest.symm hquote (Nat.le_of_succ_le_succ hfuel) (quote_notMem_blankText after),
      List.map_cons]

theorem quotedStrings_comma (fuel : Nat) (text : Text) :
    quotedStrings fuel (',' :: text) = quotedStrings fuel text := by
  cases fuel with
  | zero => rfl
  | succ fuel =>
    rw [quotedStrings, cut_cons_ne (by decide), quotedStrings]
    cases cut '"' text <;> rfl

theorem quotedStrings_joined {elements : List (Element Value)} {ss : List (List Piece)}
    (hss : elements.map Element.value = ss.map Value.string) (hquote : ∀ s ∈ ss, '"' ∉ raw s)
    (blank : List Blank) :
    quotedStrings (joined blank (elementTexts elements)).length
      (joined blank (elementTexts elements)) = ss.map raw := by
  have hread {pre : Text} (hpre : '"' ∉ pre) :=
    quotedStrings_elements hss hquote (length_le_elements blank elements) hpre
  by_cases hnil : elements = []
  · subst hnil
    have hblank := hread (quote_notMem_blankText blank)
    rw [elementTexts, textAfter_nil, List.append_nil] at hblank
    rw [elementTexts, joined_nil]
    rwa [joined_nil] at hblank
  · have hne : elementTexts elements ≠ [] := by
      rw [elementTexts_eq_map]
      exact mt List.map_eq_nil_iff.mp hnil
    rw [← quotedStrings_comma, comma_joined hne]
    exact hread (List.not_mem_nil (a := '"'))

/-- What the loop finds has no quote in it. -/
theorem quote_notMem_quotedStrings {fuel : Nat} {s elem : Text}
    (h : elem ∈ quotedStrings fuel s) : '"' ∉ elem := by
  induction fuel generalizing s with
  | zero => cases h
  | succ fuel ih =>
    rw [quotedStrings] at h
    split at h
    · cases h
    · split at h
      · cases h
      · next hcut =>
        rcases List.mem_cons.mp h with rfl | h
        · exact (cut_eq_some hcut).2
        · exact ih h

/-- It finds something where two quotes stand. -/
theorem quotedStrings_ne_nil_iff {s : Text} :
    quotedStrings s.length s ≠ [] ↔ 2 ≤ s.count '"' := by
  constructor
  · intro h
    cases hlen : s.length with
    | zero =>
      rw [hlen] at h
      exact absurd rfl h
    | succ n =>
      rw [hlen, quotedStrings] at h
      split at h
      · exact absurd rfl h
      · next hfirst =>
        split at h
        · exact absurd rfl h
        · next hsecond =>
          rw [(cut_eq_some hfirst).1, (cut_eq_some hsecond).1]
          simp only [List.count_append, List.count_cons_self]
          omega
  · intro h
    have hmem : '"' ∈ s := List.count_pos_iff.mp (by omega)
    obtain ⟨n, hn⟩ : ∃ n, s.length = n + 1 :=
      Nat.exists_eq_succ_of_ne_zero (mt List.length_eq_zero_iff.mp (List.ne_nil_of_mem hmem))
    rw [hn]
    obtain ⟨pre, post, rfl, hpre⟩ := List.eq_append_cons_of_mem hmem
    rw [List.count_append, List.count_eq_zero.mpr hpre, List.count_cons_self] at h
    have hmem' : '"' ∈ post := List.count_pos_iff.mp (by omega)
    obtain ⟨elem, post, rfl, helem⟩ := List.eq_append_cons_of_mem hmem'
    rw [quotedStrings, cut_append hpre]
    dsimp only
    rw [cut_append helem]
    exact List.cons_ne_nil _ _

/-! ## Brackets -/

/-- The text between the first opening bracket of a value and the next closing one. -/
def bracketed (v : Value) : Text :=
  match cut '[' v.text with
  | none => []
  | some (_, s) => (cut ']' s).elim [] Prod.fst

/-- The value holds brackets around `body`, and no quote behind them. -/
def Brackets (v : Value) (body : Text) : Prop :=
  ∃ before behind, v.text = before ++ '[' :: (body ++ ']' :: behind) ∧
    '[' ∉ before ∧ ']' ∉ body ∧ '"' ∉ behind

theorem Brackets.bracketed_eq {v : Value} {body : Text} (h : Brackets v body) :
    bracketed v = body := by
  obtain ⟨before, behind, htext, hbefore, hbody, -⟩ := h
  rw [bracketed, htext, cut_append hbefore]
  dsimp only
  rw [cut_append hbody]
  rfl

theorem brackets_array {blank : List Blank} {elements : List (Element Value)}
    (h : ']' ∉ joined blank (elementTexts elements)) :
    Brackets (.array blank elements) (bracketed (.array blank elements)) := by
  have hbrackets : Brackets (.array blank elements) (joined blank (elementTexts elements)) := by
    refine ⟨[], [], ?_, List.not_mem_nil, h, List.not_mem_nil⟩
    rw [Value.text, List.nil_append]
  rwa [hbrackets.bracketed_eq]

theorem bracketed_eq_nil {v : Value} (h : '[' ∉ v.text) : bracketed v = [] := by
  rw [bracketed, cut_none h]

theorem openBracket_mem_of_strings {v : Value} {L : List Text} (h : strings v = some L) :
    '[' ∈ v.text := by
  cases v with
  | array blank elements =>
    rw [Value.text]
    exact List.mem_cons_self
  | null | bool | number | string | object => cases h

/-- Behind the last quote of an array of strings there are only blanks. -/
theorem joined_strings {elements : List (Element Value)} {ss : List (List Piece)}
    (hss : elements.map Element.value = ss.map Value.string) (blank : List Blank) :
    (∃ blank', joined blank (elementTexts elements) = blankText blank') ∨
      ∃ y blank', joined blank (elementTexts elements) = y ++ '"' :: blankText blank' := by
  rcases List.eq_nil_or_concat' elements with rfl | ⟨init, e, rfl⟩
  · exact Or.inl ⟨blank, by rw [elementTexts, joined_nil]⟩
  · have he : ∃ s, e.value = .string s := by
      have hmem : e.value ∈ (init ++ [e]).map Element.value :=
        List.mem_map_of_mem (List.mem_append_right _ List.mem_cons_self)
      rw [hss] at hmem
      obtain ⟨s, -, hs⟩ := List.mem_map.mp hmem
      exact ⟨s, hs.symm⟩
    obtain ⟨before, value, after⟩ := e
    obtain ⟨s, rfl⟩ := he
    refine Or.inr ⟨textBefore (init.map Element.text) ++ (blankText before ++ '"' :: raw s),
      after, ?_⟩
    rw [elementTexts_eq_map, List.map_append, List.map_singleton, joined_split, textAfter_nil,
      Element.text, Value.text, quoted]
    simp only [List.append_assoc, List.cons_append, List.nil_append, List.append_nil]

/-- The brackets of an array of strings are its own. -/
theorem Brackets.eq_joined {blank : List Blank} {elements : List (Element Value)} {body : Text}
    {ss : List (List Piece)} (h : Brackets (.array blank elements) body)
    (hss : elements.map Element.value = ss.map Value.string) :
    body = joined blank (elementTexts elements) := by
  obtain ⟨before, behind, htext, hbefore, -, hquote⟩ := h
  rw [Value.text] at htext
  cases before with
  | cons c before =>
    obtain rfl := (List.cons.inj htext).1
    exact absurd List.mem_cons_self hbefore
  | nil =>
    have hinner : joined blank (elementTexts elements) ++ [']'] = body ++ ']' :: behind :=
      (List.cons.inj htext).2
    rcases List.eq_nil_or_concat' behind with rfl | ⟨behind, c, rfl⟩
    · exact (List.append_cancel_right hinner).symm
    · -- a bracket before the last one would stand in a string, with the quote behind it
      have hjoined : joined blank (elementTexts elements) = body ++ ']' :: behind := by
        have hsplit : joined blank (elementTexts elements) ++ [']'] =
            (body ++ ']' :: behind) ++ [c] := by
          rw [hinner, List.append_assoc, List.cons_append]
        exact (List.append_inj' hsplit rfl).1
      have hbehind : '"' ∉ ']' :: behind := by
        intro hm
        rcases List.mem_cons.mp hm with hm | hm
        · exact absurd hm (by decide)
        · exact hquote (List.mem_append_left _ hm)
      have hblank (blank' : List Blank) : ']' ∉ blankText blank' :=
        notMem_blankText (by decide) blank'
      rcases joined_strings hss blank with ⟨blank', htext'⟩ | ⟨y, blank', htext'⟩
      · rw [htext'] at hjoined
        exact absurd (hjoined ▸ List.mem_append_right _ List.mem_cons_self) (hblank blank')
      · rw [htext'] at hjoined
        rcases List.append_eq_append_iff.mp hjoined with ⟨k, -, hk⟩ | ⟨k, -, hk⟩
        · cases k with
          | nil => exact absurd (List.cons.inj hk).1 (by decide)
          | cons c' k =>
            refine absurd ?_ (hblank blank')
            rw [(List.cons.inj hk).2]
            exact List.mem_append_right _ List.mem_cons_self
        · refine absurd ?_ hbehind
          rw [hk]
          exact List.mem_append_right _ List.mem_cons_self

/-! ## What the loop over the regions reads -/

/-- Where the searches stop in a map whose names and values may hold brackets and quotes: a name
with an escaped quote has no opening bracket; behind the brackets of a value there is no quote in
it; and a name with an opening bracket does not stand behind a value without one. -/
structure Scannable (regions : List (Member Value)) : Prop where
  names : ∀ m ∈ regions, '"' ∈ raw m.name → '[' ∉ raw m.name
  values : ∀ m ∈ regions, '[' ∈ m.value.text → Brackets m.value (bracketed m.value)
  chain : regions.IsChain fun m m' => '[' ∉ m.value.text → '[' ∉ raw m'.name

/-- What is taken for the name of a member: the text up to the first quote. -/
def takenName (m : Member Value) : Text := (cut '"' (raw m.name)).elim (raw m.name) Prod.fst

/-- The text in each pair of brackets, with the name that it is taken for: the first one behind the
brackets before it. -/
def pairs : Option Text → List (Member Value) → List (Text × Text)
  | _, [] => []
  | pending, m :: ms =>
    if '[' ∈ m.value.text then (pending.getD (takenName m), bracketed m.value) :: pairs none ms
    else pairs (some (pending.getD (takenName m))) ms

def entry (p : Text × Text) : Text × List Text := (p.1, quotedStrings p.2.length p.2)

theorem Scannable.tail {m : Member Value} {ms : List (Member Value)} (h : Scannable (m :: ms)) :
    Scannable ms where
  names m' hm' := h.names m' (List.mem_cons_of_mem m hm')
  values m' hm' := h.values m' (List.mem_cons_of_mem m hm')
  chain := h.chain.tail

/-- The search for an array, where no bracket stands before it. -/
theorem nextArray_array {x body : Text} (hx : '[' ∉ x) (hbody : ']' ∉ body) (y : Text) :
    nextArray (x ++ '[' :: (body ++ ']' :: y)) = some (quotedStrings body.length body, y) := by
  rw [nextArray, cut_append hx]
  dsimp only
  rw [cut_append hbody]
  rfl

/-- The text of a member behind the quote that closes its name. -/
def behindName (m : Member Value) (x : Text) : Text :=
  blankText m.between ++ ':' :: (blankText m.gap ++ (m.value.text ++ (blankText m.after ++ x)))

theorem textAfter_member (m : Member Value) (ms : List (Member Value)) (pre t : Text) :
    pre ++ (textAfter (memberTexts (m :: ms)) ++ t) =
      (pre ++ ',' :: blankText m.before) ++ '"' :: (raw m.name ++ '"' ::
        behindName m (textAfter (memberTexts ms) ++ t)) := by
  rw [memberTexts, textAfter_cons, Member.text_eq, behindName, quoted]
  simp only [List.append_assoc, List.cons_append, List.nil_append]

theorem takenName_of_notMem {m : Member Value} (h : '"' ∉ raw m.name) :
    takenName m = raw m.name := by
  rw [takenName, cut_none h]
  rfl

theorem exists_takenName {m : Member Value} (h : '"' ∈ raw m.name) :
    ∃ rest, raw m.name = takenName m ++ '"' :: rest ∧ '"' ∉ takenName m := by
  obtain ⟨name, rest, hraw, hname⟩ := List.eq_append_cons_of_mem h
  have htaken : takenName m = name := by
    rw [takenName, hraw, cut_append hname]
    rfl
  exact ⟨rest, htaken ▸ hraw, htaken ▸ hname⟩

theorem quote_notMem_takenName (m : Member Value) : '"' ∉ takenName m := by
  by_cases h : '"' ∈ raw m.name
  · exact (exists_takenName h).choose_spec.2
  · rwa [takenName_of_notMem h]

/-- From the name that is taken to the value there is no opening bracket. -/
theorem exists_behindTaken {m : Member Value} (h : '"' ∈ raw m.name → '[' ∉ raw m.name) :
    ∃ x, '[' ∉ x ∧ ∀ y, raw m.name ++ '"' :: y = takenName m ++ '"' :: (x ++ y) := by
  by_cases hquote : '"' ∈ raw m.name
  · obtain ⟨rest, hraw, -⟩ := exists_takenName hquote
    have hopen := h hquote
    rw [hraw] at hopen
    refine ⟨rest ++ ['"'], fun hm => ?_, fun y => ?_⟩
    · rcases List.mem_append.mp hm with hm | hm
      · exact hopen (List.mem_append_right _ (List.mem_cons_of_mem _ hm))
      · exact absurd (List.mem_singleton.mp hm) (by decide)
    · nth_rewrite 1 [hraw]
      simp only [List.append_assoc, List.cons_append, List.nil_append]
  · exact ⟨[], List.not_mem_nil, fun y => by rw [takenName_of_notMem hquote, List.nil_append]⟩

/-- What is read from the quote behind a name on. -/
def entriesFrom (fuel : Nat) (name : Text) (s : Text) : List (Text × List Text) :=
  match nextArray s with
  | none => []
  | some (accounts, s) => (name, accounts) :: regionEntries fuel s

theorem regionEntries_quoted {pre name : Text} (hpre : '"' ∉ pre) (hname : '"' ∉ name) (fuel : Nat)
    (s : Text) :
    regionEntries (fuel + 1) (pre ++ '"' :: (name ++ '"' :: s)) = entriesFrom fuel name s := by
  rw [regionEntries, cut_append hpre]
  dsimp only
  rw [cut_append hname]
  rfl

/-- A member with brackets: what is in them is read, and the loop goes on behind them. -/
theorem entriesFrom_brackets {m : Member Value} {body : Text} (h : Brackets m.value body)
    {x : Text} (hx : '[' ∉ x) (fuel : Nat) (name y : Text) :
    ∃ behind, '"' ∉ behind ∧ entriesFrom fuel name (x ++ behindName m y) =
      entry (name, body) :: regionEntries fuel (behind ++ y) := by
  obtain ⟨before, behind, hvalue, hbefore, hbody, hbehind⟩ := h
  have htext : x ++ behindName m y =
      (x ++ (blankText m.between ++ ':' :: (blankText m.gap ++ before))) ++
        '[' :: (body ++ ']' :: ((behind ++ blankText m.after) ++ y)) := by
    rw [behindName, hvalue]
    simp only [List.append_assoc, List.cons_append]
  have hopen : '[' ∉ x ++ (blankText m.between ++ ':' :: (blankText m.gap ++ before)) := by
    simp [hx, hbefore]
  refine ⟨behind ++ blankText m.after, by simp [hbehind], ?_⟩
  rw [entriesFrom, htext, nextArray_array hopen hbody]
  rfl

/-- A text without brackets that have two quotes between them. -/
def Idle : Text → Prop
  | [] => True
  | c :: s => (c = '[' → ∀ p ∈ cut ']' s, p.1.count '"' < 2) ∧ Idle s

instance decidableIdle : (s : Text) → Decidable (Idle s)
  | [] => inferInstanceAs (Decidable True)
  | c :: s =>
    have := decidableIdle s
    inferInstanceAs (Decidable ((c = '[' → ∀ p ∈ cut ']' s, p.1.count '"' < 2) ∧ Idle s))

theorem Idle.of_append {s t : Text} (h : Idle (s ++ t)) : Idle t := by
  induction s with
  | nil => exact h
  | cons c s ih => exact ih h.2

/-- The entry has accounts, so that it is kept. -/
def assigns (e : Text × List Text) : Bool := !e.2.isEmpty

theorem foldl_assigns (entries regionMap : List (Text × List Text)) :
    (entries.filter assigns).foldl assignRegion regionMap =
      entries.foldl assignRegion regionMap := by
  rw [List.foldl_filter]
  congr
  funext regionMap e
  unfold assigns assignRegion
  cases e.2 <;> rfl

/-- The loop finds no accounts in an idle text, wherever it stands. -/
theorem Idle.assigns_entriesFrom {t : Text} (h : Idle t) {fuel : Nat}
    (hrest : ∀ {s}, Idle s → (regionEntries fuel s).filter assigns = []) {x : Text} (hx : '[' ∉ x)
    (name : Text) : (entriesFrom fuel name (x ++ t)).filter assigns = [] := by
  by_cases hopen : '[' ∈ t
  · obtain ⟨a, b, rfl, ha⟩ := List.eq_append_cons_of_mem hopen
    have hopen' : '[' ∉ x ++ a := by simp [hx, ha]
    obtain ⟨hcount, hidle⟩ := h.of_append
    rw [entriesFrom, nextArray, ← List.append_assoc, cut_append hopen']
    dsimp only
    cases hcut : cut ']' b with
    | none => rfl
    | some p =>
      obtain ⟨body, y⟩ := p
      have hnil : quotedStrings body.length body = [] :=
        not_not.mp (mt quotedStrings_ne_nil_iff.mp (Nat.not_le.mpr (hcount rfl _ hcut)))
      obtain ⟨rfl, -⟩ := cut_eq_some hcut
      have hy : Idle y := Idle.of_append (s := body ++ [']']) (by simpa using hidle)
      simp [hnil, assigns, hrest hy]
  · have hnone : '[' ∉ x ++ t := by simp [hx, hopen]
    rw [entriesFrom, nextArray, cut_none hnone]
    rfl

theorem Idle.assigns_regionEntries {t : Text} (h : Idle t) (fuel : Nat) {pre : Text}
    (hpre : '"' ∉ pre) : (regionEntries fuel (pre ++ t)).filter assigns = [] := by
  induction fuel generalizing t pre with
  | zero => rfl
  | succ fuel ih =>
    by_cases hquote : '"' ∈ t
    · obtain ⟨a, b, rfl, ha⟩ := List.eq_append_cons_of_mem hquote
      have hopen : '"' ∉ pre ++ a := by simp [hpre, ha]
      have hb : Idle b := h.of_append.2
      by_cases hquote' : '"' ∈ b
      · obtain ⟨name, y, rfl, hname⟩ := List.eq_append_cons_of_mem hquote'
        rw [← List.append_assoc, regionEntries_quoted hopen hname]
        exact hb.of_append.2.assigns_entriesFrom (fun hs => @ih _ hs [] List.not_mem_nil)
          List.not_mem_nil name
      · rw [← List.append_assoc, regionEntries, cut_append hopen]
        dsimp only
        rw [cut_none hquote']
        rfl
    · have hnone : '"' ∉ pre ++ t := by simp [hpre, hquote]
      rw [regionEntries, cut_none hnone]
      rfl

/-- The loop over the regions, from the end of a member on (`none`) or from behind a name (`some`):
which members the next rounds read, up to an idle text. -/
theorem entries_members {ms : List (Member Value)} (h : Scannable ms) {t : Text} (ht : Idle t) :
    (∀ {fuel : Nat} {pre : Text}, ms.length ≤ fuel → '"' ∉ pre →
      (regionEntries fuel (pre ++ (textAfter (memberTexts ms) ++ t))).filter assigns =
        ((pairs none ms).map entry).filter assigns) ∧
    (∀ {fuel : Nat} {x : Text} (name : Text), ms.length ≤ fuel → '[' ∉ x →
      (∀ m ∈ ms.head?, '[' ∉ raw m.name) →
      (entriesFrom fuel name (x ++ (textAfter (memberTexts ms) ++ t))).filter assigns =
        ((pairs (some name) ms).map entry).filter assigns) := by
  induction ms with
  | nil =>
    rw [memberTexts, textAfter_nil, List.nil_append]
    exact ⟨fun {fuel _} _ hpre => ht.assigns_regionEntries fuel hpre,
      fun {fuel _} name _ hx _ => ht.assigns_entriesFrom
        (fun hs => @Idle.assigns_regionEntries _ hs fuel [] List.not_mem_nil) hx name⟩
  | cons m ms ih =>
    obtain ⟨ihNext, ihFrom⟩ := ih h.tail
    -- from behind the name of `m` or of a member before it, with no bracket up to `m`'s value
    have hfrom {fuel : Nat} {x : Text} (name : Text) (hfuel : ms.length ≤ fuel) (hx : '[' ∉ x) :
        (entriesFrom fuel name (x ++ behindName m (textAfter (memberTexts ms) ++ t))).filter
            assigns =
          ((if '[' ∈ m.value.text then (name, bracketed m.value) :: pairs none ms
            else pairs (some name) ms).map entry).filter assigns := by
      by_cases hopen : '[' ∈ m.value.text
      · obtain ⟨behind, hbehind, hread⟩ := entriesFrom_brackets
          (h.values m List.mem_cons_self hopen) hx fuel name (textAfter (memberTexts ms) ++ t)
        rw [if_pos hopen, hread, List.filter_cons, ihNext hfuel hbehind, List.map_cons,
          List.filter_cons]
      · have htext : x ++ behindName m (textAfter (memberTexts ms) ++ t) =
            (x ++ (blankText m.between ++ ':' :: blankText m.gap) ++
              (m.value.text ++ blankText m.after)) ++ (textAfter (memberTexts ms) ++ t) := by
          rw [behindName]
          simp only [List.append_assoc, List.cons_append]
        rw [if_neg hopen, htext]
        apply ihFrom name hfuel
        · simp [hx, hopen]
        · intro m' hm'
          obtain ⟨ms', rfl⟩ := List.head?_eq_some_iff.mp hm'
          exact (List.isChain_cons_cons.mp h.chain).1 hopen
    constructor
    · intro fuel pre hfuel hpre
      obtain ⟨fuel, rfl⟩ := Nat.exists_eq_add_of_le' (Nat.lt_of_lt_of_le (Nat.zero_lt_succ _) hfuel)
      have hopen : '"' ∉ pre ++ ',' :: blankText m.before := by simp [hpre]
      obtain ⟨x, hx, hname⟩ := exists_behindTaken (h.names m List.mem_cons_self)
      rw [textAfter_member, hname, regionEntries_quoted hopen (quote_notMem_takenName m),
        hfrom (takenName m) (Nat.le_of_succ_le_succ hfuel) hx]
      rfl
    · intro fuel x name hfuel hx hhead
      have hraw : '[' ∉ raw m.name := hhead m rfl
      have htext : x ++ (textAfter (memberTexts (m :: ms)) ++ t) =
          (x ++ ',' :: (blankText m.before ++ quoted (raw m.name))) ++
            behindName m (textAfter (memberTexts ms) ++ t) := by
        rw [textAfter_member, quoted]
        simp only [List.append_assoc, List.cons_append, List.nil_append]
      have hopen : '[' ∉ x ++ ',' :: (blankText m.before ++ quoted (raw m.name)) := by
        simp [quoted, hx, hraw]
      rw [htext, hfrom name (Nat.le_of_succ_le hfuel) hopen]
      rfl

/-- The loop over the regions pairs what is in brackets with names, up to members whose text is
idle. -/
theorem regionEntries_members {ms idle : List (Member Value)} (h : Scannable ms)
    (hidle : Idle (textAfter (memberTexts idle))) (blank : List Blank) :
    (regionEntries (joined blank (memberTexts (ms ++ idle))).length
        (joined blank (memberTexts (ms ++ idle)))).filter assigns =
      ((pairs none ms).map entry).filter assigns := by
  have hcomma (fuel : Nat) (text : Text) :
      regionEntries fuel (',' :: text) = regionEntries fuel text := by
    cases fuel with
    | zero => rfl
    | succ fuel =>
      rw [regionEntries, cut_cons_ne (by decide), regionEntries]
      cases cut '"' text <;> rfl
  have hfuel : ms.length ≤ (joined blank (memberTexts (ms ++ idle))).length := by
    have hlen := length_le_members blank (ms ++ idle)
    rw [List.length_append] at hlen
    omega
  have hread {pre : Text} (hpre : '"' ∉ pre) := (entries_members h hidle).1 hfuel hpre
  have htexts : textAfter (memberTexts ms) ++ textAfter (memberTexts idle) =
      textAfter (memberTexts (ms ++ idle)) := by
    simp only [memberTexts_eq_map, textAfter, List.map_append, List.flatMap_append]
  rw [htexts] at hread
  by_cases hnil : ms ++ idle = []
  · rw [hnil] at hread ⊢
    have hblank := hread (quote_notMem_blankText blank)
    rw [memberTexts, textAfter_nil, List.append_nil] at hblank
    rw [memberTexts, joined_nil]
    rwa [joined_nil] at hblank
  · have hne : memberTexts (ms ++ idle) ≠ [] := by
      rw [memberTexts_eq_map]
      exact mt List.map_eq_nil_iff.mp hnil
    rw [← hcomma, comma_joined hne]
    exact hread (List.not_mem_nil (a := '"'))

/-! ## Own accounts -/

/-- The map has a member `regionName` with these accounts. -/
def ListedFor (regions : List (Member Value)) (regionName : Text) (accounts : List Text) : Prop :=
  ∃ m ∈ regions, decode m.name = regionName ∧ strings m.value = some accounts

/-- An array of strings without escapes. -/
def PlainStrings (v : Value) : Prop :=
  ∃ blank elements, ∃ ss : List (List Piece), v = .array blank elements ∧
    elements.map Element.value = ss.map Value.string ∧ ∀ s ∈ ss, Unescaped s

/-- Brackets with a string between them are those of an array of strings; its member, whose name has
no escapes, stands first or directly behind one with brackets too (`fresh`). -/
def InStep : Bool → List (Member Value) → Prop
  | _, [] => True
  | fresh, m :: ms =>
    (2 ≤ (bracketed m.value).count '"' →
      fresh = true ∧ Unescaped m.name ∧ PlainStrings m.value) ∧
      InStep (decide ('[' ∈ m.value.text)) ms

/-- What a name means, and what it is taken for. -/
def nameForms (m : Member Value) : List Text := [decode m.name, takenName m]

/-- No name means what another one means or is taken for. -/
def DistinctNames (regions : List (Member Value)) : Prop :=
  regions.Pairwise fun m m' => (nameForms m).Disjoint (nameForms m')

theorem DistinctNames.eq_of_mem {regions : List (Member Value)} (h : DistinctNames regions)
    {m m' : Member Value} (hm : m ∈ regions) (hm' : m' ∈ regions) {name : Text}
    (hname : name ∈ nameForms m) (hname' : name ∈ nameForms m') : m = m' := by
  have hsymm : Std.Symm fun m m' : Member Value => (nameForms m).Disjoint (nameForms m') :=
    ⟨fun _ _ hd _ h h' => hd h' h⟩
  by_contra hne
  exact h.forall hm hm' hne hname hname'

/-- A name that is taken for what it means has no escapes. -/
theorem unescaped_of_takenName {m : Member Value} (h : takenName m = decode m.name) :
    Unescaped m.name := by
  have hquote : '"' ∉ raw m.name := fun hm =>
    quote_notMem_takenName m (h ▸ quote_mem_decode (escape_of_quote_mem hm))
  rw [takenName_of_notMem hquote] at h
  exact unescaped_of_raw_eq h

/-- An array that the loop reads as what it means has no escapes. -/
theorem plainStrings_of_read {v : Value} {L : List Text} (h : Brackets v (bracketed v))
    (hL : strings v = some L)
    (hread : quotedStrings (bracketed v).length (bracketed v) = L) : PlainStrings v := by
  cases v with
  | array blank elements =>
    obtain ⟨ss, hss, rfl⟩ := values_of_stringElements hL
    have hquote : ∀ s ∈ ss, '"' ∉ raw s := by
      intro s hs hm
      have hmem : decode s ∈ quotedStrings (bracketed (.array blank elements)).length
          (bracketed (.array blank elements)) := hread ▸ List.mem_map_of_mem hs
      exact quote_notMem_quotedStrings hmem (quote_mem_decode (escape_of_quote_mem hm))
    rw [h.eq_joined hss, quotedStrings_joined hss hquote] at hread
    exact ⟨blank, elements, ss, rfl, hss, fun s hs =>
      unescaped_of_raw_eq (List.map_inj_left.mp hread s hs)⟩
  | null | bool | number | string | object => cases hL

theorem PlainStrings.read {v : Value} (h : PlainStrings v) (hbrackets : Brackets v (bracketed v)) :
    strings v = some (quotedStrings (bracketed v).length (bracketed v)) := by
  obtain ⟨blank, elements, ss, rfl, hss, hplain⟩ := h
  rw [hbrackets.eq_joined hss, quotedStrings_joined hss fun s hs => (hplain s hs).quote_notMem,
    strings, stringElements_of_values hss]
  exact congrArg some (List.map_congr_left fun s hs => (hplain s hs).raw_eq.symm)

/-- What the members of a map that are in step are paired with is listed for them. -/
theorem listedFor_of_inStep {regions ms : List (Member Value)} (hms : ms ⊆ regions)
    (h : Scannable ms) (pending : Option Text) (hstep : InStep pending.isNone ms) :
    ∀ p ∈ pairs pending ms, (entry p).2 ≠ [] → ListedFor regions p.1 (entry p).2 := by
  induction ms generalizing pending with
  | nil => exact fun _ hp => by cases hp
  | cons m ms ih =>
    have hrest := List.subset_of_cons_subset hms
    obtain ⟨hown, htail⟩ := hstep
    by_cases hopen : '[' ∈ m.value.text
    · rw [decide_eq_true hopen] at htail
      rw [pairs, if_pos hopen, List.forall_mem_cons]
      refine ⟨fun hne => ?_, ih hrest h.tail none htail⟩
      obtain ⟨hfresh, hname, hplain⟩ := hown (quotedStrings_ne_nil_iff.mp hne)
      obtain rfl := Option.isNone_iff_eq_none.mp hfresh
      refine ⟨m, hms List.mem_cons_self, ?_, hplain.read (h.values m List.mem_cons_self hopen)⟩
      exact (takenName_of_notMem hname.quote_notMem ▸ hname.raw_eq).symm
    · rw [decide_eq_false hopen] at htail
      rw [pairs, if_neg hopen]
      exact ih hrest h.tail (some _) htail

/-- The members are in step when what they are paired with is listed for them: brackets that are
paired with a name before their own (`pending`) are not listed for that name. -/
theorem inStep_of_listedFor {regions ms : List (Member Value)} (hnames : DistinctNames regions)
    (hms : ms ⊆ regions) (h : Scannable ms) (pending : Option Text)
    (hpending : ∀ name ∈ pending,
      ∃ m₀ ∈ regions, takenName m₀ = name ∧ strings m₀.value = none)
    (hlisted : ∀ p ∈ pairs pending ms, (entry p).2 ≠ [] → ListedFor regions p.1 (entry p).2) :
    InStep pending.isNone ms := by
  have hdecoded (m : Member Value) : decode m.name ∈ nameForms m := List.mem_cons_self
  have htaken (m : Member Value) : takenName m ∈ nameForms m :=
    List.mem_cons_of_mem _ List.mem_cons_self
  induction ms generalizing pending with
  | nil => trivial
  | cons m ms ih =>
    have hm : m ∈ regions := hms List.mem_cons_self
    have hrest := List.subset_of_cons_subset hms
    rw [pairs] at hlisted
    by_cases hopen : '[' ∈ m.value.text
    · rw [if_pos hopen, List.forall_mem_cons] at hlisted
      obtain ⟨hpair, htail⟩ := hlisted
      rw [InStep, decide_eq_true hopen]
      refine ⟨fun hcount => ?_, ih hrest h.tail none (fun _ hn => by cases hn) htail⟩
      obtain ⟨m', hm', hname, hstrings⟩ := hpair (quotedStrings_ne_nil_iff.mpr hcount)
      cases pending with
      | none =>
        obtain rfl := hnames.eq_of_mem hm' hm (hdecoded m') (hname ▸ htaken m)
        exact ⟨rfl, unescaped_of_takenName hname.symm,
          plainStrings_of_read (h.values m' List.mem_cons_self hopen) hstrings rfl⟩
      | some name =>
        obtain ⟨m₀, hm₀, hname₀, hnone⟩ := hpending name rfl
        rw [hnames.eq_of_mem hm' hm₀ (hdecoded m') (hname ▸ hname₀ ▸ htaken m₀), hnone] at hstrings
        cases hstrings
    · rw [if_neg hopen] at hlisted
      rw [InStep, decide_eq_false hopen, bracketed_eq_nil hopen]
      refine ⟨fun hcount => absurd hcount (by decide), ih hrest h.tail (some _) ?_ hlisted⟩
      intro name hname
      obtain rfl := Option.some.inj hname
      cases pending with
      | none =>
        have hnone : strings m.value = none :=
          Option.eq_none_iff_forall_ne_some.mpr fun L hL =>
            hopen (openBracket_mem_of_strings hL)
        exact ⟨m, hm, rfl, hnone⟩
      | some name => exact hpending name rfl

/-! ## The map -/

theorem lookup_assignRegion (regionMap : List (Text × List Text)) (e : Text × List Text)
    (regionName : Text) :
    (assignRegion regionMap e).lookup regionName =
      if e.2 ≠ [] ∧ e.1 = regionName then some e.2 else regionMap.lookup regionName := by
  unfold assignRegion
  by_cases hnil : e.2 = []
  · rw [if_pos hnil, if_neg (fun h => h.1 hnil)]
  · rw [if_neg hnil, List.lookup_cons]
    by_cases hname : e.1 = regionName
    · rw [if_pos ⟨hnil, hname⟩, hname]
      simp
    · rw [if_neg (fun h => hname h.2)]
      have hne : (regionName == e.1) = false := beq_false_of_ne (Ne.symm hname)
      rw [hne]
      induction regionMap with
      | nil => rfl
      | cons e' regionMap ih =>
        by_cases he' : e'.1 = e.1
        · have hne' : (regionName == e'.1) = false := by rw [he']; exact hne
          rw [List.filter_cons_of_neg (by simpa using he'), List.lookup_cons, hne']
          exact ih
        · rw [List.filter_cons_of_pos (by simpa using he'), List.lookup_cons, List.lookup_cons]
          cases regionName == e'.1 with
          | true => rfl
          | false => exact ih

/-- What the map holds was assigned. -/
theorem mem_of_lookup {entries regionMap : List (Text × List Text)} {regionName : Text}
    {accounts : List Text}
    (h : (entries.foldl assignRegion regionMap).lookup regionName = some accounts) :
    regionMap.lookup regionName = some accounts ∨
      ((regionName, accounts) ∈ entries ∧ accounts ≠ []) := by
  induction entries generalizing regionMap with
  | nil => exact Or.inl h
  | cons e entries ih =>
    rcases ih h with hmap | ⟨hmem, hne⟩
    · rw [lookup_assignRegion] at hmap
      split at hmap
      · next he =>
        obtain rfl := Option.some.inj hmap
        obtain ⟨hne, rfl⟩ := he
        exact Or.inr ⟨List.mem_cons_self, hne⟩
      · exact Or.inl hmap
    · exact Or.inr ⟨List.mem_cons_of_mem e hmem, hne⟩

theorem lookup_of_notMem {entries regionMap : List (Text × List Text)} {regionName : Text}
    (h : regionName ∉ entries.map Prod.fst) :
    (entries.foldl assignRegion regionMap).lookup regionName = regionMap.lookup regionName := by
  induction entries generalizing regionMap with
  | nil => rfl
  | cons e entries ih =>
    rw [List.map_cons, List.mem_cons, not_or] at h
    rw [List.foldl_cons, ih h.2, lookup_assignRegion, if_neg (fun he => h.1 he.2.symm)]

/-- With each name once, the map holds what is assigned. -/
theorem lookup_of_mem {entries : List (Text × List Text)} (regionMap : List (Text × List Text))
    (hnodup : (entries.map Prod.fst).Nodup) {regionName : Text} {accounts : List Text}
    (hmem : (regionName, accounts) ∈ entries) (hne : accounts ≠ []) :
    (entries.foldl assignRegion regionMap).lookup regionName = some accounts := by
  obtain ⟨before, after, rfl⟩ := List.append_of_mem hmem
  have hafter : regionName ∉ after.map Prod.fst := by
    rw [List.map_append, List.map_cons] at hnodup
    exact (List.nodup_cons.mp (List.nodup_append.mp hnodup).2.1).1
  rw [List.foldl_append, List.foldl_cons, lookup_of_notMem hafter, lookup_assignRegion,
    if_pos ⟨hne, rfl⟩]

/-- No name is taken twice. -/
theorem pairs_names (pending : Option Text) (ms : List (Member Value)) :
    ((pairs pending ms).map Prod.fst).Sublist (pending.toList ++ ms.map takenName) := by
  induction ms generalizing pending with
  | nil => exact List.nil_sublist _
  | cons m ms ih =>
    rw [pairs]
    by_cases hopen : '[' ∈ m.value.text
    · rw [if_pos hopen, List.map_cons]
      cases pending with
      | none => exact (ih none).cons_cons _
      | some name => exact ((ih none).cons _).cons_cons _
    · rw [if_neg hopen]
      refine (ih _).trans ?_
      cases pending with
      | none => exact List.Sublist.refl _
      | some name => exact (List.sublist_cons_self _ _).cons_cons _

theorem DistinctNames.nodup {regions : List (Member Value)} (h : DistinctNames regions) :
    (regions.map takenName).Nodup := by
  refine List.pairwise_map.mpr (h.imp fun {m m'} hd he => ?_)
  have htaken (m : Member Value) : takenName m ∈ nameForms m :=
    List.mem_cons_of_mem _ List.mem_cons_self
  exact hd (htaken m) (he ▸ htaken m')

/-! ## The document -/

def mapName : Text := "regionStorageMap".toList

/-- The first opening brace behind the first occurrence of the quoted name is that of the value of
the member, which has this name; counting all braces from there, the value ends at its own closing
brace. -/
structure MapRouted (doc : ObjectText) (before : List (Member Value)) (m : Member Value)
    (after : List (Member Value)) (blank : List Blank) (regions : List (Member Value)) : Prop where
  members : doc.members = before ++ m :: after
  name : decode m.name = mapName
  value : m.value = .object blank regions
  brace : ∃ u v,
    doc.beforeColon before m ++ ':' :: blankText m.gap = u ++ (searchKey mapName ++ v) ∧
    FirstAt doc.text (searchKey mapName) u.length ∧ '{' ∉ v
  balanced : braceDepth 1 (joined blank (memberTexts regions)) = some 1

variable {doc : ObjectText} {before after : List (Member Value)} {m : Member Value}
  {blank : List Blank} {regions : List (Member Value)}

theorem MapRouted.text_eq (h : MapRouted doc before m after blank regions) :
    doc.text = (doc.beforeColon before m ++ ':' :: blankText m.gap ++ ['{']) ++
      (joined blank (memberTexts regions) ++ '}' :: doc.behindValue m after) := by
  rw [ObjectText.text_split h.members, h.value, Value.text]
  simp only [List.append_assoc, List.cons_append, List.nil_append]

theorem MapRouted.find_brace (h : MapRouted doc before m after blank regions) {keyPos : Nat}
    (hkey : find doc.text (searchKey mapName) 0 = some keyPos) :
    find doc.text ['{'] (keyPos + (searchKey mapName).length) =
      some (doc.beforeColon before m ++ ':' :: blankText m.gap).length := by
  obtain ⟨u, v, hbefore, hfirst, hv⟩ := h.brace
  obtain rfl := (firstAt_of_find hkey).unique hfirst
  have hskip := find_skip hv (u ++ searchKey mapName)
    (joined blank (memberTexts regions) ++ '}' :: doc.behindValue m after)
  have htext : doc.text = (u ++ searchKey mapName) ++
      (v ++ '{' :: (joined blank (memberTexts regions) ++ '}' :: doc.behindValue m after)) := by
    rw [h.text_eq, hbefore]
    simp only [List.append_assoc, List.cons_append, List.nil_append]
  rw [← List.length_append, htext, hskip, hbefore, ← List.length_append, List.append_assoc]

/-- The map that a successful extraction gives. -/
theorem MapRouted.extracted {ms idle : List (Member Value)}
    (h : MapRouted doc before m after blank regions) (hregions : regions = ms ++ idle)
    (hscan : Scannable ms) (hidle : Idle (textAfter (memberTexts idle)))
    {regionMap : List (Text × List Text)}
    (hmap : extractRegionStorageMap doc.text [] = .ok (true, regionMap)) :
    regionMap = ((pairs none ms).map entry).foldl assignRegion [] := by
  have hloop := regionLoop_eq (joined blank (memberTexts regions)).length []
    (joined blank (memberTexts regions)) []
  have hentries := regionEntries_members hscan hidle blank
  rw [← hregions] at hentries
  rw [List.nil_append, ← foldl_assigns, hentries, foldl_assigns] at hloop
  have hlen : (joined blank (memberTexts regions)).length < doc.text.length := by
    rw [h.text_eq]
    simp only [List.length_append, List.length_cons, List.length_nil]
    omega
  have hmatch := matchBrace_eq h.balanced
    (doc.beforeColon before m ++ ':' :: blankText m.gap ++ ['{']) (doc.behindValue m after) hlen
  have hcontent := substrAt_append (doc.beforeColon before m ++ ':' :: blankText m.gap ++ ['{'])
    (joined blank (memberTexts regions)) ('}' :: doc.behindValue m after)
  rw [← h.text_eq, List.length_append, List.length_singleton] at hmatch hcontent
  unfold extractRegionStorageMap at hmap
  split at hmap
  · cases hmap
  · next keyPos hkey =>
    have hbrace := h.find_brace hkey
    have hcount : sizeSub (sizeSub ((doc.beforeColon before m ++ ':' :: blankText m.gap ++ ['{'] ++
        joined blank (memberTexts regions)).length + 1)
        (doc.beforeColon before m ++ ':' :: blankText m.gap).length) 2 =
        (joined blank (memberTexts regions)).length := by
      generalize doc.beforeColon before m ++ ':' :: blankText m.gap = t
      generalize joined blank (memberTexts regions) = body
      have hinner : sizeSub ((t ++ ['{'] ++ body).length + 1) t.length = body.length + 2 := by
        simp only [List.length_append, List.length_singleton]
        rw [sizeSub_of_le (by omega)]
        omega
      rw [hinner, sizeSub_of_le (Nat.le_add_left 2 _), Nat.add_sub_cancel]
    unfold mapName at hbrace
    rw [hbrace] at hmap
    simp only [bind, Except.bind, hmatch, hcount, hcontent, ne_eq, not_true_eq_false, if_false]
      at hmap
    rw [List.length_nil] at hloop
    rw [hloop] at hmap
    exact (Prod.mk.inj (Except.ok.inj hmap)).2.symm

/-- Every region is mapped to the accounts that the document lists for it. -/
def RegionsFaithful (doc : ObjectText) (regionMap : List (Text × List Text)) : Prop :=
  ∀ regionName accounts, regionMap.lookup regionName = some accounts →
    ∃ m ∈ doc.members, decode m.name = mapName ∧
      ∃ blank regions, m.value = .object blank regions ∧ ListedFor regions regionName accounts

/-- The search ends up at the map, whose members can be read and are in step, up to idle ones. -/
def MapInStep (doc : ObjectText) : Prop :=
  ∃ before m after blank ms idle, MapRouted doc before m after blank (ms ++ idle) ∧
    Scannable ms ∧ InStep true ms ∧ Idle (textAfter (memberTexts idle))

/-- The search ends up at the only member with the name, and can read it, up to idle members; each
region stands in it once. -/
def MapReadable (doc : ObjectText) : Prop :=
  ∃ before m after blank ms idle, MapRouted doc before m after blank (ms ++ idle) ∧
    Scannable ms ∧ Idle (textAfter (memberTexts idle)) ∧
    (∀ m' ∈ before ++ after, decode m'.name ≠ mapName) ∧ DistinctNames (ms ++ idle)

/-- Every region is mapped to its own accounts when the map can be read, up to idle members, and its
strings in brackets are in step with the names; and where the map can be read, not otherwise. -/
theorem extractRegionStorageMap_faithful_iff {doc : ObjectText}
    {regionMap : List (Text × List Text)}
    (hmap : extractRegionStorageMap doc.text [] = .ok (true, regionMap)) :
    (MapInStep doc → RegionsFaithful doc regionMap) ∧
      (MapReadable doc → RegionsFaithful doc regionMap → MapInStep doc) := by
  constructor
  · rintro ⟨before, m, after, blank, ms, idle, hrouted, hscan, hstep, hidle⟩ regionName accounts
      hlookup
    have hm : m ∈ doc.members := by
      rw [hrouted.members]
      exact List.mem_append_right _ List.mem_cons_self
    rw [hrouted.extracted rfl hscan hidle hmap] at hlookup
    rcases mem_of_lookup hlookup with h | ⟨hentry, hne⟩
    · cases h
    · obtain ⟨p, hp, he⟩ := List.mem_map.mp hentry
      obtain ⟨rfl, rfl⟩ := Prod.mk.inj he
      exact ⟨m, hm, hrouted.name, blank, ms ++ idle, hrouted.value,
        listedFor_of_inStep (List.subset_append_left ms idle) hscan none hstep p hp hne⟩
  · rintro ⟨before, m, after, blank, ms, idle, hrouted, hscan, hidle, hunique, hnames⟩ hfaithful
    have hsub : ms ⊆ ms ++ idle := List.subset_append_left ms idle
    refine ⟨before, m, after, blank, ms, idle, hrouted, hscan, ?_, hidle⟩
    have hnodup : (((pairs none ms).map entry).map Prod.fst).Nodup := by
      rw [List.map_map]
      have hms := hnames.nodup.sublist ((List.sublist_append_left ms idle).map takenName)
      exact hms.sublist (pairs_names none ms)
    apply inStep_of_listedFor hnames hsub hscan none (fun _ hn => by cases hn)
    intro p hp hne
    have hentry : (p.1, (entry p).2) ∈ (pairs none ms).map entry := List.mem_map_of_mem hp
    have hlookup := lookup_of_mem [] hnodup hentry hne
    rw [← hrouted.extracted rfl hscan hidle hmap] at hlookup
    obtain ⟨m', hm', hname, blank', regions', hvalue, hlisted⟩ := hfaithful _ _ hlookup
    rw [eq_of_name hrouted.members hunique hm' hname, hrouted.value] at hvalue
    cases hvalue
    exact hlisted

/-! ## Two maps -/

def sampleArray (account : Text) : Value := .array [] [⟨[], .string (plainPieces account), []⟩]

def sampleRegions (westus2 : Value) : List (Member Value) :=
  [plainMember "westus2".toList westus2, plainMember "eastus".toList (sampleArray "b".toList)]

def sampleMap (westus2 : Value) : ObjectText :=
  plainDocument [plainMember mapName (.object [] (sampleRegions westus2))]

theorem forall_sampleRegions {P : Member Value → Prop} {westus2 : Value}
    (hwest : P (plainMember "westus2".toList westus2))
    (heast : P (plainMember "eastus".toList (sampleArray "b".toList))) :
    ∀ m ∈ sampleRegions westus2, P m := by
  intro m hm
  rcases List.mem_cons.mp hm with rfl | hm
  · exact hwest
  · obtain rfl := List.mem_singleton.mp hm
    exact heast

/-- The map also has a region with an escape in its name, and without accounts. -/
def escapedRegions : List (Member Value) :=
  { plainMember [] (.array [] []) with
    name := plainPieces ['a'] ++ .escape .slash :: plainPieces ['b'] } ::
    sampleRegions (sampleArray "a".toList)

/-- And it ends in a string with brackets. -/
def bracketNote : List (Member Value) :=
  [plainMember "note".toList (.string (plainPieces "[b]".toList))]

def escapedMap : ObjectText :=
  plainDocument [plainMember mapName (.object [] (escapedRegions ++ bracketNote))]

theorem forall_escapedRegions {P : Member Value → Prop}
    (hescaped : P { plainMember [] (.array [] []) with
      name := plainPieces ['a'] ++ .escape .slash :: plainPieces ['b'] })
    (hwest : P (plainMember "westus2".toList (sampleArray "a".toList)))
    (heast : P (plainMember "eastus".toList (sampleArray "b".toList))) :
    ∀ m ∈ escapedRegions, P m :=
  List.forall_mem_cons.mpr ⟨hescaped, forall_sampleRegions hwest heast⟩

theorem plainStrings_sampleArray (account : Text) : PlainStrings (sampleArray account) :=
  ⟨[], _, [plainPieces account], rfl, rfl,
    List.forall_mem_singleton.mpr (unescaped_plainPieces account)⟩

theorem escapedRegions_scannable : Scannable escapedRegions where
  names := forall_escapedRegions (by decide +kernel) (by decide +kernel) (by decide +kernel)
  values := forall_escapedRegions (fun _ => brackets_array (by decide +kernel))
    (fun _ => brackets_array (by decide +kernel)) (fun _ => brackets_array (by decide +kernel))
  chain := .cons_cons (fun _ => by decide +kernel)
    (.cons_cons (fun _ => by decide +kernel) (.singleton _))

theorem escapedRegions_inStep : InStep true escapedRegions :=
  ⟨fun hcount => absurd hcount (by decide +kernel),
    fun _ => ⟨by decide +kernel, unescaped_plainPieces _, plainStrings_sampleArray _⟩,
    fun _ => ⟨by decide +kernel, unescaped_plainPieces _, plainStrings_sampleArray _⟩, trivial⟩

theorem regions_faithful_arrays :
    RegionsFaithful escapedMap
      [("eastus".toList, ["b".toList]), ("westus2".toList, ["a".toList])] := by
  have hmap : extractRegionStorageMap escapedMap.text [] =
      .ok (true, [("eastus".toList, ["b".toList]), ("westus2".toList, ["a".toList])]) := by
    decide +kernel
  have hrouted : MapRouted escapedMap []
      (plainMember mapName (.object [] (escapedRegions ++ bracketNote))) [] []
      (escapedRegions ++ bracketNote) := {
    members := rfl
    name := by decide +kernel
    value := rfl
    brace := ⟨['{'], [':'], by decide +kernel, by unfold FirstAt; decide +kernel, by decide⟩
    balanced := by decide +kernel }
  exact (extractRegionStorageMap_faithful_iff hmap).1
    ⟨_, _, _, _, _, _, hrouted, escapedRegions_scannable, escapedRegions_inStep, by decide +kernel⟩

/-- A region that is `null` is mapped to the accounts of the next one. -/
theorem extractRegionStorageMap_null_region :
    ¬ ∀ (doc : ObjectText) (regionMap : List (Text × List Text)),
      extractRegionStorageMap doc.text [] = .ok (true, regionMap) →
        RegionsFaithful doc regionMap := by
  intro h
  have hmap : extractRegionStorageMap (sampleMap .null).text [] =
      .ok (true, [("westus2".toList, ["b".toList])]) := by
    decide +kernel
  obtain ⟨m, hm, -, blank, regions, hvalue, m', hm', hname, hstrings⟩ :=
    h _ _ hmap "westus2".toList ["b".toList] (by decide)
  obtain rfl := List.mem_singleton.mp hm
  cases hvalue
  rcases List.mem_cons.mp hm' with rfl | hm'
  · cases hstrings
  · obtain rfl := List.mem_singleton.mp hm'
    exact absurd hname (by decide +kernel)

end KVStore
