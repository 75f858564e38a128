import KVStore.Versions

/-!
# Where the parsed versions come from (`ParseAdditionalVersions`)

The parser takes the text from each `{"hash":` to the next brace for an object, and looks for the
three keys in it; the result of a search that fails is used like one that does not.
`versionsOrigin_iff`: every version is the one of an object of the documented form, field by field,
exactly when each text that the parser takes for an object holds such an object, with none of the
keys before it, and a location that the parser reads to its end.
-/

namespace KVStore

open TextSearch

/-! ## Where a version comes from -/

/-- What a text of digits stands for. -/
def IsNumber.value (s : Text) : Nat := Nat.ofDigitChars 10 s 0

/-- The fields are those of an object of the documented form, and were taken from it: the parser's
positions in the text `obj` at `start` are where the values of that object stand. -/
def ComesFrom (json : Text) (start : Nat) (obj : Text) (v : AdditionalVersion) : Prop :=
  ∃ p hash parentHash, IsNumber hash ∧ IsNumber parentHash ∧
    objectText hash parentHash v.location <+: json.drop p ∧
    IsNumber.value hash = v.hash.toNat ∧ IsNumber.value parentHash = v.parentHash.toNat ∧
    start + fieldStart obj hashKey 8 = p + 9 ∧
    start + fieldStart obj parentHashKey 14 = p + 25 + hash.length ∧
    start + fieldStart obj locationKey 12 = p + 39 + hash.length + parentHash.length

/-- The text from `start` on begins with an object of the documented form, behind a part that has no
closing brace and none of the keys. The location is one that the parser reads to its end. -/
def Documented (json : Text) (start : Nat) : Prop :=
  ∃ skipped hash parentHash location, IsNumber hash ∧ IsNumber parentHash ∧
    PlainLocation location ∧ '}' ∉ skipped ∧
    (∀ key ∈ [hashKey, parentHashKey, locationKey], ¬ key <:+: skipped) ∧
    skipped ++ objectText hash parentHash location <+: json.drop start

variable {json hash parentHash location : Text} {start : Nat} {v : AdditionalVersion}

/-- A number that is read at all is read as its value. -/
theorem IsNumber.stoull {s : Text} (h : IsNumber s) {n : UInt64} (hn : stoull s = .ok n) :
    value s = n.toNat := by
  by_cases hlt : Nat.ofDigitChars 10 s 0 < UInt64.size
  · rw [stoull_digits h.1 h.2 hlt] at hn
    cases hn
    exact (UInt64.toNat_ofNat_of_lt' hlt).symm
  · obtain ⟨c, t, rfl⟩ := List.exists_cons_of_ne_nil h.1
    have hc : c.isDigit = true := h.2 c List.mem_cons_self
    have hdrop : (c :: t).dropWhile isSpace = c :: t := by
      rw [List.dropWhile_cons_of_neg (by simp [isSpace_of_isDigit hc])]
    have hsign : c ≠ '-' ∧ c ≠ '+' := by
      constructor <;> rintro rfl <;> exact absurd hc (by decide)
    have htake : (c :: t).takeWhile Char.isDigit = c :: t := List.takeWhile_eq_self_iff.mpr h.2
    simp only [KVStore.stoull, hdrop, List.head?_cons, Option.some.injEq, hsign.1, hsign.2,
      or_self, if_false, htake, List.cons_ne_nil, Nat.le_of_not_lt hlt, if_true] at hn
    cases hn

/-- What the parser takes for an object, when it is one behind a part without a closing brace. -/
theorem object_skipped {skipped body rest post : Text} (hhash : IsNumber hash)
    (hparent : IsNumber parentHash) (hlocation : PlainLocation location) (hskipped : '}' ∉ skipped)
    (hbody : '}' ∉ body)
    (htext : skipped ++ objectText hash parentHash location ++ post = body ++ '}' :: rest) :
    ∃ tail, body ++ ['}'] = skipped ++ (objectHead hash parentHash ++ tail) ∧
      fieldText (body ++ ['}']) (skipped.length + (objectHead hash parentHash).length) =
        .ok location := by
  obtain ⟨own, left, tail, hown, hnotMem, -, hobj, hread⟩ := object_ends hhash hparent hlocation
  have hfirst : '}' ∉ skipped ++ own := by
    simp only [List.mem_append, not_or]
    exact ⟨hskipped, hnotMem⟩
  have hcut := cut_append hfirst (left ++ post)
  have hsame : (skipped ++ own) ++ '}' :: (left ++ post) = body ++ '}' :: rest := by
    rw [← htext, hown]
    simp only [List.append_assoc, List.cons_append]
  rw [hsame, cut_append hbody] at hcut
  obtain ⟨rfl, -⟩ := Prod.mk.inj (Option.some.inj hcut)
  have hend := hread skipped
  rw [← List.append_assoc] at hend
  exact ⟨tail, by rw [List.append_assoc, hobj], hend⟩

/-- The version of a documented object is its own. -/
theorem Documented.comesFrom {body rest : Text} (h : Documented json start)
    (hbody : '}' ∉ body) (htext : json.drop start = body ++ '}' :: rest)
    (hv : parseVersion (body ++ ['}']) = .ok v) : ComesFrom json start (body ++ ['}']) v := by
  obtain ⟨skipped, hash, parentHash, location, hhash, hparent, hlocation, hskipped, hkeys, post,
    hpost⟩ := h
  rw [htext] at hpost
  obtain ⟨tail, hobj, hread⟩ := object_skipped hhash hparent hlocation hskipped hbody hpost
  rw [parseVersion_object hhash hparent hkeys hobj hread] at hv
  obtain ⟨hashValue, hhashValue, hv⟩ := bind_eq_ok hv
  obtain ⟨parentValue, hparentValue, hv⟩ := bind_eq_ok hv
  cases hv
  have hlength := @length_objectHead hash parentHash
  refine ⟨start + skipped.length, hash, parentHash, hhash, hparent, ⟨post, ?_⟩,
    hhash.stoull hhashValue, hparent.stoull hparentValue, ?_, ?_, ?_⟩
  · rw [← List.drop_drop, htext, ← hpost, List.append_assoc, List.drop_left]
  · rw [fieldStart_hash hkeys hobj]
    omega
  · rw [fieldStart_parentHash hhash hkeys hobj]
    omega
  · rw [fieldStart_location hhash hparent hkeys hobj]
    omega

/-- A field that starts behind the width of its key has its key before it. -/
theorem find_of_fieldStart {obj key : Text} {width n : Nat} (hwidth : 0 < width) (hn : width ≤ n)
    (h : fieldStart obj key width = n) : find obj key 0 = some (n - width) := by
  unfold fieldStart at h
  cases hfind : find obj key 0 with
  | none =>
    rw [hfind] at h
    dsimp only at h
    omega
  | some q =>
    rw [hfind] at h
    dsimp only at h
    congr 1
    omega

/-- A documented object whose hash the parser takes stands at the start of the text that the parser
takes for the object, or behind it: its first characters are no others than its own. -/
theorem find_hashKey_of_start {obj post : Text} {p : Nat} (hbrace : json[start]? = some '{')
    (hpost : objectText hash parentHash location ++ post = json.drop p)
    (h : start + fieldStart obj hashKey 8 = p + 9) :
    ∃ k, find obj hashKey 0 = some (k + 1) ∧ p = start + k := by
  obtain ⟨s, hs⟩ : ∃ s, objectText hash parentHash location ++ post = '{' :: '"' :: 'h' :: s :=
    ⟨_, rfl⟩
  have hat : ∀ n, json[p + n]? = ('{' :: '"' :: 'h' :: s)[n]? := by
    intro n
    rw [← hs, hpost, List.getElem?_drop]
  unfold fieldStart at h
  cases hfind : find obj hashKey 0 with
  | none =>
    rw [hfind] at h
    obtain rfl : start = p + 2 := by simpa using h
    rw [hat 2] at hbrace
    cases hbrace
  | some q =>
    rw [hfind] at h
    have hq : start + q = p + 1 := by simpa [← Nat.add_assoc] using h
    cases q with
    | zero =>
      obtain rfl : start = p + 1 := hq
      rw [hat 1] at hbrace
      cases hbrace
    | succ k => exact ⟨k, rfl, by omega⟩

/-- A version whose fields are taken from a documented object was parsed from one. -/
theorem ComesFrom.documented {body rest : Text} (h : ComesFrom json start (body ++ ['}']) v)
    (hkey : "\x7b\"hash\":".toList <+: json.drop start) (hbody : '}' ∉ body)
    (htext : json.drop start = body ++ '}' :: rest)
    (hv : parseVersion (body ++ ['}']) = .ok v) : Documented json start := by
  obtain ⟨p, hash, parentHash, hhash, hparent, ⟨post, hpost⟩, -, -, hhashStart, hparentStart,
    hlocationStart⟩ := h
  have hstart : json[start]? = some '{' := by
    obtain ⟨t, ht⟩ := hkey
    have hat := congrArg (·[0]?) ht
    simpa using hat.symm
  obtain ⟨k, hk, rfl⟩ := find_hashKey_of_start hstart hpost hhashStart
  have hparentFind : find (body ++ ['}']) parentHashKey 0 = some (k + 25 + hash.length - 14) :=
    find_of_fieldStart (by omega) (by omega) (by omega)
  have hlocationFind : find (body ++ ['}']) locationKey 0 =
      some (k + 39 + hash.length + parentHash.length - 12) :=
    find_of_fieldStart (by omega) (by omega) (by omega)
  have hle : k ≤ body.length := by
    obtain ⟨-, hle, -⟩ := find_eq_some hk
    rw [List.length_append, List.length_singleton] at hle
    omega
  have hskipped : (body.take k).length = k := List.length_take_of_le hle
  have hobj : body ++ ['}'] = body.take k ++ (body.drop k ++ ['}']) := by
    rw [← List.append_assoc, List.take_append_drop]
  refine ⟨body.take k, hash, parentHash, v.location, hhash, hparent, ?_, ?_, ?_, post, ?_⟩
  · exact plainLocation_of_parseVersion hv (by simpa using hbody)
  · exact fun hm => hbody (List.mem_of_mem_take hm)
  · simp only [List.forall_mem_cons, List.not_mem_nil, false_implies, implies_true, and_true]
    refine ⟨not_infix_of_find hk hobj (by omega) (by decide),
      not_infix_of_find hparentFind hobj (by omega) (by decide),
      not_infix_of_find hlocationFind hobj (by omega) (by decide)⟩
  · rw [List.append_assoc, hpost, ← List.drop_drop]
    have htake : body.take k = (json.drop start).take k := by
      rw [htext, List.take_append_of_le_length hle]
    rw [htake, List.take_append_drop]

/-- **The versions come from objects of the documented form**, field by field, exactly when every
text that the parser takes for an object is documented. -/
theorem versionsOrigin_iff {vs : List AdditionalVersion}
    (h : parseAdditionalVersions json = .ok vs) :
    List.Forall₂ (fun o v => ComesFrom json o.1 o.2 v) (objects json) vs ↔
      ∀ o ∈ objects json, Documented json o.1 := by
  have hone : ∀ o ∈ objects json, ∀ v, parseVersion o.2 = .ok v →
      (ComesFrom json o.1 o.2 v ↔ Documented json o.1) := by
    rintro ⟨start, obj⟩ ho v hv
    obtain ⟨-, hkey, body, rest, rfl, hbody, htext⟩ := mem_objectsFrom ho
    rw [List.append_assoc] at htext
    exact ⟨fun hfrom => hfrom.documented hkey hbody htext hv,
      fun hdocumented => hdocumented.comesFrom hbody htext hv⟩
  have hparsed := parse_objects h
  generalize objects json = os at hone hparsed ⊢
  clear h
  induction hparsed with
  | nil => simp
  | @cons o v os vs hv _ ih =>
    have hfirst := hone o List.mem_cons_self v hv
    have hrest := ih fun o ho => hone o (List.mem_cons_of_mem _ ho)
    rw [List.forall₂_cons, List.forall_mem_cons, hfirst]
    exact and_congr_right fun _ => hrest

/-- Two objects as they are written, the second with a location that ends in a brace. -/
def twoObjects : Text :=
  "[\x7b\"hash\":\"12\",\"parentHash\":\"0\",\"location\":\"a\"\x7d,".toList ++
    "\x7b\"hash\":\"13\",\"parentHash\":\"012\",\"location\":\"b\x7d\"\x7d]".toList

theorem versionsOrigin_twoObjects :
    List.Forall₂ (fun o v => ComesFrom twoObjects o.1 o.2 v) (objects twoObjects)
      [⟨12, 0, "a".toList⟩, ⟨13, 12, "b\x7d".toList⟩] := by
  have hparse : parseAdditionalVersions twoObjects =
      .ok [⟨12, 0, "a".toList⟩, ⟨13, 12, "b\x7d".toList⟩] := by decide +kernel
  have hstarts : (objects twoObjects).map Prod.fst = [1, 47] := by decide +kernel
  refine (versionsOrigin_iff hparse).mpr fun o ho => ?_
  have hstart : o.1 ∈ [1, 47] := hstarts ▸ List.mem_map_of_mem ho
  rcases List.mem_pair.mp hstart with h | h
  · rw [h]
    refine ⟨[], "12".toList, "0".toList, "a".toList, .of_all (by decide) rfl,
      .of_all (by decide) rfl, ⟨by decide, by decide⟩, by decide, by decide, ?_⟩
    exact List.isPrefixOf_iff_prefix.mp (by decide +kernel)
  · rw [h]
    refine ⟨[], "13".toList, "012".toList, "b\x7d".toList, .of_all (by decide) rfl,
      .of_all (by decide) rfl, ⟨by decide, by decide⟩, by decide, by decide, ?_⟩
    exact List.isPrefixOf_iff_prefix.mp (by decide +kernel)

/-- An object without a parent. -/
def noParent : Text := "[\x7b\"hash\":\"1234567890\",\"location\":\"abc\"\x7d]".toList

/-- The digits of its hash from the fifth one on are taken for the parent, and no object of the
documented form is there. -/
theorem versionsOrigin_noParent :
    parseAdditionalVersions noParent = .ok [⟨1234567890, 567890, "abc".toList⟩] ∧
      ∀ p hash parentHash location, ¬ objectText hash parentHash location <+: noParent.drop p := by
  refine ⟨by decide +kernel, fun p hash parentHash location h => ?_⟩
  have hkey : 'p' ∈ objectText hash parentHash location := by
    unfold objectText objectHead
    simp
  exact absurd (List.mem_of_mem_drop (h.subset hkey)) (by decide)

end KVStore
