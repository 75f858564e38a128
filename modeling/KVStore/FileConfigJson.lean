import KVStore.FileConfig
import KVStore.Lib.Json

/-!
# What the configuration fields mean

`ExtractStringValue` on a well-formed JSON object. The search for the end of a string goes past one
that ends in an escaped backslash, and the two passes that replace escapes know `\"` and `\\` only:
`extracted_eq_decode_iff` says which string values are read as they are meant.
`parseJson_faithful_iff`: the fields mean what the JSON says when each search ends up behind the
colon of a member with the name whose value is a string of plain characters, `\"` and `\\` that does
not end in a backslash; where it is the only member with the name, not otherwise. A value that is
not a string is passed over, and the next string is taken in its place (`parseJson_null_value`).
-/

namespace KVStore

open TextSearch Json

/-! ## Where a string ends -/

/-- The character a piece ends in. -/
def lastOf : Piece → Char
  | .plain c => c.1
  | .escape e => e.letter
  | .unicode _ _ _ d₄ => d₄.1

/-- The character before what stands behind a string, when `previous` is the one before it. -/
def lastChar (previous : Char) (s : List Piece) : Char := (s.getLast?.map lastOf).getD previous

theorem lastChar_cons (previous : Char) (p : Piece) (s : List Piece) :
    lastChar previous (p :: s) = lastChar (lastOf p) s := by
  unfold lastChar
  rw [List.getLast?_cons]
  cases s.getLast? <;> rfl

theorem hexDigit_ne (d : HexDigit) : d.1 ≠ '"' ∧ d.1 ≠ '\\' := by
  obtain ⟨c, hc⟩ := d
  constructor
  · rintro rfl
    exact absurd hc (by decide)
  · rintro rfl
    exact absurd hc (by decide)

theorem lastOf_ne {p : Piece} (h : p ≠ .escape .backslash) : lastOf p ≠ '\\' := by
  cases p with
  | plain c => exact c.2.2.1
  | escape e =>
    cases e with
    | backslash => exact absurd rfl h
    | quote | slash | backspace | formFeed | newline | carriageReturn | tab =>
      exact fun he => absurd he (by decide)
  | unicode d₁ d₂ d₃ d₄ => exact (hexDigit_ne d₄).2

theorem bodyLength_step {previous c : Char} (s : Text) (h : c ≠ '"' ∨ previous = '\\') :
    bodyLength previous (c :: s) = bodyLength c s + 1 := by
  rw [bodyLength, if_neg]
  rintro ⟨hc, hprevious⟩
  exact h.elim (· hc) hprevious

/-- The search does not stop within a piece. -/
theorem bodyLength_piece (previous : Char) (p : Piece) (x : Text) :
    bodyLength previous (p.text ++ x) = p.text.length + bodyLength (lastOf p) x := by
  cases p with
  | plain c =>
    rw [Piece.text, List.singleton_append, bodyLength_step x (.inl c.2.1), List.length_singleton,
      Nat.add_comm]
    rfl
  | escape e =>
    simp only [Piece.text, List.cons_append, List.nil_append, List.length_cons, List.length_nil]
    rw [bodyLength_step _ (.inl (by decide)), bodyLength_step _ (.inr rfl), lastOf]
    omega
  | unicode d₁ d₂ d₃ d₄ =>
    simp only [Piece.text, List.cons_append, List.nil_append, List.length_cons, List.length_nil]
    rw [bodyLength_step _ (.inl (by decide)), bodyLength_step _ (.inl (by decide)),
      bodyLength_step _ (.inl (hexDigit_ne d₁).1), bodyLength_step _ (.inl (hexDigit_ne d₂).1),
      bodyLength_step _ (.inl (hexDigit_ne d₃).1), bodyLength_step _ (.inl (hexDigit_ne d₄).1),
      lastOf]
    omega

theorem bodyLength_raw (previous : Char) (s : List Piece) (x : Text) :
    bodyLength previous (raw s ++ x) = (raw s).length + bodyLength (lastChar previous s) x := by
  induction s generalizing previous with
  | nil => exact (Nat.zero_add _).symm
  | cons p s ih =>
    have hraw : raw (p :: s) = p.text ++ raw s := List.flatMap_cons
    rw [hraw, List.append_assoc, bodyLength_piece, ih, lastChar_cons, List.length_append]
    exact (Nat.add_assoc ..).symm

/-- The search stops at the end of the string, unless it ends in an escaped backslash. -/
theorem bodyLength_string {s : List Piece} (h : s.getLast? ≠ some (.escape .backslash))
    (x : Text) : bodyLength '"' (raw s ++ '"' :: x) = (raw s).length := by
  have hlast : lastChar '"' s ≠ '\\' := by
    unfold lastChar
    cases hs : s.getLast? with
    | none => exact fun he => absurd he (by decide)
    | some p =>
      refine lastOf_ne fun he => h ?_
      rw [hs, he]
  rw [bodyLength_raw, bodyLength, if_pos ⟨rfl, hlast⟩, Nat.add_zero]

theorem bodyLength_escaped {s : List Piece} (h : s.getLast? = some (.escape .backslash))
    (x : Text) : (raw s).length + 1 ≤ bodyLength '"' (raw s ++ '"' :: x) := by
  have hlast : lastChar '"' s = '\\' := by
    rw [lastChar, h]
    rfl
  rw [bodyLength_raw, hlast, bodyLength_step x (.inr rfl)]
  omega

/-! ## What the two passes make of a string -/

/-- A piece after the first pass. -/
def firstPass (p : Piece) : Text := if p = .escape .quote then ['"'] else p.text

/-- A piece after both passes. -/
def bothPasses (p : Piece) : Text :=
  if p = .escape .quote then ['"'] else if p = .escape .backslash then ['\\'] else p.text

theorem letter_ne {e : Escape} (hq : e ≠ .quote) (hb : e ≠ .backslash) :
    e.letter ≠ '"' ∧ e.letter ≠ '\\' := by
  cases e with
  | quote => exact absurd rfl hq
  | backslash => exact absurd rfl hb
  | slash | backspace | formFeed | newline | carriageReturn | tab => decide

/-- Both passes leave the other pieces as they are. -/
theorem replacePairs_piece {b : Char} (hb : b = '"' ∨ b = '\\') {p : Piece}
    (hq : p ≠ .escape .quote) (hs : p ≠ .escape .backslash) (y : Text) :
    replacePairs '\\' b b (p.text ++ y) = p.text ++ replacePairs '\\' b b y := by
  cases p with
  | plain c => exact replacePairs_cons_ne c.2.2.1
  | escape e =>
    obtain ⟨hquote, hslash⟩ := letter_ne (fun h => hq (h ▸ rfl)) (fun h => hs (h ▸ rfl))
    have hne : e.letter ≠ b := by
      rcases hb with rfl | rfl
      · exact hquote
      · exact hslash
    simp only [Piece.text, List.cons_append, List.nil_append]
    rw [replacePairs_cons_cons_ne hne, replacePairs_cons_ne hslash]
  | unicode d₁ d₂ d₃ d₄ =>
    have hne : 'u' ≠ b := by
      rcases hb with rfl | rfl <;> decide
    simp only [Piece.text, List.cons_append, List.nil_append]
    rw [replacePairs_cons_cons_ne hne, replacePairs_cons_ne (by decide),
      replacePairs_cons_ne (hexDigit_ne d₁).2,
      replacePairs_cons_ne (hexDigit_ne d₂).2, replacePairs_cons_ne (hexDigit_ne d₃).2,
      replacePairs_cons_ne (hexDigit_ne d₄).2]

/-- The first pass takes an escaped backslash and a quote behind it for an escaped quote, but no
piece begins with a quote. -/
theorem firstPass_piece {p : Piece} {y : Text}
    (h : p = .escape .backslash → y.head? ≠ some '"') :
    replacePairs '\\' '"' '"' (p.text ++ y) = firstPass p ++ replacePairs '\\' '"' '"' y := by
  by_cases hq : p = .escape .quote
  · subst hq
    exact replacePairs_pair
  · rw [firstPass, if_neg hq]
    by_cases hs : p = .escape .backslash
    · subst hs
      simp only [Piece.text, Escape.letter, List.cons_append, List.nil_append]
      rw [replacePairs_cons_cons_ne (by decide), replacePairs_cons (fun he => h rfl he.2)]
    · exact replacePairs_piece (.inl rfl) hq hs y

theorem firstPass_raw {s : List Piece} {x : Text}
    (h : s.getLast? = some (.escape .backslash) → x.head? ≠ some '"') :
    replacePairs '\\' '"' '"' (raw s ++ x) =
      s.flatMap firstPass ++ replacePairs '\\' '"' '"' x := by
  induction s with
  | nil => rfl
  | cons p s ih =>
    have hraw : raw (p :: s) = p.text ++ raw s := List.flatMap_cons
    have hpiece : p = .escape .backslash → (raw s ++ x).head? ≠ some '"' := by
      intro hp
      cases s with
      | nil => exact h (hp ▸ rfl)
      | cons q s =>
        obtain ⟨c, text, htext⟩ := List.exists_cons_of_ne_nil q.text_ne_nil
        have hhead := q.head_text
        rw [htext] at hhead
        rw [raw, List.flatMap_cons, htext]
        exact hhead
    have hrest : s.getLast? = some (.escape .backslash) → x.head? ≠ some '"' := by
      intro hs
      apply h
      rw [List.getLast?_cons, hs]
      rfl
    rw [hraw, List.append_assoc, firstPass_piece hpiece, ih hrest, List.flatMap_cons,
      List.append_assoc]

/-- The second pass sees each piece on its own. -/
theorem secondPass_pieces (s : List Piece) (x : Text) :
    replacePairs '\\' '\\' '\\' (s.flatMap firstPass ++ x) =
      s.flatMap bothPasses ++ replacePairs '\\' '\\' '\\' x := by
  induction s with
  | nil => rfl
  | cons p s ih =>
    rw [List.flatMap_cons, List.flatMap_cons, List.append_assoc, List.append_assoc, ← ih]
    generalize s.flatMap firstPass ++ x = y
    by_cases hq : p = .escape .quote
    · subst hq
      exact replacePairs_cons_ne (by decide)
    · rw [firstPass, if_neg hq, bothPasses, if_neg hq]
      by_cases hs : p = .escape .backslash
      · subst hs
        rw [if_pos rfl]
        exact replacePairs_pair
      · rw [if_neg hs]
        exact replacePairs_piece (.inr rfl) hq hs y

theorem unescape_eq (value : Text) :
    unescape value = replacePairs '\\' '\\' '\\' (replacePairs '\\' '"' '"' value) := by
  have hpass (b : Char) (text : Text) :
      replaceLoop '\\' b b text.length text 0 = replacePairs '\\' b b text :=
    replaceLoop_eq (Nat.le_refl _) []
  rw [unescape, hpass, hpass]

theorem unescape_raw (s : List Piece) : unescape (raw s) = s.flatMap bothPasses := by
  have hfirst := firstPass_raw (s := s) (x := []) fun _ h => by cases h
  have hsecond := secondPass_pieces s []
  simp only [List.append_nil, replacePairs_nil] at hfirst hsecond
  rw [unescape_eq, hfirst, hsecond]

/-- A string that ends in an escaped backslash, and what the search takes with it. -/
theorem unescape_escaped (s : List Piece) (more : Text) :
    ∃ rest, unescape (raw (s ++ [.escape .backslash]) ++ '"' :: more) =
      s.flatMap bothPasses ++ '\\' :: '"' :: rest := by
  have hraw : raw (s ++ [.escape .backslash]) ++ '"' :: more =
      raw s ++ '\\' :: '\\' :: '"' :: more := by
    rw [raw, raw, List.flatMap_append, List.append_assoc]
    rfl
  have hfirst : replacePairs '\\' '"' '"' (raw s ++ '\\' :: '\\' :: '"' :: more) =
      s.flatMap firstPass ++ '\\' :: '"' :: replacePairs '\\' '"' '"' more := by
    rw [firstPass_raw (fun _ => by simp), replacePairs_cons_cons_ne (by decide),
      replacePairs_pair]
  refine ⟨replacePairs '\\' '\\' '\\' (replacePairs '\\' '"' '"' more), ?_⟩
  rw [unescape_eq, hraw, hfirst, secondPass_pieces, replacePairs_cons_cons_ne (by decide),
    replacePairs_cons_ne (by decide)]

/-! ## Against the meaning of a string -/

/-- A piece that both passes write as it is meant: a plain character, `\"` or `\\`. -/
inductive Simple : Piece → Prop
  | plain (c : PlainChar) : Simple (.plain c)
  | quote : Simple (.escape .quote)
  | backslash : Simple (.escape .backslash)

/-- A string that is read as it is meant. -/
structure PlainString (s : List Piece) : Prop where
  simple : ∀ p ∈ s, Simple p
  ends : s.getLast? ≠ some (.escape .backslash)

theorem Simple.bothPasses_eq {p : Piece} (h : Simple p) : bothPasses p = [p.char] := by
  cases h <;> rfl

theorem Simple.unit_eq {p : Piece} (h : Simple p) : p.unit = none := by
  cases h <;> rfl

/-- A piece stays at least as long as its meaning, and longer if it is not simple. -/
theorem one_le_length_bothPasses (p : Piece) : 1 ≤ (bothPasses p).length := by
  unfold bothPasses
  split
  · exact Nat.le_refl 1
  · split
    · exact Nat.le_refl 1
    · exact List.length_pos_iff.mpr p.text_ne_nil

theorem simple_of_length_le {p : Piece} (h : (bothPasses p).length ≤ 1) : Simple p := by
  cases p with
  | plain c => exact .plain c
  | escape e =>
    cases e with
    | quote => exact .quote
    | backslash => exact .backslash
    | slash | backspace | formFeed | newline | carriageReturn | tab =>
      exact absurd h (by decide)
  | unicode d₁ d₂ d₃ d₄ =>
    rw [bothPasses, if_neg (by simp), if_neg (by simp)] at h
    exact absurd h (by simp [Piece.text])

theorem decode_simple {s : List Piece} (h : ∀ p ∈ s, Simple p) :
    s.flatMap bothPasses = decode s := by
  fun_induction decode s with
  | case1 => rfl
  | case2 p => rw [List.flatMap_singleton, (h p List.mem_cons_self).bothPasses_eq]
  | case3 p q s c hpair ih =>
    rw [surrogatePair, (h p List.mem_cons_self).unit_eq] at hpair
    cases hpair
  | case4 p q s hpair ih =>
    rw [List.flatMap_cons, (h p List.mem_cons_self).bothPasses_eq,
      ih fun p' hp' => h p' (List.mem_cons_of_mem p hp')]
    rfl

theorem length_le_bothPasses (s : List Piece) : s.length ≤ (s.flatMap bothPasses).length := by
  induction s with
  | nil => exact Nat.le_refl 0
  | cons p s ih =>
    rw [List.flatMap_cons, List.length_append, List.length_cons]
    have hp := one_le_length_bothPasses p
    omega

/-- Both passes give the meaning of a string of simple pieces, and of no other one: what they leave
of another escape is too long. -/
theorem bothPasses_eq_decode_iff (s : List Piece) :
    s.flatMap bothPasses = decode s ↔ ∀ p ∈ s, Simple p := by
  refine ⟨fun h p hp => simple_of_length_le ?_, decode_simple⟩
  obtain ⟨before, after, rfl⟩ := List.append_of_mem hp
  have hlen := congrArg List.length h
  have hdecode := length_decode_le (before ++ p :: after)
  have hbefore := length_le_bothPasses before
  have hafter := length_le_bothPasses after
  simp only [List.flatMap_append, List.flatMap_cons, List.length_append, List.length_cons]
    at hlen hdecode
  omega

/-! ## What is extracted -/

/-- What an extraction makes of a string that stands in the text where it looks for one. -/
def extracted (s : List Piece) (x : Text) : Option Text :=
  if (raw s ++ '"' :: x).length ≤ bodyLength '"' (raw s ++ '"' :: x) then none
  else some (unescape ((raw s ++ '"' :: x).take (bodyLength '"' (raw s ++ '"' :: x))))

/-- The extraction gives the meaning of plain strings, and of no others. -/
theorem extracted_eq_decode_iff {s : List Piece} {x value : Text}
    (h : extracted s x = some value) : value = decode s ↔ PlainString s := by
  by_cases hends : s.getLast? = some (.escape .backslash)
  · -- the text that is taken with the string is too long
    refine ⟨fun hdecode => ?_, fun hplain => absurd hends hplain.ends⟩
    obtain ⟨s, rfl⟩ := List.getLast?_eq_some_iff.mp hends
    have hbody := bodyLength_escaped hends x
    unfold extracted at h
    split at h
    · cases h
    · obtain ⟨more, hmore⟩ : ∃ more, (raw (s ++ [.escape .backslash]) ++ '"' :: x).take
          (bodyLength '"' (raw (s ++ [.escape .backslash]) ++ '"' :: x)) =
          raw (s ++ [.escape .backslash]) ++ '"' :: more := by
        obtain ⟨k, hk⟩ := Nat.exists_eq_add_of_le hbody
        refine ⟨x.take k, ?_⟩
        rw [hk, List.take_append, List.take_of_length_le (by omega), Nat.add_assoc,
          Nat.add_sub_cancel_left, Nat.add_comm 1, List.take_succ_cons]
      obtain ⟨rest, hrest⟩ := unescape_escaped s more
      rw [hmore, hrest, hdecode] at h
      have hlen := congrArg List.length (Option.some.inj h)
      have hdecoded := length_decode_le (s ++ [.escape .backslash])
      have hs := length_le_bothPasses s
      simp only [List.length_append, List.length_cons, List.length_nil] at hlen hdecoded
      omega
  · have hbody := bodyLength_string hends x
    unfold extracted at h
    rw [hbody, List.take_left, unescape_raw] at h
    split at h
    · cases h
    · obtain rfl := Option.some.inj h
      rw [bothPasses_eq_decode_iff]
      exact ⟨fun hsimple => ⟨hsimple, hends⟩, fun hplain => hplain.simple⟩

/-! ## Where the searches end up -/

/-- The first colon behind the first occurrence of the quoted key is that of the member, which has
this name. -/
structure Routed (doc : ObjectText) (key : Text) (before : List (Member Value)) (m : Member Value)
    (after : List (Member Value)) : Prop where
  members : doc.members = before ++ m :: after
  name : decode m.name = key
  colon : ∃ u v, doc.beforeColon before m = u ++ (searchKey key ++ v) ∧
    FirstAt doc.text (searchKey key) u.length ∧ ':' ∉ v

variable {doc : ObjectText} {key : Text} {before after : List (Member Value)} {m : Member Value}

/-- The search for the colon. -/
theorem Routed.find_colon (h : Routed doc key before m after) {keyPos : Nat}
    (hkey : find doc.text (searchKey key) 0 = some keyPos) :
    find doc.text [':'] (keyPos + (searchKey key).length) =
      some (doc.beforeColon before m).length := by
  obtain ⟨u, v, hbefore, hfirst, hv⟩ := h.colon
  obtain rfl := (firstAt_of_find hkey).unique hfirst
  have hskip := find_skip hv (u ++ searchKey key)
    (blankText m.gap ++ (m.value.text ++ doc.behindValue m after))
  rw [ObjectText.text_split h.members, hbefore, ← List.append_assoc u, List.append_assoc _ v,
    ← List.length_append, hskip, ← List.length_append]

/-- The search for a string value. -/
theorem Routed.find_quote (h : Routed doc key before m after) {s : List Piece}
    (hs : m.value = .string s) :
    find doc.text ['"'] ((doc.beforeColon before m).length + 1) =
      some ((doc.beforeColon before m).length + 1 + (blankText m.gap).length) := by
  have hskip := find_skip (quote_notMem_blankText m.gap)
    (doc.beforeColon before m ++ [':']) (raw s ++ '"' :: doc.behindValue m after)
  have htext : doc.text = (doc.beforeColon before m ++ [':']) ++
      (blankText m.gap ++ '"' :: (raw s ++ '"' :: doc.behindValue m after)) := by
    rw [ObjectText.text_split h.members, hs, Value.text, quoted]
    simp only [List.append_assoc, List.cons_append, List.nil_append]
  rw [List.length_append, List.length_singleton, ← htext] at hskip
  exact hskip

/-- A string value is what the extraction reads. -/
theorem Routed.extracted (h : Routed doc key before m after) {s : List Piece}
    (hs : m.value = .string s) {value : Text}
    (hvalue : FileConfigProvider.extractStringValue doc.text key = .ok (some value)) :
    extracted s (doc.behindValue m after) = some value := by
  have htext : doc.text = (doc.beforeColon before m ++ ':' :: blankText m.gap) ++
      '"' :: (raw s ++ '"' :: doc.behindValue m after) := by
    rw [ObjectText.text_split h.members, hs, Value.text, quoted]
    simp only [List.append_assoc, List.cons_append, List.nil_append]
  have hlen : (doc.beforeColon before m ++ ':' :: blankText m.gap).length =
      (doc.beforeColon before m).length + 1 + (blankText m.gap).length := by
    rw [List.length_append, List.length_cons]
    omega
  have hread := readString_eq (doc.beforeColon before m ++ ':' :: blankText m.gap)
    (raw s ++ '"' :: doc.behindValue m after) unescape
  rw [← htext, hlen] at hread
  unfold FileConfigProvider.extractStringValue at hvalue
  split at hvalue
  · cases hvalue
  · next keyPos hkey =>
    rw [h.find_colon hkey] at hvalue
    simp only [h.find_quote hs] at hvalue
    exact Except.ok.inj (hread.symm.trans hvalue)

/-! ## The fields of the configuration -/

/-- The fields that a successful parse takes from the text. -/
def Taken (json : Text) (field : ConfigField) : Prop :=
  field ∈ ConfigField.required ∨ FileConfigProvider.fieldOf json field ≠ none

/-- The member is a string value that means `value`. -/
def FieldFaithful (doc : ObjectText) (field : ConfigField) (value : Text) : Prop :=
  ∃ m ∈ doc.members, decode m.name = field.name ∧ ∃ s, m.value = .string s ∧ value = decode s

/-- The fields taken from the text mean what the JSON says. -/
def FieldsFaithful (doc : ObjectText) (config : ServiceConfig) : Prop :=
  ∀ field, Taken doc.text field → FieldFaithful doc field (field.get config)

/-- The search for the field ends up at a member with its name, and this member is a plain
string. -/
def FieldPlain (doc : ObjectText) (field : ConfigField) : Prop :=
  ∃ before m after, Routed doc field.name before m after ∧
    ∃ s, m.value = .string s ∧ PlainString s

/-- The search for the field ends up at the only member with its name. -/
def FieldRouted (doc : ObjectText) (field : ConfigField) : Prop :=
  ∃ before m after, Routed doc field.name before m after ∧
    ∀ m' ∈ before ++ after, decode m'.name ≠ field.name

theorem fieldFaithful_of_plain {field : ConfigField} (hplain : FieldPlain doc field) {value : Text}
    (hvalue : FileConfigProvider.fieldOf doc.text field = some value) :
    FieldFaithful doc field value := by
  obtain ⟨before, m, after, hrouted, s, hs, hplain⟩ := hplain
  have hextract := FileConfigProvider.extractStringValue_eq doc.text field
  rw [hvalue] at hextract
  have hread := hrouted.extracted hs hextract
  have hm : m ∈ doc.members := by
    rw [hrouted.members]
    exact List.mem_append_right _ List.mem_cons_self
  exact ⟨m, hm, hrouted.name, s, hs, (extracted_eq_decode_iff hread).mpr hplain⟩

theorem fieldPlain_of_faithful {field : ConfigField} (hrouted : FieldRouted doc field)
    {value : Text} (hvalue : FileConfigProvider.fieldOf doc.text field = some value)
    (hfaithful : FieldFaithful doc field value) : FieldPlain doc field := by
  obtain ⟨before, m, after, hrouted, hunique⟩ := hrouted
  have hextract := FileConfigProvider.extractStringValue_eq doc.text field
  rw [hvalue] at hextract
  obtain ⟨m', hm', hname, s, hs, hdecode⟩ := hfaithful
  obtain rfl := eq_of_name hrouted.members hunique hm' hname
  have hread := hrouted.extracted hs hextract
  exact ⟨before, m', after, hrouted, s, hs, (extracted_eq_decode_iff hread).mp hdecode⟩

/-- After a successful parse the fields are what the text gives for them. -/
theorem fieldOf_taken {p p' : FileConfigProvider} {json : Text}
    (h : p.parseJson json = .ok (true, p')) {field : ConfigField} (htaken : Taken json field) :
    FileConfigProvider.fieldOf json field = some (field.get p'.config_) := by
  obtain ⟨r, q, hparse, hwritten, hfound⟩ := p.parseJson_spec json
  rw [h] at hparse
  obtain ⟨rfl, rfl⟩ := Prod.mk.inj (Except.ok.inj hparse)
  have hall := hfound.mp rfl
  rcases htaken with hfield | hfield
  · exact hwritten.required hall hfield
  · cases field with
    | domainSuffix =>
      obtain ⟨value, hvalue⟩ := Option.ne_none_iff_exists'.mp hfield
      have hdomain := hwritten.domainSuffix hall
      rw [hvalue] at hdomain
      rw [hvalue, ConfigField.get, hdomain]
      rfl
    | currentLocation | configurationStore | configurationContainer =>
      exact hwritten.required hall (by decide)

/-- The configuration means what the JSON says when the searches end up at plain strings; and where
they end up at the only members with the names of the fields, not otherwise. -/
theorem parseJson_faithful_iff {p p' : FileConfigProvider} {doc : ObjectText}
    (h : p.parseJson doc.text = .ok (true, p')) :
    ((∀ field, Taken doc.text field → FieldPlain doc field) → FieldsFaithful doc p'.config_) ∧
      ((∀ field, Taken doc.text field → FieldRouted doc field) → FieldsFaithful doc p'.config_ →
        ∀ field, Taken doc.text field → FieldPlain doc field) := by
  constructor
  · intro hplain field htaken
    exact fieldFaithful_of_plain (hplain field htaken) (fieldOf_taken h htaken)
  · intro hrouted hfaithful field htaken
    exact fieldPlain_of_faithful (hrouted field htaken) (fieldOf_taken h htaken)
      (hfaithful field htaken)

/-! ## Two documents -/

/-- A document with the required fields; the location may be any value. -/
def sampleDocument (location : Value) : ObjectText :=
  plainDocument [plainMember "currentLocation".toList location,
    plainMember "configurationStore".toList (.string (plainPieces "s".toList)),
    plainMember "configurationContainer".toList (.string (plainPieces "c".toList))]

theorem parseJson_faithful_plain :
    FieldsFaithful (sampleDocument (.string (plainPieces "w".toList)))
      ⟨"w".toList, "s".toList, "c".toList, ".blob.core.windows.net".toList⟩ := by
  have hparse : (FileConfigProvider.create []).parseJson
      (sampleDocument (.string (plainPieces "w".toList))).text =
      .ok (true, { FileConfigProvider.create [] with
        config_ := ⟨"w".toList, "s".toList, "c".toList, ".blob.core.windows.net".toList⟩ }) := by
    decide +kernel
  have hdomain : FileConfigProvider.fieldOf
      (sampleDocument (.string (plainPieces "w".toList))).text .domainSuffix = none := by
    decide +kernel
  have hplain (c : PlainChar) : PlainString [.plain c] := by
    refine ⟨fun p hp => ?_, fun h => by cases h⟩
    obtain rfl := List.mem_singleton.mp hp
    exact .plain c
  refine (parseJson_faithful_iff hparse).1 fun field htaken => ?_
  cases field with
  | currentLocation =>
    refine ⟨[], _, _, ⟨rfl, by decide +kernel, ['{'], [], by decide +kernel, ?_, by simp⟩, _, rfl,
      hplain _⟩
    unfold FirstAt
    decide +kernel
  | configurationStore =>
    refine ⟨[_], _, _, ⟨rfl, by decide +kernel,
      (sampleDocument (.string (plainPieces "w".toList))).text.take 23, [], by decide +kernel, ?_,
      by simp⟩, _, rfl, hplain _⟩
    unfold FirstAt
    decide +kernel
  | configurationContainer =>
    refine ⟨[_, _], _, _, ⟨rfl, by decide +kernel,
      (sampleDocument (.string (plainPieces "w".toList))).text.take 48, [], by decide +kernel, ?_,
      by simp⟩, _, rfl, hplain _⟩
    unfold FirstAt
    decide +kernel
  | domainSuffix => exact absurd hdomain (htaken.resolve_left (by decide))

/-- A location that is `null` is read as the name of the next member. -/
theorem parseJson_null_value :
    ¬ ∀ (doc : ObjectText) (p p' : FileConfigProvider),
      p.parseJson doc.text = .ok (true, p') → FieldsFaithful doc p'.config_ := by
  intro h
  have hparse : (FileConfigProvider.create []).parseJson (sampleDocument .null).text =
      .ok (true, { FileConfigProvider.create [] with
        config_ := ⟨"configurationStore".toList, "s".toList, "c".toList,
          ".blob.core.windows.net".toList⟩ }) := by
    decide +kernel
  obtain ⟨m, hm, hname, s, hs, -⟩ := h _ _ _ hparse .currentLocation (.inl (by decide))
  have hothers : ∀ m ∈ (sampleDocument .null).members.tail,
      decode m.name ≠ ConfigField.currentLocation.name := by
    decide +kernel
  rcases List.mem_cons.mp hm with rfl | hm
  · cases hs
  · exact hothers m hm hname

end KVStore
