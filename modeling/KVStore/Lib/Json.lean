import Mathlib.Data.List.Basic

/-!
# JSON texts

A JSON text as its syntax tree, with the white space between the tokens and with every string and
number as it is written: `text` is what stands in the file, and the texts of trees are the
well-formed ones (RFC 8259). `decode` is what a string means. A member stands in the text between
the members before it and those after it (`joined_split`).
-/

namespace Json

/-! ## Tokens -/

inductive Blank
  | space
  | tab
  | newline
  | carriageReturn
deriving DecidableEq

def Blank.char : Blank → Char
  | .space => ' '
  | .tab => '\t'
  | .newline => '\n'
  | .carriageReturn => '\r'

def blankText (blanks : List Blank) : List Char := blanks.map Blank.char

/-- The escapes of one letter. -/
inductive Escape
  | quote
  | backslash
  | slash
  | backspace
  | formFeed
  | newline
  | carriageReturn
  | tab
deriving DecidableEq

def Escape.letter : Escape → Char
  | .quote => '"'
  | .backslash => '\\'
  | .slash => '/'
  | .backspace => 'b'
  | .formFeed => 'f'
  | .newline => 'n'
  | .carriageReturn => 'r'
  | .tab => 't'

def Escape.char : Escape → Char
  | .quote => '"'
  | .backslash => '\\'
  | .slash => '/'
  | .backspace => Char.ofNat 8
  | .formFeed => Char.ofNat 12
  | .newline => '\n'
  | .carriageReturn => '\r'
  | .tab => '\t'

/-- A character that stands for itself in a string. -/
abbrev PlainChar := {c : Char // c ≠ '"' ∧ c ≠ '\\' ∧ ' ' ≤ c}

abbrev HexDigit := {c : Char // c ∈ "0123456789abcdefABCDEF".toList}

def HexDigit.value (d : HexDigit) : Nat :=
  if d.1.isDigit then d.1.toNat - '0'.toNat
  else if d.1.isUpper then d.1.toNat - 'A'.toNat + 10
  else d.1.toNat - 'a'.toNat + 10

/-- A character of a string, as it is written. -/
inductive Piece
  | plain (c : PlainChar)
  | escape (e : Escape)
  | unicode (d₁ d₂ d₃ d₄ : HexDigit)
deriving DecidableEq

def Piece.text : Piece → List Char
  | .plain c => [c.1]
  | .escape e => ['\\', e.letter]
  | .unicode d₁ d₂ d₃ d₄ => ['\\', 'u', d₁.1, d₂.1, d₃.1, d₄.1]

/-- What stands between the quotes of a string. -/
def raw (s : List Piece) : List Char := s.flatMap Piece.text

def quoted (s : List Char) : List Char := '"' :: (s ++ ['"'])

/-- The code unit of a `\u` escape. -/
def Piece.unit : Piece → Option Nat
  | .unicode d₁ d₂ d₃ d₄ => some (((d₁.value * 16 + d₂.value) * 16 + d₃.value) * 16 + d₄.value)
  | _ => none

/-- The character of a piece on its own; half of a surrogate pair is replaced by U+FFFD. -/
def Piece.char : Piece → Char
  | .plain c => c.1
  | .escape e => e.char
  | p@(.unicode _ _ _ _) =>
    let n := p.unit.getD 0
    if n.isValidChar then Char.ofNat n else Char.ofNat 0xFFFD

/-- The character that two `\u` escapes stand for, if they are a surrogate pair. -/
def surrogatePair (p q : Piece) : Option Char :=
  match p.unit, q.unit with
  | some high, some low =>
    if 0xD800 ≤ high ∧ high < 0xDC00 ∧ 0xDC00 ≤ low ∧ low < 0xE000 then
      some (Char.ofNat (0x10000 + (high - 0xD800) * 0x400 + (low - 0xDC00)))
    else none
  | _, _ => none

/-- What a string means. -/
def decode : List Piece → List Char
  | [] => []
  | [p] => [p.char]
  | p :: q :: s =>
    match surrogatePair p q with
    | some c => c :: decode s
    | none => p.char :: decode (q :: s)

structure Exponent where
  capital : Bool
  /-- The sign, if there is one; `true` is a minus sign. -/
  sign : Option Bool
  digit : Fin 10
  digits : List (Fin 10)
deriving DecidableEq

/-- A number; a fraction without digits is left out. -/
structure Number where
  negative : Bool
  integer : Nat
  fraction : List (Fin 10)
  exponent : Option Exponent
deriving DecidableEq

def digitText (digits : List (Fin 10)) : List Char := digits.map fun d => Nat.digitChar d.val

def Exponent.text (e : Exponent) : List Char :=
  (if e.capital then 'E' else 'e') ::
    ((e.sign.elim [] fun negative => if negative then ['-'] else ['+']) ++
      digitText (e.digit :: e.digits))

def Number.text (n : Number) : List Char :=
  (if n.negative then ['-'] else []) ++ (Nat.toDigits 10 n.integer ++
    ((if n.fraction = [] then [] else '.' :: digitText n.fraction) ++
      n.exponent.elim [] Exponent.text))

/-! ## Trees -/

/-- A value in an array, with the white space around it. -/
structure Element (α : Type) where
  before : List Blank
  value : α
  after : List Blank

/-- A member of an object, with the white space around its four tokens. -/
structure Member (α : Type) where
  before : List Blank
  name : List Piece
  between : List Blank
  gap : List Blank
  value : α
  after : List Blank

/-- A value; `blank` is the white space in an array or object without content. -/
inductive Value
  | null
  | bool (b : Bool)
  | number (n : Number)
  | string (s : List Piece)
  | array (blank : List Blank) (elements : List (Element Value))
  | object (blank : List Blank) (members : List (Member Value))

/-- The parts with commas between them. -/
def joined (blank : List Blank) (parts : List (List Char)) : List Char :=
  if parts = [] then blankText blank else [','].intercalate parts

mutual

def Value.text : Value → List Char
  | .null => "null".toList
  | .bool true => "true".toList
  | .bool false => "false".toList
  | .number n => n.text
  | .string s => quoted (raw s)
  | .array blank elements => '[' :: (joined blank (elementTexts elements) ++ [']'])
  | .object blank members => '{' :: (joined blank (memberTexts members) ++ ['}'])

def elementTexts : List (Element Value) → List (List Char)
  | [] => []
  | e :: es => Element.text e :: elementTexts es

def Element.text : Element Value → List Char
  | ⟨before, value, after⟩ => blankText before ++ (value.text ++ blankText after)

def memberTexts : List (Member Value) → List (List Char)
  | [] => []
  | m :: ms => Member.text m :: memberTexts ms

def Member.text : Member Value → List Char
  | ⟨before, name, between, gap, value, after⟩ =>
    blankText before ++ (quoted (raw name) ++ (blankText between ++
      ':' :: (blankText gap ++ (value.text ++ blankText after))))

end

/-- A text that holds an object. -/
structure ObjectText where
  before : List Blank
  blank : List Blank
  members : List (Member Value)
  after : List Blank

def ObjectText.text (doc : ObjectText) : List Char :=
  blankText doc.before ++ ((Value.object doc.blank doc.members).text ++ blankText doc.after)

/-! ## Where a member stands -/

theorem elementTexts_eq_map (elements : List (Element Value)) :
    elementTexts elements = elements.map Element.text := by
  induction elements with
  | nil => rfl
  | cons e es ih => rw [elementTexts, List.map_cons, ih]

theorem memberTexts_eq_map (members : List (Member Value)) :
    memberTexts members = members.map Member.text := by
  induction members with
  | nil => rfl
  | cons m ms ih => rw [memberTexts, List.map_cons, ih]

/-- The parts, each with a comma behind it. -/
def textBefore (parts : List (List Char)) : List Char := parts.flatMap fun part => part ++ [',']

/-- The parts, each with a comma before it. -/
def textAfter (parts : List (List Char)) : List Char := parts.flatMap fun part => ',' :: part

@[simp] theorem textBefore_nil : textBefore [] = [] := rfl

@[simp] theorem textBefore_cons (part : List Char) (parts : List (List Char)) :
    textBefore (part :: parts) = part ++ ',' :: textBefore parts := by
  simp [textBefore]

@[simp] theorem textAfter_nil : textAfter [] = [] := rfl

@[simp] theorem textAfter_cons (part : List Char) (parts : List (List Char)) :
    textAfter (part :: parts) = ',' :: (part ++ textAfter parts) := rfl

theorem joined_cons (blank : List Blank) (part : List Char) (parts : List (List Char)) :
    joined blank (part :: parts) = part ++ textAfter parts := by
  unfold joined
  rw [if_neg (List.cons_ne_nil _ _)]
  induction parts generalizing part with
  | nil => simp [List.intercalate]
  | cons part' parts ih =>
    have hcons : [','].intercalate (part :: part' :: parts) =
        part ++ ',' :: [','].intercalate (part' :: parts) := by
      simp [List.intercalate, List.intersperse_cons_cons]
    rw [hcons, ih part', textAfter_cons]

/-- A comma may be counted to the part before it or to the one after it. -/
theorem comma_textBefore (before : List (List Char)) (part : List Char) (x : List Char) :
    ',' :: (textBefore before ++ (part ++ x)) = textAfter before ++ (',' :: (part ++ x)) := by
  induction before with
  | nil => rfl
  | cons first before ih =>
    simp only [textBefore_cons, textAfter_cons, List.append_assoc, List.cons_append, ih]

/-- A part stands between the parts before it and those after it. -/
theorem joined_split (blank : List Blank) (before : List (List Char)) (part : List Char)
    (after : List (List Char)) :
    joined blank (before ++ part :: after) = textBefore before ++ (part ++ textAfter after) := by
  cases before with
  | nil => exact joined_cons blank part after
  | cons first before =>
    have hafter : textAfter (before ++ part :: after) =
        textAfter before ++ ',' :: (part ++ textAfter after) := List.flatMap_append
    rw [List.cons_append, joined_cons, hafter, ← comma_textBefore, textBefore_cons,
      List.append_assoc, List.cons_append]

theorem Member.text_eq (m : Member Value) : Member.text m =
    blankText m.before ++ (quoted (raw m.name) ++ (blankText m.between ++
      ':' :: (blankText m.gap ++ (m.value.text ++ blankText m.after)))) := by
  rw [Member.text]

theorem length_le_textAfter (parts : List (List Char)) :
    parts.length ≤ (textAfter parts).length := by
  induction parts with
  | nil => exact Nat.le_refl 0
  | cons part parts ih =>
    simp only [textAfter_cons, List.length_cons, List.length_append]
    omega

theorem comma_joined {parts : List (List Char)} (h : parts ≠ []) (blank : List Blank) :
    ',' :: joined blank parts = textAfter parts := by
  obtain ⟨part, parts, rfl⟩ := List.exists_cons_of_ne_nil h
  rw [joined_cons, textAfter_cons]

theorem length_le_joined {parts : List (List Char)} (h : ∀ part ∈ parts, part ≠ [])
    (blank : List Blank) : parts.length ≤ (joined blank parts).length := by
  cases parts with
  | nil => exact Nat.zero_le _
  | cons part parts =>
    have hpart := List.length_pos_iff.mpr (h part List.mem_cons_self)
    have hparts := length_le_textAfter parts
    rw [joined_cons, List.length_append, List.length_cons]
    omega

theorem Value.text_ne_nil (v : Value) : v.text ≠ [] := by
  cases v with
  | null | string | array | object => simp [Value.text, quoted]
  | bool b => cases b <;> simp [Value.text]
  | number n =>
    rw [Value.text, Number.text]
    intro h
    have hdigits := List.append_eq_nil_iff.mp (List.append_eq_nil_iff.mp h).2
    exact Nat.toDigits_ne_nil hdigits.1

theorem Element.text_ne_nil (e : Element Value) : Element.text e ≠ [] := by
  intro h
  rw [Element.text] at h
  exact e.value.text_ne_nil (List.append_eq_nil_iff.mp (List.append_eq_nil_iff.mp h).2).1

theorem Member.text_ne_nil (m : Member Value) : Member.text m ≠ [] := by
  intro h
  rw [Member.text_eq] at h
  cases (List.append_eq_nil_iff.mp (List.append_eq_nil_iff.mp h).2).1

theorem length_le_elements (blank : List Blank) (elements : List (Element Value)) :
    elements.length ≤ (joined blank (elementTexts elements)).length := by
  have hne : ∀ part ∈ elementTexts elements, part ≠ [] := by
    rw [elementTexts_eq_map]
    intro part hpart
    obtain ⟨e, -, rfl⟩ := List.mem_map.mp hpart
    exact e.text_ne_nil
  have hlen := length_le_joined hne blank
  rwa [elementTexts_eq_map, List.length_map, ← elementTexts_eq_map] at hlen

theorem length_le_members (blank : List Blank) (members : List (Member Value)) :
    members.length ≤ (joined blank (memberTexts members)).length := by
  have hne : ∀ part ∈ memberTexts members, part ≠ [] := by
    rw [memberTexts_eq_map]
    intro part hpart
    obtain ⟨m, -, rfl⟩ := List.mem_map.mp hpart
    exact m.text_ne_nil
  have hlen := length_le_joined hne blank
  rwa [memberTexts_eq_map, List.length_map, ← memberTexts_eq_map] at hlen

theorem joined_nil (blank : List Blank) : joined blank [] = blankText blank := if_pos rfl

/-- The text before the colon of a member that stands behind the members `before`. -/
def ObjectText.beforeColon (doc : ObjectText) (before : List (Member Value)) (m : Member Value) :
    List Char :=
  blankText doc.before ++ '{' :: (textBefore (memberTexts before) ++
    (blankText m.before ++ (quoted (raw m.name) ++ blankText m.between)))

/-- The text behind the value of a member that stands before the members `after`. -/
def ObjectText.behindValue (doc : ObjectText) (m : Member Value) (after : List (Member Value)) :
    List Char :=
  blankText m.after ++ (textAfter (memberTexts after) ++ '}' :: blankText doc.after)

theorem ObjectText.text_split {doc : ObjectText} {before after : List (Member Value)}
    {m : Member Value} (h : doc.members = before ++ m :: after) :
    doc.text = doc.beforeColon before m ++
      ':' :: (blankText m.gap ++ (m.value.text ++ doc.behindValue m after)) := by
  rw [ObjectText.text, Value.text, h, memberTexts_eq_map, List.map_append, List.map_cons,
    joined_split, Member.text_eq]
  simp only [beforeColon, behindValue, memberTexts_eq_map, List.append_assoc, List.cons_append,
    List.nil_append]

/-- Where no other member has the name, it is the member's. -/
theorem eq_of_name {members before after : List (Member Value)} {m m' : Member Value}
    {name : List Char} (h : members = before ++ m :: after)
    (hunique : ∀ m' ∈ before ++ after, decode m'.name ≠ name) (hm' : m' ∈ members)
    (hname : decode m'.name = name) : m' = m := by
  rw [h, List.mem_append, List.mem_cons] at hm'
  rcases hm' with hbefore | rfl | hafter
  · exact absurd hname (hunique m' (List.mem_append_left _ hbefore))
  · rfl
  · exact absurd hname (hunique m' (List.mem_append_right _ hafter))

/-! ## Which characters stand where -/

theorem mem_blankText {c : Char} {blanks : List Blank} (h : c ∈ blankText blanks) :
    c ∈ [' ', '\t', '\n', '\r'] := by
  obtain ⟨b, -, rfl⟩ := List.mem_map.mp h
  cases b <;> decide

theorem notMem_blankText {c : Char} (hc : c ∉ [' ', '\t', '\n', '\r']) (blanks : List Blank) :
    c ∉ blankText blanks := fun h => hc (mem_blankText h)

@[simp] theorem quote_notMem_blankText (blanks : List Blank) : '"' ∉ blankText blanks :=
  notMem_blankText (by decide) blanks

@[simp] theorem openBracket_notMem_blankText (blanks : List Blank) : '[' ∉ blankText blanks :=
  notMem_blankText (by decide) blanks

/-- A piece does not begin with a quote. -/
theorem Piece.head_text (p : Piece) : p.text.head? ≠ some '"' := by
  cases p with
  | plain c =>
    intro h
    exact c.2.1 (Option.some.inj h)
  | escape | unicode =>
    intro h
    exact absurd (Option.some.inj h) (by decide)

theorem Piece.text_ne_nil (p : Piece) : p.text ≠ [] := by
  cases p <;> exact List.cons_ne_nil _ _

theorem length_decode_le (s : List Piece) : (decode s).length ≤ s.length := by
  fun_induction decode s with
  | case1 => exact Nat.le_refl _
  | case2 p => exact Nat.le_refl _
  | case3 p q s c hpair ih =>
    simp only [List.length_cons]
    omega
  | case4 p q s hpair ih =>
    simp only [List.length_cons] at ih ⊢
    omega

/-! ## Strings without escapes -/

/-- Every character stands for itself. -/
def Unescaped (s : List Piece) : Prop := ∀ p ∈ s, ∃ c, p = .plain c

theorem Unescaped.raw_eq {s : List Piece} (h : Unescaped s) : raw s = decode s := by
  fun_induction decode s with
  | case1 => rfl
  | case2 p =>
    obtain ⟨c, rfl⟩ := h p List.mem_cons_self
    rfl
  | case3 p q s c hpair ih =>
    obtain ⟨c, rfl⟩ := h p List.mem_cons_self
    cases hpair
  | case4 p q s hpair ih =>
    obtain ⟨c, rfl⟩ := h p List.mem_cons_self
    rw [← ih fun p' hp' => h p' (List.mem_cons_of_mem _ hp')]
    rfl

theorem Unescaped.quote_notMem {s : List Piece} (h : Unescaped s) : '"' ∉ raw s := by
  intro hm
  obtain ⟨p, hp, hc⟩ := List.mem_flatMap.mp hm
  obtain ⟨c, rfl⟩ := h p hp
  exact c.2.1 (List.mem_singleton.mp hc).symm

/-- A quote stands in a string as an escape only. -/
theorem escape_of_quote_mem {s : List Piece} (h : '"' ∈ raw s) : .escape .quote ∈ s := by
  obtain ⟨p, hp, hc⟩ := List.mem_flatMap.mp h
  cases p with
  | plain c => exact absurd (List.mem_singleton.mp hc).symm c.2.1
  | escape e =>
    rcases List.mem_cons.mp hc with hc | hc
    · exact absurd hc (by decide)
    · have hletter := List.mem_singleton.mp hc
      cases e with
      | quote => exact hp
      | _ => exact absurd hletter (by decide)
  | unicode d₁ d₂ d₃ d₄ =>
    have hdigit (d : HexDigit) : '"' ≠ d.1 := by
      intro hd
      have hmem := d.2
      rw [← hd] at hmem
      exact absurd hmem (by decide)
    simp only [Piece.text, List.mem_cons, List.not_mem_nil, hdigit, or_false] at hc
    rcases hc with hc | hc <;> exact absurd hc (by decide)

theorem quote_mem_decode {s : List Piece} (h : .escape .quote ∈ s) : '"' ∈ decode s := by
  fun_induction decode s with
  | case1 => cases h
  | case2 p =>
    obtain rfl := List.mem_singleton.mp h
    exact List.mem_cons_self
  | case3 p q s c hpair ih =>
    rcases List.mem_cons.mp h with rfl | h
    · cases hpair
    rcases List.mem_cons.mp h with rfl | h
    · cases p <;> cases hpair
    · exact List.mem_cons_of_mem c (ih h)
  | case4 p q s hpair ih =>
    rcases List.mem_cons.mp h with rfl | h
    · exact List.mem_cons_self
    · exact List.mem_cons_of_mem _ (ih h)

theorem raw_cons (p : Piece) (s : List Piece) : raw (p :: s) = p.text ++ raw s := rfl

/-- A string that is as long as its pieces are many has no escapes. -/
theorem unescaped_of_length_le {s : List Piece} (h : (raw s).length ≤ s.length) : Unescaped s := by
  have hle (s : List Piece) : s.length ≤ (raw s).length := by
    induction s with
    | nil => exact Nat.zero_le _
    | cons p s ih =>
      have hpos := List.length_pos_iff.mpr p.text_ne_nil
      rw [raw_cons, List.length_append, List.length_cons]
      omega
  induction s with
  | nil =>
    intro p hp
    cases hp
  | cons p s ih =>
    have hrest := hle s
    rw [raw_cons, List.length_append, List.length_cons] at h
    have hplain : ∃ c, p = .plain c := by
      cases p with
      | plain c => exact ⟨c, rfl⟩
      | escape e =>
        have htwo : (Piece.escape e).text.length = 2 := rfl
        omega
      | unicode d₁ d₂ d₃ d₄ =>
        have hsix : (Piece.unicode d₁ d₂ d₃ d₄).text.length = 6 := rfl
        omega
    have hpos := List.length_pos_iff.mpr p.text_ne_nil
    exact List.forall_mem_cons.mpr ⟨hplain, ih (by omega)⟩

/-- The strings without escapes are those that mean what is written. -/
theorem unescaped_of_raw_eq {s : List Piece} (h : raw s = decode s) : Unescaped s := by
  apply unescaped_of_length_le
  rw [h]
  exact length_decode_le s

/-! ## Texts written plainly -/

/-- The characters that stand for themselves. -/
def plainPieces (s : List Char) : List Piece :=
  s.filterMap fun c => if h : c ≠ '"' ∧ c ≠ '\\' ∧ ' ' ≤ c then some (.plain ⟨c, h⟩) else none

theorem unescaped_plainPieces (s : List Char) : Unescaped (plainPieces s) := by
  intro p hp
  obtain ⟨c, -, hc⟩ := List.mem_filterMap.mp hp
  split at hc
  · exact ⟨_, (Option.some.inj hc).symm⟩
  · cases hc

def plainMember (name : List Char) (value : Value) : Member Value where
  before := []
  name := plainPieces name
  between := []
  gap := []
  value := value
  after := []

def plainDocument (members : List (Member Value)) : ObjectText where
  before := []
  blank := []
  members := members
  after := []

end Json
