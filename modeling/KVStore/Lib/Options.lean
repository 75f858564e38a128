import Mathlib.Data.List.Basic

/-!
# Command lines of options

A loop over the words of a command line looks at a word and the one after it: the first is an option
of its own, or both are one, or the loop stops with a result. Given what the options are, the loop
gets through exactly the command lines that are sequences of options, with their effects in order
(`parse_ok_iff`), and stops exactly where such a sequence is followed by a word that is none
(`parse_error_iff`). A setting has the value that the last option for it gave (`foldl_setting`).
-/

namespace Options

universe u v w x

/-- What a word, with the one after it, makes of the settings. -/
inductive Step (σ : Type u) (β : Type v)
  | word (s : σ)
  | pair (s : σ)
  | stop (b : β)

variable {σ : Type u} {β : Type v} {α : Type w} {ο : Type x}

/-- The loop over the words. -/
def parse (step : σ → α → Option α → Step σ β) : List α → σ → Except β σ
  | [], s => .ok s
  | [a], s =>
    match step s a none with
    | .word s => .ok s
    | .pair s => .ok s
    | .stop b => .error b
  | a :: value :: rest, s =>
    match step s a (some value) with
    | .word s => parse step (value :: rest) s
    | .pair s => parse step rest s
    | .stop b => .error b

/-- The words of an option. -/
inductive Words (α : Type w)
  | word (a : α)
  | pair (a value : α)

def Words.toList : Words α → List α
  | word a => [a]
  | pair a value => [a, value]

/-- The options that the loop knows: their words, what they set, and which of them are accepted. -/
structure Grammar (step : σ → α → Option α → Step σ β) (words : ο → Words α) (apply : σ → ο → σ)
    (Accepted : ο → Prop) : Prop where
  word_iff : ∀ {s a next s'}, step s a next = .word s' ↔
    ∃ o, Accepted o ∧ words o = .word a ∧ s' = apply s o
  pair_iff : ∀ {s a next s'}, step s a next = .pair s' ↔
    ∃ o value, Accepted o ∧ next = some value ∧ words o = .pair a value ∧ s' = apply s o

/-- The words of some options. -/
def line (words : ο → Words α) (opts : List ο) : List α := opts.flatMap fun o => (words o).toList

variable {step : σ → α → Option α → Step σ β} {words : ο → Words α} {apply : σ → ο → σ}
  {Accepted : ο → Prop} {s s' : σ} {b : β} {a : α} {o : ο} {opts : List ο} {l rest : List α}

theorem line_cons : line words (o :: opts) = (words o).toList ++ line words opts := rfl

namespace Grammar

variable (g : Grammar step words apply Accepted)

include g

/-- An option is taken off the command line. -/
theorem parse_cons (ho : Accepted o) :
    parse step ((words o).toList ++ rest) s = parse step rest (apply s o) := by
  cases hw : words o with
  | word a =>
    have hstep (next : Option α) : step s a next = .word (apply s o) :=
      g.word_iff.mpr ⟨o, ho, hw, rfl⟩
    cases rest with
    | nil => simp only [Words.toList, List.append_nil, parse, hstep]
    | cons value rest => simp only [Words.toList, List.singleton_append, parse, hstep]
  | pair a value =>
    have hstep : step s a (some value) = .pair (apply s o) :=
      g.pair_iff.mpr ⟨o, value, ho, rfl, hw, rfl⟩
    simp only [Words.toList, List.cons_append, List.nil_append, parse, hstep]

theorem parse_line (rest : List α) (hopts : ∀ o ∈ opts, Accepted o) :
    parse step (line words opts ++ rest) s = parse step rest (opts.foldl apply s) := by
  induction opts generalizing s with
  | nil => rfl
  | cons o opts ih =>
    rw [line_cons, List.append_assoc, g.parse_cons (hopts o List.mem_cons_self),
      ih fun o ho => hopts o (List.mem_cons_of_mem _ ho)]
    rfl

/-- A command line is a sequence of options, or has one in front of a word at which the loop
stops. -/
theorem cases (l : List α) (s : σ) :
    (∃ opts : List ο, (∀ o ∈ opts, Accepted o) ∧ l = line words opts) ∨
      ∃ (opts : List ο) (a : α) (rest : List α) (b : β), (∀ o ∈ opts, Accepted o) ∧
        l = line words opts ++ a :: rest ∧ step (opts.foldl apply s) a rest.head? = .stop b := by
  induction hn : l.length using Nat.strongRecOn generalizing l s with | _ n ih
  have hsplit : ∀ (a : α) (rest : List α), (∃ b, step s a rest.head? = .stop b) ∨
      ∃ o l', Accepted o ∧ a :: rest = (words o).toList ++ l' := by
    intro a rest
    cases hstep : step s a rest.head? with
    | word s₁ =>
      obtain ⟨o, ho, hw, -⟩ := g.word_iff.mp hstep
      exact Or.inr ⟨o, rest, ho, by rw [hw]; rfl⟩
    | pair s₁ =>
      obtain ⟨o, value, ho, hnext, hw, -⟩ := g.pair_iff.mp hstep
      obtain ⟨rest, rfl⟩ := List.head?_eq_some_iff.mp hnext
      exact Or.inr ⟨o, rest, ho, by rw [hw]; rfl⟩
    | stop b => exact Or.inl ⟨b, rfl⟩
  cases l with
  | nil => exact Or.inl ⟨[], by simp, rfl⟩
  | cons a rest =>
    rcases hsplit a rest with ⟨b, hstop⟩ | ⟨o, l', ho, hl⟩
    · exact Or.inr ⟨[], a, rest, b, by simp, rfl, hstop⟩
    · have hlt : l'.length < n := by
        rw [← hn, hl, List.length_append]
        cases words o <;> simp [Words.toList]
      have hall {opts : List ο} (hopts : ∀ o ∈ opts, Accepted o) : ∀ o' ∈ o :: opts, Accepted o' :=
        List.forall_mem_cons.mpr ⟨ho, hopts⟩
      rcases ih _ hlt l' (apply s o) rfl with
        ⟨opts, hopts, rfl⟩ | ⟨opts, a', rest', b, hopts, rfl, hstop⟩
      · exact Or.inl ⟨o :: opts, hall hopts, hl⟩
      · exact Or.inr ⟨o :: opts, a', rest', b, hall hopts,
          by rw [hl, line_cons, List.append_assoc], hstop⟩

theorem parse_stop (hopts : ∀ o ∈ opts, Accepted o)
    (hstop : step (opts.foldl apply s) a rest.head? = .stop b) :
    parse step (line words opts ++ a :: rest) s = .error b := by
  rw [g.parse_line _ hopts]
  cases rest with
  | nil => simp only [parse, show step (opts.foldl apply s) a none = .stop b from hstop]
  | cons value rest =>
    simp only [parse, show step (opts.foldl apply s) a (some value) = .stop b from hstop]

/-- **The loop gets through** exactly the sequences of options. -/
theorem parse_ok_iff : parse step l s = .ok s' ↔
    ∃ opts : List ο, (∀ o ∈ opts, Accepted o) ∧ l = line words opts ∧ s' = opts.foldl apply s := by
  constructor
  · intro h
    rcases g.cases l s with ⟨opts, hopts, rfl⟩ | ⟨opts, a, rest, b, hopts, rfl, hstop⟩
    · have hline := g.parse_line (s := s) [] hopts
      rw [List.append_nil, h] at hline
      exact ⟨opts, hopts, rfl, Except.ok.inj hline⟩
    · rw [g.parse_stop hopts hstop] at h
      cases h
  · rintro ⟨opts, hopts, rfl, rfl⟩
    have hline := g.parse_line (s := s) [] hopts
    rwa [List.append_nil] at hline

/-- **The loop stops** exactly behind a sequence of options. -/
theorem parse_error_iff : parse step l s = .error b ↔
    ∃ (opts : List ο) (a : α) (rest : List α), (∀ o ∈ opts, Accepted o) ∧
      l = line words opts ++ a :: rest ∧ step (opts.foldl apply s) a rest.head? = .stop b := by
  constructor
  · intro h
    rcases g.cases l s with ⟨opts, hopts, rfl⟩ | ⟨opts, a, rest, b', hopts, rfl, hstop⟩
    · have hline := g.parse_line (s := s) [] hopts
      rw [List.append_nil, h] at hline
      cases hline
    · rw [g.parse_stop hopts hstop] at h
      cases h
      exact ⟨opts, a, rest, hopts, rfl, hstop⟩
  · rintro ⟨opts, a, rest, hopts, rfl, hstop⟩
    exact g.parse_stop hopts hstop

end Grammar

/-! ## The last option for a setting -/

/-- The value that the last option gives, of those that give one. -/
def lastGiven {γ : Type v} (value : ο → Option γ) (opts : List ο) : Option γ :=
  opts.reverse.findSome? value

/-- A setting that an option sets to its value, or leaves as it is. -/
theorem foldl_setting {γ : Type v} {get : σ → γ} {value : ο → Option γ}
    (h : ∀ s o, get (apply s o) = (value o).getD (get s)) :
    get (opts.foldl apply s) = (lastGiven value opts).getD (get s) := by
  induction opts generalizing s with
  | nil => rfl
  | cons o opts ih =>
    rw [List.foldl_cons, ih, h, lastGiven, lastGiven, List.reverse_cons, List.findSome?_append]
    cases opts.reverse.findSome? value <;> simp

theorem isSome_lastGiven {γ : Type v} {value : ο → Option γ} :
    (lastGiven value opts).isSome = opts.any fun o => (value o).isSome := by
  rw [lastGiven, List.isSome_findSome?, List.any_reverse]

theorem lastGiven_eq_none_iff {γ : Type v} {value : ο → Option γ} :
    lastGiven value opts = none ↔ ∀ o ∈ opts, value o = none := by
  simp [lastGiven]

theorem any_eq_mem [DecidableEq ο] (o : ο) :
    (opts.any fun o' => decide (o' = o)) = decide (o ∈ opts) := by
  rw [Bool.eq_iff_iff]
  simp

/-- A flag that an option raises, or leaves as it is. -/
theorem foldl_flag {get : σ → Bool} {raises : ο → Bool}
    (h : ∀ s o, get (apply s o) = (get s || raises o)) :
    get (opts.foldl apply s) = (get s || opts.any raises) := by
  induction opts generalizing s with
  | nil => simp
  | cons o opts ih => rw [List.foldl_cons, ih, h, List.any_cons, Bool.or_assoc]

/-- A flag that an option lowers, or leaves as it is. -/
theorem foldl_lowered {get : σ → Bool} {lowers : ο → Bool}
    (h : ∀ s o, get (apply s o) = (get s && !lowers o)) :
    get (opts.foldl apply s) = (get s && !opts.any lowers) := by
  induction opts generalizing s with
  | nil => simp
  | cons o opts ih => rw [List.foldl_cons, ih, h, List.any_cons, Bool.not_or, Bool.and_assoc]

end Options
