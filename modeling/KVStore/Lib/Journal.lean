import KVStore.Lib.RecentWindow
import Mathlib.Data.Set.Insert
import Mathlib.Logic.Function.Basic

/-!
# Slots with a bounded log, under optimistic writers

Every writer has a slot and a key. The first writer of a slot creates it. A later one reads the
log of the slot, gives up when its key is shown there, and otherwise stages its entry outside the
log and appends itself by compare-and-swap: the append succeeds when the log has not grown since it
was read, and is retried a bounded number of times from a fresh reading. Readers see the last
`window` entries of a log. A writer that found a full window deletes the staged entry that its
append would push out, before it appends.

`Step` is one step of one writer, performed by the service or answered by a fault. The invariants:

* `Inv`: logs have no duplicates and hold exactly the published writers, and every writer's reading
  is a prefix of the log (`Inv.step`);
* `Trimmed`: unless a deletion faults, no entry behind the window is staged (`Trimmed.step`);
* `Covered`: without faults, an entry of a window is staged, or a writer whose append will succeed
  has just deleted it (`Covered.step`);
* `Dense`: all entries of the windows are staged, as long as no deletion happens before the window
  has moved (`Dense.step`);
* `Fresh` and `Distinct`: the keys shown by a slot are different, as long as no retry appends a key
  that its fresh reading showed (`Fresh.step`, `Distinct.step_iff`).
-/

namespace Journal

open RecentWindow

universe u v w

inductive Outcome
  /-- The writer created the slot. -/
  | created
  /-- The slot was created with the writer's key. -/
  | own
  /-- The window showed the writer's key. -/
  | listed
  | published
  /-- The writer failed before its entry was staged. -/
  | rejected
  /-- The writer failed, or gave up, with its entry staged. -/
  | abandoned
deriving DecidableEq

/-- What a writer does next; `seen` is the length of the log that it read. -/
inductive Phase
  | starting
  | reading
  | staging (seen : Nat)
  | rereading (retry seen : Nat)
  | evicting (retry seen : Nat)
  | publishing (retry seen : Nat)
  | done (o : Outcome)
deriving DecidableEq

structure Protocol (ι : Type u) (β : Type v) (κ : Type w) where
  slot : ι → β
  key : ι → κ
  window : Nat
  attempts : Nat
  window_pos : 0 < window

structure State (ι : Type u) (β : Type v) where
  creator : β → Option ι
  log : β → List ι
  staged : Set ι
  phase : ι → Phase

variable {ι : Type u} {β : Type v} {κ : Type w}

def State.initial : State ι β where
  creator _ := none
  log _ := []
  staged := ∅
  phase _ := .starting

/-- The entries that readers of a slot see. -/
def State.view (s : State ι β) (P : Protocol ι β κ) (b : β) : List ι := (s.log b).rtake P.window

/-- The phase after an attempt has read a log of length `seen`. -/
def Protocol.attempt (P : Protocol ι β κ) (retry seen : Nat) : Phase :=
  if P.window ≤ seen then .evicting retry seen else .publishing retry seen

section

variable [DecidableEq ι]

@[simps]
def State.goto (s : State ι β) (i : ι) (p : Phase) : State ι β :=
  { s with phase := Function.update s.phase i p }

@[simps]
def State.stage (s : State ι β) (i : ι) : State ι β :=
  { s with staged := insert i s.staged }

@[simps]
def State.unstage (s : State ι β) (a : ι) : State ι β :=
  { s with staged := s.staged \ {a} }

variable [DecidableEq β]

@[simps]
def State.create (s : State ι β) (b : β) (i : ι) : State ι β :=
  { s with creator := Function.update s.creator b (some i) }

@[simps]
def State.append (s : State ι β) (b : β) (i : ι) : State ι β :=
  { s with log := Function.update s.log b (s.log b ++ [i]) }

variable (P : Protocol ι β κ)

inductive Step (s : State ι β) (i : ι) : Bool → State ι β → Prop
  | create (h : s.phase i = .starting) (hc : s.creator (P.slot i) = none) :
      Step s i true ((s.create (P.slot i) i).goto i (.done .created))
  | occupied (h : s.phase i = .starting) {c : ι} (hc : s.creator (P.slot i) = some c) :
      Step s i true (s.goto i .reading)
  | missing (h : s.phase i = .reading) (hc : s.creator (P.slot i) = none) :
      Step s i true (s.goto i (.done .rejected))
  | own (h : s.phase i = .reading) {c : ι} (hc : s.creator (P.slot i) = some c)
      (hk : P.key c = P.key i) : Step s i true (s.goto i (.done .own))
  | listed (h : s.phase i = .reading) {c : ι} (hc : s.creator (P.slot i) = some c)
      (hk : P.key c ≠ P.key i) (hl : ∃ a ∈ s.view P (P.slot i), P.key a = P.key i) :
      Step s i true (s.goto i (.done .listed))
  | fresh (h : s.phase i = .reading) {c : ι} (hc : s.creator (P.slot i) = some c)
      (hk : P.key c ≠ P.key i) (hl : ∀ a ∈ s.view P (P.slot i), P.key a ≠ P.key i) :
      Step s i true (s.goto i (.staging (s.log (P.slot i)).length))
  | stage {k : Nat} (h : s.phase i = .staging k) :
      Step s i true ((s.stage i).goto i (P.attempt 0 k))
  | reread {r k : Nat} (h : s.phase i = .rereading r k) :
      Step s i true (s.goto i (P.attempt r (s.log (P.slot i)).length))
  | evict {r k : Nat} (h : s.phase i = .evicting r k) {a : ι}
      (ha : (s.log (P.slot i))[k - P.window]? = some a) :
      Step s i true ((s.unstage a).goto i (.publishing r k))
  | publish {r k : Nat} (h : s.phase i = .publishing r k)
      (hk : k = (s.log (P.slot i)).length) :
      Step s i true ((s.append (P.slot i) i).goto i (.done .published))
  | retry {r k : Nat} (h : s.phase i = .publishing r k)
      (hk : k ≠ (s.log (P.slot i)).length) (hr : r ≠ P.attempts - 1) :
      Step s i true (s.goto i (.rereading (r + 1) k))
  | giveUp {r k : Nat} (h : s.phase i = .publishing r k)
      (hk : k ≠ (s.log (P.slot i)).length) (hr : r = P.attempts - 1) :
      Step s i true (s.goto i (.done .abandoned))
  | startFault {p : Phase} (h : s.phase i = .starting) (hp : p = .reading ∨ p = .done .rejected) :
      Step s i false (s.goto i p)
  | readFault (h : s.phase i = .reading) : Step s i false (s.goto i (.done .rejected))
  | stageFault {k : Nat} (h : s.phase i = .staging k) :
      Step s i false (s.goto i (.done .rejected))
  | rereadFault {r k : Nat} (h : s.phase i = .rereading r k) :
      Step s i false (s.goto i (.done .abandoned))
  | evictFault {r k : Nat} (h : s.phase i = .evicting r k) :
      Step s i false (s.goto i (.publishing r k))
  | publishFault {r k : Nat} (h : s.phase i = .publishing r k) :
      Step s i false (s.goto i (.done .abandoned))

end

/-! ## Logs, readings and staged entries -/

section

variable (P : Protocol ι β κ)

/-- What holds of the entry and the reading of a writer in a phase. -/
def Sound (s : State ι β) (i : ι) : Phase → Prop
  | .staging k => i ∉ s.staged ∧ (∃ c, s.creator (P.slot i) = some c) ∧
      k ≤ (s.log (P.slot i)).length
  | .rereading _ k => i ∈ s.staged ∧ (∃ c, s.creator (P.slot i) = some c) ∧
      k < (s.log (P.slot i)).length
  | .evicting _ k => i ∈ s.staged ∧ (∃ c, s.creator (P.slot i) = some c) ∧
      k ≤ (s.log (P.slot i)).length ∧ P.window ≤ k
  | .publishing _ k => i ∈ s.staged ∧ (∃ c, s.creator (P.slot i) = some c) ∧
      k ≤ (s.log (P.slot i)).length
  | .done .published => i ∈ s.log (P.slot i) ∧ ∃ c, s.creator (P.slot i) = some c
  | .done .abandoned => i ∈ s.staged
  | _ => i ∉ s.staged

structure Inv (s : State ι β) : Prop where
  slot_creator : ∀ {b c}, s.creator b = some c → P.slot c = b
  mem_log : ∀ {b a}, a ∈ s.log b → P.slot a = b ∧ s.phase a = .done .published
  nodup_log : ∀ b, (s.log b).Nodup
  sound : ∀ i, Sound P s i (s.phase i)

theorem Inv.initial : Inv P (State.initial : State ι β) where
  slot_creator h := by cases h
  mem_log h := by cases h
  nodup_log _ := List.nodup_nil
  sound _ := Set.notMem_empty _

variable {P}

theorem Inv.notMem_log {s : State ι β} (h : Inv P s) {i : ι}
    (hi : s.phase i ≠ .done .published) (b : β) : i ∉ s.log b :=
  fun hm => hi (h.mem_log hm).2

theorem Inv.log_eq_nil {s : State ι β} (h : Inv P s) {b : β} (hb : s.creator b = none) :
    s.log b = [] := by
  rw [List.eq_nil_iff_forall_not_mem]
  intro a ha
  obtain ⟨rfl, hd⟩ := h.mem_log ha
  have hsound := h.sound a
  rw [hd] at hsound
  obtain ⟨-, c, hc⟩ := hsound
  rw [hb] at hc
  cases hc

/-- The entry at a position behind the window is not in it. -/
theorem Inv.notMem_view {s : State ι β} (h : Inv P s) {b : β} {n : Nat} {a : ι}
    (hn : n + P.window < (s.log b).length) (ha : (s.log b)[n]? = some a) : a ∉ s.view P b := by
  obtain ⟨hlt, rfl⟩ := List.getElem?_eq_some_iff.mp ha
  exact getElem_notMem_rtake (h.nodup_log b) (by omega)

/-- The other writers keep what they rely on when slots stay created, logs grow, and only entries of
published writers are removed. -/
theorem Sound.frame {s s' : State ι β} {i : ι} {p : Phase} (h : Sound P s i p)
    (hcreator : ∀ c, s.creator (P.slot i) = some c → s'.creator (P.slot i) = some c)
    (hlog : s.log (P.slot i) <+: s'.log (P.slot i))
    (hstaged : p ≠ .done .published → (i ∈ s'.staged ↔ i ∈ s.staged)) : Sound P s' i p := by
  have hlen := hlog.length_le
  have hcreated : (∃ c, s.creator (P.slot i) = some c) → ∃ c, s'.creator (P.slot i) = some c :=
    fun ⟨c, hc⟩ => ⟨c, hcreator c hc⟩
  cases p with
  | starting => exact mt (hstaged (by simp)).mp h
  | reading => exact mt (hstaged (by simp)).mp h
  | staging k => exact ⟨mt (hstaged (by simp)).mp h.1, hcreated h.2.1, h.2.2.trans hlen⟩
  | rereading r k =>
    exact ⟨(hstaged (by simp)).mpr h.1, hcreated h.2.1, h.2.2.trans_le hlen⟩
  | evicting r k =>
    exact ⟨(hstaged (by simp)).mpr h.1, hcreated h.2.1, h.2.2.1.trans hlen, h.2.2.2⟩
  | publishing r k => exact ⟨(hstaged (by simp)).mpr h.1, hcreated h.2.1, h.2.2.trans hlen⟩
  | done o =>
    cases o with
    | published => exact ⟨hlog.subset h.1, hcreated h.2⟩
    | abandoned => exact (hstaged (by simp)).mpr h
    | created => exact mt (hstaged (by simp)).mp h
    | own => exact mt (hstaged (by simp)).mp h
    | listed => exact mt (hstaged (by simp)).mp h
    | rejected => exact mt (hstaged (by simp)).mp h

theorem Sound.attempt {s : State ι β} {i : ι} {r k : Nat} (hi : i ∈ s.staged)
    (hc : ∃ c, s.creator (P.slot i) = some c) (hk : k ≤ (s.log (P.slot i)).length) :
    Sound P s i (P.attempt r k) := by
  unfold Protocol.attempt
  split
  · next hw => exact ⟨hi, hc, hk, hw⟩
  · exact ⟨hi, hc, hk⟩

variable [DecidableEq ι] {s : State ι β} {i : ι}

/-- A step of writer `i` to another phase, with an update `s₁` of the rest that the other writers
do not notice. -/
theorem Inv.update {s₁ : State ι β} {p : Phase} (h : Inv P s) (hi : s.phase i ≠ .done .published)
    (hphase : s₁.phase = s.phase) (hp : Sound P s₁ i p)
    (hslot : ∀ {b c}, s₁.creator b = some c → P.slot c = b)
    (hcreator : ∀ {b c}, s.creator b = some c → s₁.creator b = some c)
    (hlog : ∀ b, s₁.log b = s.log b ∨
      s₁.log b = s.log b ++ [i] ∧ P.slot i = b ∧ p = .done .published)
    (hstaged : ∀ {j}, j ≠ i → s.phase j ≠ .done .published → (j ∈ s₁.staged ↔ j ∈ s.staged)) :
    Inv P (s₁.goto i p) where
  slot_creator := hslot
  mem_log {b a} hm := by
    have hold : a ∈ s.log b → P.slot a = b ∧ (s₁.goto i p).phase a = .done .published := by
      intro ha
      obtain ⟨hs, hd⟩ := h.mem_log ha
      have hne : a ≠ i := by
        rintro rfl
        exact hi hd
      refine ⟨hs, ?_⟩
      rw [State.goto_phase, Function.update_of_ne hne, hphase, hd]
    rw [State.goto_log] at hm
    rcases hlog b with he | ⟨he, hs, hd⟩
    · rw [he] at hm
      exact hold hm
    · rw [he, List.mem_append, List.mem_singleton] at hm
      rcases hm with hm | rfl
      · exact hold hm
      · refine ⟨hs, ?_⟩
        rw [State.goto_phase, Function.update_self, hd]
  nodup_log b := by
    rw [State.goto_log]
    rcases hlog b with he | ⟨he, -, -⟩
    · rw [he]
      exact h.nodup_log b
    · rw [he]
      apply (h.nodup_log b).append (List.nodup_singleton i)
      exact List.disjoint_singleton.mpr (h.notMem_log hi b)
  sound j := by
    rw [State.goto_phase, hphase]
    by_cases heq : j = i
    · subst heq
      rw [Function.update_self]
      exact hp.frame (fun _ hc => hc) (List.prefix_refl _) (fun _ => Iff.rfl)
    · rw [Function.update_of_ne heq]
      refine (h.sound j).frame (fun _ hc => hcreator hc) ?_ (hstaged heq)
      rw [State.goto_log]
      rcases hlog (P.slot j) with he | ⟨he, -, -⟩
      · exact he ▸ List.prefix_refl _
      · exact he ▸ List.prefix_append _ _

/-- A step that only moves writer `i` to another phase. -/
theorem Inv.goto {p : Phase} (h : Inv P s) (hi : s.phase i ≠ .done .published)
    (hp : Sound P s i p) : Inv P (s.goto i p) :=
  h.update hi rfl hp h.slot_creator id (fun _ => Or.inl rfl) (fun _ _ => Iff.rfl)

theorem Inv.stage {k : Nat} (h : Inv P s) (hi : s.phase i = .staging k) :
    Inv P ((s.stage i).goto i (P.attempt 0 k)) := by
  obtain ⟨-, hc, hk⟩ : Sound P s i (.staging k) := hi ▸ h.sound i
  refine h.update (by simp [hi]) rfl ?_ h.slot_creator id (fun _ => Or.inl rfl) ?_
  · exact Sound.attempt (Set.mem_insert _ _) hc hk
  · intro j hj _
    exact Set.mem_insert_iff.trans (or_iff_right hj)

theorem Inv.evict {r k : Nat} {b : β} {a : ι} (h : Inv P s) (hi : s.phase i = .evicting r k)
    (ha : a ∈ s.log b) : Inv P ((s.unstage a).goto i (.publishing r k)) := by
  obtain ⟨hst, hc, hk, -⟩ : Sound P s i (.evicting r k) := hi ▸ h.sound i
  have hpa := (h.mem_log ha).2
  have hother : ∀ {j}, s.phase j ≠ .done .published →
      (j ∈ (s.unstage a).staged ↔ j ∈ s.staged) := by
    intro j hj
    have hja : j ≠ a := by
      rintro rfl
      exact hj hpa
    exact (Set.mem_sdiff j).trans (and_iff_left hja)
  refine h.update (by simp [hi]) rfl ⟨?_, hc, hk⟩ h.slot_creator id (fun _ => Or.inl rfl)
    (fun _ => hother)
  exact (hother (by simp [hi])).mpr hst

variable [DecidableEq β]

theorem Inv.create (h : Inv P s) (hi : s.phase i = .starting)
    (hc : s.creator (P.slot i) = none) :
    Inv P ((s.create (P.slot i) i).goto i (.done .created)) := by
  have hst : i ∉ s.staged := by
    have := h.sound i
    rwa [hi] at this
  refine h.update (by simp [hi]) rfl hst ?_ ?_ (fun _ => Or.inl rfl) (fun _ _ => Iff.rfl)
  · intro b c hbc
    rw [State.create_creator] at hbc
    by_cases heq : b = P.slot i
    · subst heq
      rw [Function.update_self] at hbc
      cases hbc
      rfl
    · rw [Function.update_of_ne heq] at hbc
      exact h.slot_creator hbc
  · intro b c hbc
    have hne : b ≠ P.slot i := by
      rintro rfl
      rw [hc] at hbc
      cases hbc
    rw [State.create_creator, Function.update_of_ne hne, hbc]

theorem Inv.publish {r k : Nat} (h : Inv P s) (hi : s.phase i = .publishing r k) :
    Inv P ((s.append (P.slot i) i).goto i (.done .published)) := by
  obtain ⟨-, hc, -⟩ : Sound P s i (.publishing r k) := hi ▸ h.sound i
  refine h.update (by simp [hi]) rfl ⟨?_, hc⟩ h.slot_creator id (fun b => ?_) (fun _ _ => Iff.rfl)
  · simp
  · rw [State.append_log]
    by_cases heq : b = P.slot i
    · subst heq
      right
      exact ⟨Function.update_self .., rfl, rfl⟩
    · left
      exact Function.update_of_ne heq ..

theorem Inv.step {s' : State ι β} {served : Bool} (h : Inv P s)
    (hs : Step P s i served s') : Inv P s' := by
  have hi := h.sound i
  cases hs with
  | create hp hc => exact h.create hp hc
  | occupied hp | missing hp | own hp | listed hp | readFault hp =>
    rw [hp] at hi
    exact h.goto (by simp [hp]) hi
  | fresh hp hc hk hl =>
    rw [hp] at hi
    exact h.goto (by simp [hp]) ⟨hi, ⟨_, hc⟩, le_rfl⟩
  | stage hp => exact h.stage hp
  | reread hp =>
    rw [hp] at hi
    exact h.goto (by simp [hp]) (Sound.attempt hi.1 hi.2.1 le_rfl)
  | evict hp ha => exact h.evict hp (List.mem_of_getElem? ha)
  | publish hp hk => exact h.publish hp
  | retry hp hk hr =>
    rw [hp] at hi
    exact h.goto (by simp [hp]) ⟨hi.1, hi.2.1, lt_of_le_of_ne hi.2.2 hk⟩
  | startFault hp hp' =>
    rw [hp] at hi
    rcases hp' with rfl | rfl <;> exact h.goto (by simp [hp]) hi
  | giveUp hp | stageFault hp | rereadFault hp | publishFault hp =>
    rw [hp] at hi
    exact h.goto (by simp [hp]) hi.1
  | evictFault hp =>
    rw [hp] at hi
    exact h.goto (by simp [hp]) ⟨hi.1, hi.2.1, hi.2.2.1⟩

end

/-! ## What a step leaves alone -/

section

variable [DecidableEq β] {P : Protocol ι β κ} {s : State ι β} {i : ι}

theorem view_append {b b' : β} {a : ι} (ha : a ∈ (s.append b i).view P b') :
    a ∈ s.view P b' ∨ a = i ∧ b' = b := by
  rw [State.view, State.append_log] at ha
  by_cases heq : b' = b
  · subst heq
    rw [Function.update_self] at ha
    exact (mem_rtake_or_eq ha).imp_right fun h => ⟨List.mem_singleton.mp h, rfl⟩
  · rw [Function.update_of_ne heq] at ha
    exact Or.inl ha

variable [DecidableEq ι] {s' : State ι β} {served : Bool}

/-- What the service does for a writer, by the phase of the writer. -/
theorem Step.served_cases (hs : Step P s i true s') :
    match s.phase i with
    | .starting =>
      s.creator (P.slot i) = none ∧ s' = (s.create (P.slot i) i).goto i (.done .created) ∨
        (∃ c, s.creator (P.slot i) = some c) ∧ s' = s.goto i .reading
    | .reading => s.creator (P.slot i) = none ∧ s' = s.goto i (.done .rejected) ∨
        ∃ c, s.creator (P.slot i) = some c ∧
          (P.key c = P.key i ∧ s' = s.goto i (.done .own) ∨
            P.key c ≠ P.key i ∧ (∃ a ∈ s.view P (P.slot i), P.key a = P.key i) ∧
              s' = s.goto i (.done .listed) ∨
            P.key c ≠ P.key i ∧ (∀ a ∈ s.view P (P.slot i), P.key a ≠ P.key i) ∧
              s' = s.goto i (.staging (s.log (P.slot i)).length))
    | .staging k => s' = (s.stage i).goto i (P.attempt 0 k)
    | .rereading r _ => s' = s.goto i (P.attempt r (s.log (P.slot i)).length)
    | .evicting r k => ∃ a, (s.log (P.slot i))[k - P.window]? = some a ∧
        s' = (s.unstage a).goto i (.publishing r k)
    | .publishing r k =>
        k = (s.log (P.slot i)).length ∧ s' = (s.append (P.slot i) i).goto i (.done .published) ∨
        k ≠ (s.log (P.slot i)).length ∧ (r ≠ P.attempts - 1 ∧ s' = s.goto i (.rereading (r + 1) k) ∨
          r = P.attempts - 1 ∧ s' = s.goto i (.done .abandoned))
    | .done _ => False := by
  cases hs with
  | create hp hc => simp [hp, hc]
  | occupied hp hc => simp [hp, hc]
  | missing hp hc => simp [hp, hc]
  | own hp hc hk => simp [hp, hc, hk]
  | listed hp hc hk hl =>
    rw [hp]
    exact Or.inr ⟨_, hc, Or.inr (Or.inl ⟨hk, hl, rfl⟩)⟩
  | fresh hp hc hk hl =>
    rw [hp]
    exact Or.inr ⟨_, hc, Or.inr (Or.inr ⟨hk, hl, rfl⟩)⟩
  | stage hp => rw [hp]
  | reread hp => rw [hp]
  | evict hp ha =>
    rw [hp]
    exact ⟨_, ha, rfl⟩
  | publish hp hk =>
    rw [hp]
    exact Or.inl ⟨hk, rfl⟩
  | retry hp hk hr =>
    rw [hp]
    exact Or.inr ⟨hk, Or.inl ⟨hr, rfl⟩⟩
  | giveUp hp hk hr =>
    rw [hp]
    exact Or.inr ⟨hk, Or.inr ⟨hr, rfl⟩⟩

theorem Step.creator_mono (hs : Step P s i served s') {b : β} {c : ι}
    (hc : s.creator b = some c) : s'.creator b = some c := by
  cases hs with
  | create _ hn =>
    have hne : b ≠ P.slot i := by
      rintro rfl
      rw [hn] at hc
      cases hc
    simp [Function.update_of_ne hne, hc]
  | _ => exact hc

theorem Step.log_prefix (hs : Step P s i served s') (b : β) : s.log b <+: s'.log b := by
  cases hs with
  | publish =>
    by_cases heq : b = P.slot i
    · subst heq
      simp
    · simp [Function.update_of_ne heq]
  | _ => exact List.prefix_refl _

/-- Only a writer of the retry loop abandons its entry. -/
theorem Step.loop_of_abandoned (hs : Step P s i served s') (h : s'.phase i = .done .abandoned) :
    (∃ r k, s.phase i = .rereading r k) ∨ ∃ r k, s.phase i = .publishing r k := by
  cases hs with
  | rereadFault hp => exact Or.inl ⟨_, _, hp⟩
  | giveUp hp | publishFault hp => exact Or.inr ⟨_, _, hp⟩
  | stage | reread =>
    rw [State.goto_phase, Function.update_self] at h
    unfold Protocol.attempt at h
    split at h <;> cases h
  | startFault _ hp' =>
    rw [State.goto_phase, Function.update_self] at h
    rcases hp' with rfl | rfl <;> cases h
  | _ =>
    rw [State.goto_phase, Function.update_self] at h
    cases h

/-- A writer is rejected before the retry loop. -/
theorem Step.notLoop_of_rejected (hs : Step P s i served s') (h : s'.phase i = .done .rejected) :
    (∀ r k, s.phase i ≠ .rereading r k) ∧ ∀ r k, s.phase i ≠ .publishing r k := by
  cases hs with
  | missing hp | startFault hp | readFault hp | stageFault hp => simp [hp]
  | stage | reread =>
    rw [State.goto_phase, Function.update_self] at h
    unfold Protocol.attempt at h
    split at h <;> cases h
  | _ =>
    rw [State.goto_phase, Function.update_self] at h
    cases h

/-- A writer that is done takes no step. -/
theorem Step.phase_ne_done (hs : Step P s i served s') (o : Outcome) : s.phase i ≠ .done o := by
  cases hs with
  | create hp | occupied hp | missing hp | own hp | listed hp | fresh hp | stage hp | reread hp
  | evict hp | publish hp | retry hp | giveUp hp | startFault hp | readFault hp | stageFault hp
  | rereadFault hp | evictFault hp | publishFault hp => simp [hp]

theorem Step.phase_of_ne (hs : Step P s i served s') {j : ι} (hj : j ≠ i) :
    s'.phase j = s.phase j := by
  cases hs <;> simp [Function.update_of_ne hj]

/-- A slot with a creator had one before, or was created by the step. -/
theorem Step.creator_cases (hs : Step P s i served s') {b : β} {c : ι}
    (hc : s'.creator b = some c) :
    s.creator b = some c ∨
      c = i ∧ b = P.slot i ∧ served = true ∧ s.phase i = .starting ∧ s.creator b = none ∧
        s'.phase i = .done .created := by
  cases hs with
  | create hp hn =>
    by_cases hb : b = P.slot i
    · subst hb
      rw [State.goto_creator, State.create_creator, Function.update_self] at hc
      obtain rfl := Option.some.inj hc
      exact Or.inr ⟨rfl, rfl, rfl, hp, hn, Function.update_self ..⟩
    · rw [State.goto_creator, State.create_creator, Function.update_of_ne hb] at hc
      exact Or.inl hc
  | _ => exact Or.inl hc

/-- A writer whose step ends with the creation of its slot is the creator. -/
theorem Step.creator_of_created (hs : Step P s i served s')
    (hi : s'.phase i = .done .created) : s'.creator (P.slot i) = some i := by
  cases hs with
  | create => simp
  | stage | reread =>
    rw [State.goto_phase, Function.update_self] at hi
    unfold Protocol.attempt at hi
    split at hi <;> cases hi
  | startFault _ hp => rcases hp with rfl | rfl <;> simp at hi
  | _ => simp at hi

end

/-! ## Entries behind the window -/

section

variable (P : Protocol ι β κ)

/-- No entry behind a window is staged, and none that the next append pushes out. -/
structure Trimmed (s : State ι β) : Prop where
  behind : ∀ {b n a}, n + P.window < (s.log b).length → (s.log b)[n]? = some a → a ∉ s.staged
  ready : ∀ {i r k a}, s.phase i = .publishing r k → P.window ≤ k →
    (s.log (P.slot i))[k - P.window]? = some a → a ∉ s.staged

theorem Trimmed.initial : Trimmed P (State.initial : State ι β) where
  behind h := by cases h
  ready h := by cases h

variable {P} {s s' : State ι β} {i : ι}

theorem Trimmed.unstage (h : Trimmed P s) (a : ι) : Trimmed P (s.unstage a) :=
  ⟨fun hn ha hst => h.behind hn ha hst.1, fun hp hk ha hst => h.ready hp hk ha hst.1⟩

theorem Trimmed.stage (h : Trimmed P s) (hi : ∀ b, i ∉ s.log b) : Trimmed P (s.stage i) := by
  have hmem : ∀ {b} {n : Nat} {a}, (s.log b)[n]? = some a → a ∉ s.staged →
      a ∉ (s.stage i).staged := by
    intro b n a ha hst
    rw [State.stage_staged, Set.mem_insert_iff]
    rintro (rfl | hm)
    · exact hi b (List.mem_of_getElem? ha)
    · exact hst hm
  exact ⟨fun hn ha => hmem ha (h.behind hn ha), fun hp hk ha => hmem ha (h.ready hp hk ha)⟩

theorem Trimmed.append [DecidableEq β] (h : Trimmed P s) (hinv : Inv P s) {r : Nat}
    (hi : s.phase i = .publishing r (s.log (P.slot i)).length) :
    Trimmed P (s.append (P.slot i) i) where
  behind {b n a} hn ha := by
    rw [State.append_log] at hn ha
    by_cases heq : b = P.slot i
    · subst heq
      rw [Function.update_self, List.length_append, List.length_singleton] at hn
      have hw := P.window_pos
      rw [Function.update_self, List.getElem?_append_left (by omega)] at ha
      rcases Nat.lt_or_ge (n + P.window) (s.log (P.slot i)).length with hlt | hge
      · exact h.behind hlt ha
      · have hn' : (s.log (P.slot i)).length - P.window = n := by omega
        apply h.ready hi (by omega)
        rwa [hn']
    · rw [Function.update_of_ne heq] at hn ha
      exact h.behind hn ha
  ready {j r k a} hj hk ha := by
    have hsound := hinv.sound j
    rw [State.append_phase] at hj
    rw [hj] at hsound
    apply h.ready hj hk
    rw [State.append_log] at ha
    by_cases he : P.slot j = P.slot i
    · have hw := P.window_pos
      have hlen := hsound.2.2
      rw [he, Function.update_self] at ha
      rw [he] at hlen ⊢
      rwa [List.getElem?_append_left (by omega)] at ha
    · rwa [Function.update_of_ne he] at ha

variable [DecidableEq ι]

theorem Trimmed.goto {p : Phase} (h : Trimmed P s)
    (hp : ∀ {r k a}, p = .publishing r k → P.window ≤ k →
      (s.log (P.slot i))[k - P.window]? = some a → a ∉ s.staged) : Trimmed P (s.goto i p) where
  behind := h.behind
  ready {j r k a} hj hk ha := by
    rw [State.goto_phase] at hj
    by_cases heq : j = i
    · subst heq
      rw [Function.update_self] at hj
      exact hp hj hk ha
    · rw [Function.update_of_ne heq] at hj
      exact h.ready hj hk ha

theorem Trimmed.attempt {r k : Nat} (h : Trimmed P s) : Trimmed P (s.goto i (P.attempt r k)) := by
  refine h.goto (fun {r' k' a} he hk => ?_)
  unfold Protocol.attempt at he
  split at he
  · cases he
  · cases he
    contradiction

omit [DecidableEq ι] in
/-- A staged entry of a finished writer is in the window, or abandoned. -/
theorem Trimmed.mem_view (h : Trimmed P s) (hinv : Inv P s) {o : Outcome}
    (hi : s.phase i = .done o) (hst : i ∈ s.staged) :
    i ∈ s.view P (P.slot i) ∨ o = .abandoned := by
  have hsound : Sound P s i (.done o) := hi ▸ hinv.sound i
  cases o with
  | published =>
    left
    by_contra hv
    obtain ⟨n, hn, he⟩ := getElem_of_notMem_rtake hsound.1 hv
    exact h.behind (by omega) (List.getElem?_eq_some_iff.mpr ⟨by omega, he⟩) hst
  | abandoned => exact Or.inr rfl
  | created | own | listed | rejected => exact absurd hst hsound

theorem Trimmed.step [DecidableEq β] {served : Bool} (h : Trimmed P s) (hinv : Inv P s)
    (hs : Step P s i served s') (hdel : served = false → ∀ r k, s.phase i ≠ .evicting r k) :
    Trimmed P s' := by
  cases hs with
  | create =>
    have hc : Trimmed P (s.create (P.slot i) i) := ⟨h.behind, h.ready⟩
    exact hc.goto (by simp)
  | stage hp =>
    refine (h.stage (hinv.notMem_log ?_)).attempt
    simp [hp]
  | reread => exact h.attempt
  | evict hp ha =>
    refine (h.unstage _).goto (fun he hk ha' => ?_)
    cases he
    rw [State.unstage_log, ha] at ha'
    cases ha'
    exact fun hst => hst.2 rfl
  | publish hp hk => exact (h.append hinv (hk ▸ hp)).goto (by simp)
  | startFault hp hp' => rcases hp' with rfl | rfl <;> exact h.goto (by simp)
  | evictFault hp => exact absurd hp (hdel rfl _ _)
  | _ => exact h.goto (by simp)

end

/-! ## Entries of the window -/

section

variable (P : Protocol ι β κ)

/-- An entry of a window is staged, unless the writer that deleted it is about to append. -/
def Covered (s : State ι β) : Prop :=
  ∀ ⦃b a⦄, a ∈ s.view P b → a ∉ s.staged →
    ∃ i r, P.slot i = b ∧ s.phase i = .publishing r (s.log b).length ∧
      P.window ≤ (s.log b).length ∧ (s.log b)[(s.log b).length - P.window]? = some a

/-- Every entry of a window is staged. -/
def Dense (s : State ι β) : Prop :=
  ∀ ⦃b a⦄, a ∈ s.view P b → a ∈ s.staged

theorem Covered.initial : Covered P (State.initial : State ι β) :=
  fun _ _ ha => absurd (mem_of_mem_rtake ha) List.not_mem_nil

theorem Dense.initial : Dense P (State.initial : State ι β) :=
  fun _ _ ha => absurd (mem_of_mem_rtake ha) List.not_mem_nil

variable {P} {s s' : State ι β} {i : ι}

/-- The windows are dense when no writer is about to append. -/
theorem Covered.dense (h : Covered P s) (hq : ∀ i r k, s.phase i ≠ .publishing r k) :
    Dense P s := by
  intro b a ha
  by_contra hst
  obtain ⟨i, r, -, hp, -⟩ := h ha hst
  exact hq i r _ hp

theorem Covered.stage (h : Covered P s) : Covered P (s.stage i) :=
  fun _ _ ha hst => h ha fun hm => hst (Set.mem_insert_of_mem i hm)

/-- The entry that a deletion removes is behind the window, or next to leave it. -/
theorem Inv.evicts (h : Inv P s) {r k : Nat} {a : ι} (hi : s.phase i = .evicting r k)
    (ha : (s.log (P.slot i))[k - P.window]? = some a) {b : β} (hv : a ∈ s.view P b) :
    P.slot i = b ∧ k = (s.log b).length ∧ P.window ≤ k := by
  obtain ⟨-, -, hk, hw⟩ : Sound P s i (.evicting r k) := hi ▸ h.sound i
  obtain rfl : P.slot i = b :=
    (h.mem_log (List.mem_of_getElem? ha)).1.symm.trans (h.mem_log (mem_of_mem_rtake hv)).1
  refine ⟨rfl, ?_, hw⟩
  by_contra hne
  exact h.notMem_view (by omega) ha hv

variable [DecidableEq ι]

theorem Covered.goto {p : Phase} (h : Covered P s)
    (hi : ∀ r, s.phase i ≠ .publishing r (s.log (P.slot i)).length) : Covered P (s.goto i p) := by
  intro b a ha hst
  obtain ⟨j, r, rfl, hp, hw, hj⟩ := h ha hst
  have hne : j ≠ i := by
    rintro rfl
    exact hi r hp
  refine ⟨j, r, rfl, ?_, hw, hj⟩
  rw [State.goto_phase, Function.update_of_ne hne, hp]
  rfl

theorem Covered.evict (h : Covered P s) (hinv : Inv P s) {r k : Nat} {a : ι}
    (hi : s.phase i = .evicting r k) (ha : (s.log (P.slot i))[k - P.window]? = some a) :
    Covered P ((s.unstage a).goto i (.publishing r k)) := by
  intro b a' hv hst
  by_cases ha' : a' = a
  · subst ha'
    obtain ⟨rfl, rfl, hw⟩ := hinv.evicts hi ha hv
    refine ⟨i, r, rfl, ?_, hw, ha⟩
    rw [State.goto_phase, Function.update_self]
    rfl
  · have hg : Covered P (s.goto i (.publishing r k)) := h.goto (by simp [hi])
    refine hg hv fun hm => hst ?_
    exact ⟨hm, ha'⟩

theorem Covered.publish [DecidableEq β] (h : Covered P s) (hinv : Inv P s) {r : Nat}
    (hi : s.phase i = .publishing r (s.log (P.slot i)).length) :
    Covered P ((s.append (P.slot i) i).goto i (.done .published)) := by
  have hinv' := hinv.publish hi
  obtain ⟨hown, -, -⟩ : Sound P s i (.publishing r _) := hi ▸ hinv.sound i
  intro b a hv hst
  rcases view_append hv with hold | ⟨rfl, -⟩
  · obtain ⟨j, r', rfl, hp, hw, ha⟩ := h hold hst
    by_cases he : P.slot j = P.slot i
    · -- the append has moved the window past the deleted entry
      rw [he] at ha hw hv
      refine absurd hv (hinv'.notMem_view
        (n := (s.log (P.slot i)).length - P.window) ?_ ?_)
      · simp
        omega
      · have hpos := P.window_pos
        simp only [State.goto_log, State.append_log, Function.update_self]
        rw [List.getElem?_append_left (by omega), ha]
    · have hji : j ≠ i := fun hj => he (congrArg P.slot hj)
      refine ⟨j, r', rfl, ?_, ?_, ?_⟩
      · simp [Function.update_of_ne hji, Function.update_of_ne he, hp]
      · simpa [Function.update_of_ne he] using hw
      · simpa [Function.update_of_ne he] using ha
  · exact absurd hown hst

theorem Covered.step [DecidableEq β] (h : Covered P s) (hinv : Inv P s)
    (hs : Step P s i true s') : Covered P s' := by
  cases hs with
  | create hp =>
    have hc : Covered P (s.create (P.slot i) i) := h
    refine hc.goto (fun r he => ?_)
    rw [State.create_phase, hp] at he
    cases he
  | stage hp => exact h.stage.goto (by simp [hp])
  | evict hp ha => exact h.evict hinv hp ha
  | publish hp hk => exact h.publish hinv (hk ▸ hp)
  | retry hp hk | giveUp hp hk =>
    refine h.goto (fun r he => hk ?_)
    rw [hp] at he
    cases he
    rfl
  | occupied hp | missing hp | own hp | listed hp | fresh hp | reread hp =>
    exact h.goto (by simp [hp])

/-- Writer `i` is about to delete an entry while the window still shows it. -/
def EvictsEarly (P : Protocol ι β κ) (s : State ι β) (i : ι) : Prop :=
  ∃ r, s.phase i = .evicting r (s.log (P.slot i)).length

theorem Dense.step [DecidableEq β] {served : Bool} (h : Dense P s) (hinv : Inv P s)
    (hs : Step P s i served s') (he : served = true → ¬ EvictsEarly P s i) : Dense P s' := by
  cases hs with
  | stage => exact fun _ _ hv => Set.mem_insert_of_mem i (h hv)
  | @evict r k hp a ha =>
    intro b a' hv
    refine ⟨h hv, ?_⟩
    rintro rfl
    obtain ⟨rfl, rfl, -⟩ := hinv.evicts hp ha hv
    exact he rfl ⟨r, hp⟩
  | @publish r k hp hk =>
    obtain ⟨hown, -, -⟩ : Sound P s i (.publishing r k) := hp ▸ hinv.sound i
    intro b a hv
    rcases view_append hv with hold | ⟨rfl, -⟩
    · exact h hold
    · exact hown
  | _ => exact h

/-- A deletion of an entry that the window still shows leaves the window with a hole. -/
theorem Dense.not_of_evictsEarly [DecidableEq β] (hinv : Inv P s) (hs : Step P s i true s')
    (he : EvictsEarly P s i) : ¬ Dense P s' := by
  obtain ⟨r, he⟩ := he
  obtain ⟨-, -, -, hw⟩ : Sound P s i (.evicting r _) := he ▸ hinv.sound i
  intro hd
  cases hs with
  | @evict r' k hp a ha =>
    rw [he] at hp
    cases hp
    refine (hd (b := P.slot i) (a := a) ?_).2 rfl
    obtain ⟨hlt, rfl⟩ := List.getElem?_eq_some_iff.mp ha
    rw [State.view, State.goto_log, State.unstage_log, rtake_eq_cons hw P.window_pos]
    exact List.mem_cons_self
  | create hp | occupied hp | missing hp | own hp | listed hp | fresh hp | stage hp | reread hp
  | publish hp | retry hp | giveUp hp =>
    rw [he] at hp
    cases hp

end

/-! ## Different keys -/

section

variable (P : Protocol ι β κ)

/-- The creator of the slot has another key. -/
def Other (s : State ι β) (i : ι) : Prop :=
  ∀ c, s.creator (P.slot i) = some c → P.key c ≠ P.key i

/-- The window of the log that writer `i` read does not show its key. -/
def Unseen (s : State ι β) (i : ι) (seen : Nat) : Prop :=
  ∀ a ∈ ((s.log (P.slot i)).take seen).rtake P.window, P.key a ≠ P.key i

/-- What the check of a writer in a phase has shown; the check is made before the first attempt
only. -/
def Checked (s : State ι β) (i : ι) : Phase → Prop
  | .staging k => Other P s i ∧ Unseen P s i k
  | .rereading r _ => Other P s i ∧ r ≠ 0
  | .evicting r k => Other P s i ∧ (r = 0 → Unseen P s i k)
  | .publishing r k => Other P s i ∧ (r = 0 → Unseen P s i k)
  | _ => True

def Fresh (s : State ι β) : Prop :=
  ∀ i, Checked P s i (s.phase i)

/-- The keys that a slot shows are different. -/
def Distinct (s : State ι β) : Prop :=
  ∀ b c, s.creator b = some c → (P.key c :: (s.view P b).map P.key).Nodup

/-- Writer `i` is about to append its key although the part of the window that stays shows it. -/
def Repeats (s : State ι β) (i : ι) : Prop :=
  ∃ r, 0 < r ∧ s.phase i = .publishing r (s.log (P.slot i)).length ∧
    P.key i ∈ ((s.log (P.slot i)).rtake (P.window - 1)).map P.key

theorem Fresh.initial : Fresh P (State.initial : State ι β) := fun _ => trivial

theorem Distinct.initial : Distinct P (State.initial : State ι β) := fun _ _ h => by cases h

variable {P} {s s' : State ι β} {i : ι}

theorem Checked.frame {p : Phase} (h : Checked P s i p) (hs : Sound P s i p)
    (hcreator : ∀ {c}, s.creator (P.slot i) = some c → s'.creator (P.slot i) = some c)
    (hlog : s.log (P.slot i) <+: s'.log (P.slot i)) : Checked P s' i p := by
  have hother : (∃ c, s.creator (P.slot i) = some c) → Other P s i → Other P s' i := by
    rintro ⟨c, hc⟩ ho c' hc'
    rw [hcreator hc] at hc'
    cases hc'
    exact ho c hc
  have hunseen : ∀ {k}, k ≤ (s.log (P.slot i)).length → Unseen P s i k → Unseen P s' i k := by
    intro k hk hu
    obtain ⟨t, ht⟩ := hlog
    unfold Unseen
    rw [← ht, List.take_append_of_le_length hk]
    exact hu
  cases p with
  | staging k => exact ⟨hother hs.2.1 h.1, hunseen hs.2.2 h.2⟩
  | rereading r k => exact ⟨hother hs.2.1 h.1, h.2⟩
  | evicting r k => exact ⟨hother hs.2.1 h.1, fun hr => hunseen hs.2.2.1 (h.2 hr)⟩
  | publishing r k => exact ⟨hother hs.2.1 h.1, fun hr => hunseen hs.2.2 (h.2 hr)⟩
  | starting => trivial
  | reading => trivial
  | done o => trivial

theorem Checked.attempt {r k : Nat} (ho : Other P s i) (hu : r = 0 → Unseen P s i k) :
    Checked P s i (P.attempt r k) := by
  unfold Protocol.attempt
  split
  · exact ⟨ho, hu⟩
  · exact ⟨ho, hu⟩

variable [DecidableEq ι] [DecidableEq β] {served : Bool}

theorem Fresh.step (h : Fresh P s) (hinv : Inv P s) (hs : Step P s i served s') :
    Fresh P s' := by
  intro j
  by_cases heq : j = i
  · subst heq
    have hj := h j
    cases hs with
    | @fresh hp c hc hk hl =>
      rw [State.goto_phase, Function.update_self]
      refine ⟨fun c' hc' => ?_, fun a ha => ?_⟩
      · rw [State.goto_creator, hc] at hc'
        cases hc'
        exact hk
      · rw [State.goto_log, List.take_length] at ha
        exact hl a ha
    | stage hp =>
      rw [hp] at hj
      rw [State.goto_phase, Function.update_self]
      exact Checked.attempt hj.1 fun _ => hj.2
    | reread hp =>
      rw [hp] at hj
      rw [State.goto_phase, Function.update_self]
      exact Checked.attempt hj.1 fun hr => absurd hr hj.2
    | evict hp | evictFault hp =>
      rw [hp] at hj
      rw [State.goto_phase, Function.update_self]
      exact hj
    | retry hp =>
      rw [hp] at hj
      rw [State.goto_phase, Function.update_self]
      exact ⟨hj.1, Nat.succ_ne_zero _⟩
    | startFault hp hp' =>
      rw [State.goto_phase, Function.update_self]
      rcases hp' with rfl | rfl <;> trivial
    | _ =>
      rw [State.goto_phase, Function.update_self]
      trivial
  · rw [hs.phase_of_ne heq]
    exact (h j).frame (hinv.sound j) hs.creator_mono (hs.log_prefix _)

omit [DecidableEq ι] in
theorem view_publish (hw : 0 < P.window) :
    (s.append (P.slot i) i).view P (P.slot i) =
      (s.log (P.slot i)).rtake (P.window - 1) ++ [i] := by
  rw [State.view, State.append_log, Function.update_self]
  exact rtake_append_singleton hw

omit [DecidableEq ι] in
/-- Appending a writer leaves the keys of its slot different exactly when the part of the window
that stays does not show its key. -/
theorem Distinct.publish_iff (h : Distinct P s) {c : ι} (hc : s.creator (P.slot i) = some c)
    (hk : P.key c ≠ P.key i) : Distinct P (s.append (P.slot i) i) ↔
      P.key i ∉ ((s.log (P.slot i)).rtake (P.window - 1)).map P.key := by
  have hold : (P.key c :: ((s.log (P.slot i)).rtake (P.window - 1)).map P.key).Nodup := by
    refine (h _ c hc).sublist (List.Sublist.cons_cons _ (List.Sublist.map _ ?_))
    exact rtake_sublist_rtake (by omega)
  have hnew : (P.key c :: ((s.append (P.slot i) i).view P (P.slot i)).map P.key).Nodup ↔
      P.key i ∉ ((s.log (P.slot i)).rtake (P.window - 1)).map P.key := by
    rw [view_publish P.window_pos, List.map_append, List.map_singleton, ← List.cons_append,
      List.nodup_append_comm, List.singleton_append, List.nodup_cons, and_iff_left hold,
      List.mem_cons, or_iff_right hk.symm]
  refine ⟨fun hd => hnew.mp (hd _ c hc), fun hn b c' hc' => ?_⟩
  by_cases heq : b = P.slot i
  · subst heq
    obtain rfl : c = c' := by
      rw [State.append_creator, hc] at hc'
      exact Option.some.inj hc'
    exact hnew.mpr hn
  · rw [State.view, State.append_log, Function.update_of_ne heq]
    exact h b c' hc'

/-- A step keeps the keys different exactly when it is not the append of a repeated key. -/
theorem Distinct.step_iff (h : Distinct P s) (hinv : Inv P s) (hf : Fresh P s)
    (hs : Step P s i served s') :
    Distinct P s' ↔ (served = true → ¬ Repeats P s i) := by
  have hno : (∀ r k, s.phase i ≠ .publishing r k) → ¬ Repeats P s i := by
    rintro hp ⟨r, -, hr, -⟩
    exact hp r _ hr
  cases hs with
  | create hp hc =>
    refine iff_of_true (fun b c hbc => ?_) fun _ => hno (by simp [hp])
    rw [State.goto_creator, State.create_creator] at hbc
    by_cases heq : b = P.slot i
    · subst heq
      have hnil : s.view P (P.slot i) = [] := by
        rw [State.view, hinv.log_eq_nil hc, List.rtake_nil]
      show (P.key c :: (s.view P (P.slot i)).map P.key).Nodup
      simp [hnil]
    · rw [Function.update_of_ne heq] at hbc
      exact h b c hbc
  | @publish r k hp hk =>
    obtain ⟨-, ⟨c, hc⟩, -⟩ : Sound P s i (.publishing r k) := hp ▸ hinv.sound i
    obtain ⟨ho, hu⟩ : Checked P s i (.publishing r k) := hp ▸ hf i
    refine Iff.trans (h.publish_iff hc (ho c hc)) ⟨?_, fun hr hm => ?_⟩
    · rintro hn - ⟨r', -, -, hm⟩
      exact hn hm
    · rcases Nat.eq_zero_or_pos r with rfl | hpos
      · obtain ⟨a, ha, he⟩ := List.mem_map.mp hm
        refine hu rfl a ?_ he
        rw [hk, List.take_length]
        exact (rtake_sublist_rtake (Nat.sub_le _ _)).subset ha
      · exact hr rfl ⟨r, hpos, hk ▸ hp, hm⟩
  | occupied hp | missing hp | own hp | listed hp | fresh hp | stage hp | reread hp | evict hp =>
    exact iff_of_true h fun _ => hno (by simp [hp])
  | retry hp hk | giveUp hp hk =>
    refine iff_of_true h fun _ ⟨r, _, hr, _⟩ => hk ?_
    rw [hp] at hr
    cases hr
    rfl
  | _ => exact iff_of_true h fun hf => by cases hf

end

/-! ## A writer on its own -/

section

variable (P : Protocol ι β κ)

/-- The entry that the next append to a slot pushes out of the window is deleted. -/
def State.evictOldest (s : State ι β) (b : β) : State ι β :=
  if P.window ≤ (s.log b).length then
    match (s.log b)[(s.log b).length - P.window]? with
    | some a => s.unstage a
    | none => s
  else s

@[simp] theorem State.log_evictOldest (s : State ι β) (b : β) :
    (s.evictOldest P b).log = s.log := by
  unfold State.evictOldest
  repeat' split
  all_goals rfl

@[simp] theorem State.creator_evictOldest (s : State ι β) (b : β) :
    (s.evictOldest P b).creator = s.creator := by
  unfold State.evictOldest
  repeat' split
  all_goals rfl

variable {P} in
theorem State.evictOldest_of_le {s : State ι β} {b : β} {a : ι} (hw : P.window ≤ (s.log b).length)
    (ha : (s.log b)[(s.log b).length - P.window]? = some a) : s.evictOldest P b = s.unstage a := by
  unfold State.evictOldest
  rw [if_pos hw, ha]

variable {P} in
theorem State.evictOldest_of_lt {s : State ι β} {b : β} (hw : ¬ P.window ≤ (s.log b).length) :
    s.evictOldest P b = s := by
  unfold State.evictOldest
  rw [if_neg hw]

variable [DecidableEq ι]

@[simp] theorem State.goto_goto (s : State ι β) (i : ι) (p q : Phase) :
    (s.goto i p).goto i q = s.goto i q := by
  simp [State.goto]

@[simp] theorem State.view_goto (s : State ι β) (i : ι) (p : Phase) (b : β) :
    (s.goto i p).view P b = s.view P b := rfl

@[simp] theorem State.stage_goto (s : State ι β) (i : ι) (p : Phase) :
    (s.goto i p).stage i = (s.stage i).goto i p := rfl

@[simp] theorem State.evictOldest_goto (s : State ι β) (i : ι) (p : Phase) (b : β) :
    (s.goto i p).evictOldest P b = (s.evictOldest P b).goto i p := by
  unfold State.evictOldest
  rw [State.goto_log]
  repeat' split
  all_goals rfl

@[simp] theorem State.append_goto [DecidableEq β] (s : State ι β) (i : ι) (p : Phase) (b : β) :
    (s.goto i p).append b i = (s.append b i).goto i p := rfl

/-- What a writer leaves behind that nobody interrupts. -/
def State.write [DecidableEq β] [DecidableEq κ] (s : State ι β) (i : ι) : State ι β :=
  match s.creator (P.slot i) with
  | none => (s.create (P.slot i) i).goto i (.done .created)
  | some c =>
    if P.key c = P.key i then s.goto i (.done .own)
    else if ∃ a ∈ s.view P (P.slot i), P.key a = P.key i then s.goto i (.done .listed)
    else (((s.stage i).evictOldest P (P.slot i)).append (P.slot i) i).goto i (.done .published)

/-- A writer on its own finishes, and does not abandon its entry. -/
theorem State.phase_write [DecidableEq β] [DecidableEq κ] (s : State ι β) (i : ι) :
    ∃ o, (s.write P i).phase = Function.update s.phase i (.done o) ∧ o ≠ .abandoned := by
  have hevict : ∀ s : State ι β, (s.evictOldest P (P.slot i)).phase = s.phase := by
    intro s
    unfold State.evictOldest
    repeat' split
    all_goals rfl
  unfold State.write
  split
  · exact ⟨.created, rfl, by decide⟩
  · split
    · exact ⟨.own, rfl, by decide⟩
    · split
      · exact ⟨.listed, rfl, by decide⟩
      · refine ⟨.published, ?_, by decide⟩
        show Function.update ((s.stage i).evictOldest P (P.slot i)).phase i _ = _
        rw [hevict]
        rfl

end

end Journal
