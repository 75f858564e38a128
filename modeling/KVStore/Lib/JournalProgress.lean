import KVStore.Lib.Journal

/-!
# Progress of the writers of a journal

Every step lowers the rank of its writer (`Step.rank_lt`). A writer that gives up has been outpaced:
since it started, the log of its slot has grown by as many entries as it has attempts
(`Outpaced.step`). Where no step of a writer was answered by a fault, it is never rejected, and it
abandons its entry only when outpaced (`Unhindered.step`).
-/

namespace Journal

open RecentWindow

universe u v w

variable {ι : Type u} {β : Type v} {κ : Type w}

/-- An attempt reads the log, deletes and appends; the first one has its reading. -/
def Phase.rank (attempts : Nat) : Phase → Nat
  | .starting => 3 * attempts + 2
  | .reading => 3 * attempts + 1
  | .staging _ => 3 * attempts
  | .rereading retry _ => 3 * (attempts - retry)
  | .evicting retry _ => 3 * (attempts - retry) - 1
  | .publishing retry _ => 3 * (attempts - retry) - 2
  | .done _ => 0

/-- The attempt that a writer is in is one of those it has. -/
def Phase.Tries (attempts : Nat) : Phase → Prop
  | .rereading retry _ | .evicting retry _ | .publishing retry _ => retry < attempts
  | _ => True

section

variable {P : Protocol ι β κ} {r k : Nat}

theorem Protocol.tries_attempt (h : r < P.attempts) : (P.attempt r k).Tries P.attempts := by
  unfold Protocol.attempt
  split <;> exact h

theorem Protocol.rank_attempt_lt (h : r < P.attempts) :
    (P.attempt r k).rank P.attempts < 3 * (P.attempts - r) := by
  unfold Protocol.attempt
  split
  · show 3 * (P.attempts - r) - 1 < _
    omega
  · show 3 * (P.attempts - r) - 2 < _
    omega

variable [DecidableEq ι] [DecidableEq β] {s s' : State ι β} {i : ι} {served : Bool}

theorem Step.tries (hpos : 0 < P.attempts) (h : ∀ i, (s.phase i).Tries P.attempts)
    (hs : Step P s i served s') (j : ι) : (s'.phase j).Tries P.attempts := by
  by_cases hj : j = i
  · subst hj
    have hi := h j
    cases hs with
    | retry hp hk hr =>
      rw [hp] at hi
      simp only [State.goto_phase, Function.update_self]
      show _ + 1 < _
      change _ < _ at hi
      omega
    | evict hp | evictFault hp =>
      rw [hp] at hi
      rw [State.goto_phase, Function.update_self]
      exact hi
    | reread hp =>
      rw [hp] at hi
      simpa using Protocol.tries_attempt hi
    | stage => simpa using Protocol.tries_attempt hpos
    | startFault _ hp => rcases hp with rfl | rfl <;> simp [Phase.Tries]
    | _ => simp [Phase.Tries]
  · rw [hs.phase_of_ne hj]
    exact h j

/-- Every step of a writer lowers its rank. -/
theorem Step.rank_lt (hpos : 0 < P.attempts) (h : (s.phase i).Tries P.attempts)
    (hs : Step P s i served s') :
    (s'.phase i).rank P.attempts < (s.phase i).rank P.attempts := by
  cases hs with
  | stage hp =>
    rw [hp, State.goto_phase, Function.update_self]
    exact Protocol.rank_attempt_lt hpos
  | reread hp =>
    rw [hp] at h ⊢
    rw [State.goto_phase, Function.update_self]
    exact Protocol.rank_attempt_lt h
  | startFault hp hp' =>
    rw [hp]
    rcases hp' with rfl | rfl <;> simp [Phase.rank]
  | create hp | occupied hp | missing hp | own hp | listed hp | fresh hp | evict hp | publish hp
  | retry hp | giveUp hp | readFault hp | stageFault hp | rereadFault hp | evictFault hp
  | publishFault hp =>
    rw [hp] at h ⊢
    simp only [Phase.Tries] at h
    simp only [State.goto_phase, Function.update_self, Phase.rank]
    omega

end

/-! ## Writers that are outpaced -/

section

variable (P : Protocol ι β κ)

/-- Each attempt of a writer that failed, since its log had `n` entries, met a longer log. -/
def Outpaced (n : Nat) (s : State ι β) (i : ι) : Phase → Prop
  | .staging k => n ≤ k
  | .rereading retry _ => n + retry ≤ (s.log (P.slot i)).length
  | .evicting retry k | .publishing retry k => n + retry ≤ k
  | _ => True

variable {P} {s s' : State ι β} {i : ι} {n r k : Nat}

theorem Outpaced.attempt (h : n + r ≤ k) : Outpaced P n s i (P.attempt r k) := by
  unfold Protocol.attempt
  split <;> exact h

/-- A log that has grown more outpaces no less. -/
theorem Outpaced.frame {p : Phase} (h : Outpaced P n s i p)
    (hlog : s.log (P.slot i) <+: s'.log (P.slot i)) : Outpaced P n s' i p := by
  cases p with
  | rereading r k => exact h.trans hlog.length_le
  | _ => exact h

variable [DecidableEq ι] [DecidableEq β] {served : Bool} {j : ι}

omit [DecidableEq ι] [DecidableEq β] in
/-- A failed append has met a longer log than the attempt read. -/
theorem Inv.length_lt (hinv : Inv P s) (hp : s.phase i = .publishing r k)
    (hk : k ≠ (s.log (P.slot i)).length) : k < (s.log (P.slot i)).length := by
  obtain ⟨-, -, hle⟩ : Sound P s i (.publishing r k) := hp ▸ hinv.sound i
  omega

theorem Outpaced.step (hinv : Inv P s) (hn : n ≤ (s.log (P.slot i)).length)
    (h : Outpaced P n s i (s.phase i)) (hs : Step P s j served s') :
    Outpaced P n s' i (s'.phase i) := by
  by_cases hi : i = j
  · subst hi
    cases hs with
    | fresh => simpa [Outpaced] using hn
    | stage hp =>
      rw [hp] at h
      simpa using Outpaced.attempt (r := 0) h
    | reread hp =>
      rw [hp] at h
      simpa using Outpaced.attempt h
    | evict hp | evictFault hp =>
      rw [hp] at h
      rw [State.goto_phase, Function.update_self]
      exact h
    | retry hp hk =>
      have hlt := hinv.length_lt hp hk
      rw [hp] at h
      change n + _ ≤ _ at h
      simp only [State.goto_phase, Function.update_self]
      show n + (_ + 1) ≤ (s.log (P.slot i)).length
      omega
    | startFault _ hp => rcases hp with rfl | rfl <;> simp [Outpaced]
    | _ => simp [Outpaced]
  · rw [hs.phase_of_ne hi]
    exact h.frame (hs.log_prefix _)

omit [DecidableEq ι] [DecidableEq β] in
/-- A writer that gives up was outpaced in all its attempts. -/
theorem Outpaced.length_le (hinv : Inv P s) (hpos : 0 < P.attempts)
    (h : Outpaced P n s i (s.phase i)) (hp : s.phase i = .publishing r k)
    (hk : k ≠ (s.log (P.slot i)).length) (hr : r = P.attempts - 1) :
    n + P.attempts ≤ (s.log (P.slot i)).length := by
  have hlt := hinv.length_lt hp hk
  rw [hp] at h
  change n + r ≤ k at h
  omega

/-! ## Writers that meet no fault -/

variable (P) in
/-- What holds of a writer, started when its log had `n` entries, whose steps were all performed by
the service. -/
def Unhindered (n : Nat) (s : State ι β) (i : ι) : Phase → Prop
  | .reading => ∃ c, s.creator (P.slot i) = some c
  | .done .rejected => False
  | .done .abandoned => n + P.attempts ≤ (s.log (P.slot i)).length
  | _ => True

theorem Unhindered.step (hinv : Inv P s) (hpos : 0 < P.attempts)
    (ho : Outpaced P n s i (s.phase i)) (h : Unhindered P n s i (s.phase i))
    (hs : Step P s j served s') (hserved : j = i → served = true) :
    Unhindered P n s' i (s'.phase i) := by
  by_cases hi : j = i
  · subst hi
    obtain rfl := hserved rfl
    cases hs with
    | occupied hp hc => simpa [Unhindered] using ⟨_, hc⟩
    | missing hp hc =>
      rw [hp] at h
      obtain ⟨c, hc'⟩ := h
      cases hc.symm.trans hc'
    | giveUp hp hk hr => simpa [Unhindered] using ho.length_le hinv hpos hp hk hr
    | stage | reread =>
      rw [State.goto_phase, Function.update_self]
      unfold Protocol.attempt
      split <;> trivial
    | _ => simp [Unhindered]
  · rw [hs.phase_of_ne (Ne.symm hi)]
    generalize s.phase i = p at h
    cases p with
    | reading =>
      obtain ⟨c, hc⟩ := h
      exact ⟨c, hs.creator_mono hc⟩
    | done o =>
      cases o with
      | abandoned => exact h.trans (hs.log_prefix _).length_le
      | _ => exact h
    | _ => trivial

end

end Journal
