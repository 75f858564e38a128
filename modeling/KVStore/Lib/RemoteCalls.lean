import KVStore.Lib.Ranking
import Mathlib.Logic.Function.Basic

/-!
# Calls over a connection that can break

Parties make calls whose steps act on a shared state; a `Service` says how these calls run. `Step`
lets each party make its call as the client of a service: the request travels, the service starts
the call or refuses the request, and the answer is what the call has returned. The connection may
break at any time. The client then sees a failure, while its request may still arrive and its call
go on.

The rules: `works_run` (the shared state sees a run of the calls), `Sound` (a call takes no step
before the service has started it, and an answer is what the call has returned), `works_of_answered`
(a call that was answered takes no further step, so that the calls invoked later come after it),
`length_le` and `exists_answers` (runs of calls that end are short, and clients that wait can be
answered), `replay_runs` (a schedule is a run).
-/

namespace RemoteCalls

open Transition

universe u v w x y

/-- How the calls of parties run on a shared state. -/
structure Service (σ : Type u) (ε : Type v) (ι : Type w) (α : Type x) where
  step : σ → ε → σ → Prop
  party : ε → ι
  /-- What a call has returned. -/
  ended : σ → ι → Option α
  /-- The client makes its call over the connection. -/
  Sends : ι → Prop
  /-- The request starts the call. -/
  Admits : ι → Prop
  /-- The request is refused with an answer. -/
  Refuses : ι → α → Prop
  ended_step : ∀ {s e s' i a}, step s e s' → ended s i = some a → ended s' i = some a
  ended_party : ∀ {s e s'}, step s e s' → ended s (party e) = none

/-- What a client knows of its call. -/
inductive Client (α : Type x)
  | idle
  | waiting
  | answered (answer : α)
  /-- The connection broke. -/
  | failed
deriving DecidableEq

/-- Where the request of a call is. -/
inductive Request (α : Type x)
  | absent
  | inFlight
  | started
  | refused (answer : α)
deriving DecidableEq

structure State (σ : Type u) (ι : Type w) (α : Type x) where
  inner : σ
  client : ι → Client α
  request : ι → Request α

inductive Event (ε : Type v) (ι : Type w) (α : Type x)
  | invoke (i : ι)
  | start (i : ι)
  | refuse (i : ι) (answer : α)
  | work (e : ε)
  | answer (i : ι) (answer : α)
  | fail (i : ι)

section

variable {σ : Type u} {ε : Type v} {ι : Type w} {α : Type x}

def State.initial (s₀ : σ) : State σ ι α where
  inner := s₀
  client _ := .idle
  request _ := .absent

/-- The steps of the calls among the steps of a run. -/
def works (tr : List (State σ ι α × Event ε ι α)) : List (σ × ε) :=
  tr.filterMap fun p =>
    match p.2 with
    | .work e => some (p.1.inner, e)
    | _ => none

theorem works_append (tr tr' : List (State σ ι α × Event ε ι α)) :
    works (tr ++ tr') = works tr ++ works tr' :=
  List.filterMap_append

section

variable [DecidableEq ι] (s : State σ ι α) (i : ι) (c : Client α) (r : Request α)

def State.setClient : State σ ι α := { s with client := Function.update s.client i c }

def State.setRequest : State σ ι α := { s with request := Function.update s.request i r }

@[simp] theorem State.setClient_inner : (s.setClient i c).inner = s.inner := rfl

@[simp] theorem State.setClient_request : (s.setClient i c).request = s.request := rfl

@[simp] theorem State.setRequest_inner : (s.setRequest i r).inner = s.inner := rfl

@[simp] theorem State.setRequest_client : (s.setRequest i r).client = s.client := rfl

@[simp] theorem State.setClient_self : (s.setClient i c).client i = c := Function.update_self ..

@[simp] theorem State.setRequest_self : (s.setRequest i r).request i = r := Function.update_self ..

variable {s i c r} {k : ι}

@[simp] theorem State.setClient_of_ne (h : k ≠ i) : (s.setClient i c).client k = s.client k :=
  Function.update_of_ne h ..

@[simp] theorem State.setRequest_of_ne (h : k ≠ i) :
    (s.setRequest i r).request k = s.request k :=
  Function.update_of_ne h ..

end

def Client.isAnswered : Client α → Bool
  | .answered _ => true
  | _ => false

def Client.rank : Client α → Nat
  | .idle => 2
  | .waiting => 1
  | _ => 0

def Request.rank : Request α → Nat
  | .absent | .inFlight => 1
  | _ => 0

/-- The rank of a call together with its client, where `rank` is that of the call on its own. -/
def State.rank (rank : ι → σ → Nat) (i : ι) (s : State σ ι α) : Nat :=
  rank i s.inner + (s.client i).rank + (s.request i).rank

variable (S : Service σ ε ι α)

def Event.party : Event ε ι α → ι
  | .invoke i | .start i | .refuse i _ | .answer i _ | .fail i => i
  | .work e => S.party e

/-- The service goes on, starts the calls that it can start, and answers; nobody makes a call, and
the connection holds. -/
def Event.IsServed : Event ε ι α → Prop
  | .invoke _ | .fail _ => False
  | .refuse i _ => ¬ S.Admits i
  | _ => True

/-- What the service answers to a call, once it does. -/
def State.reply (s : State σ ι α) (i : ι) : Option α :=
  match s.request i with
  | .started => S.ended s.inner i
  | .refused a => some a
  | _ => none

variable [DecidableEq ι]

inductive Step : State σ ι α → Event ε ι α → State σ ι α → Prop
  | invoke {s : State σ ι α} {i : ι} (hi : S.Sends i) (h : s.client i = .idle) :
      Step s (.invoke i) ((s.setClient i .waiting).setRequest i .inFlight)
  | start {s : State σ ι α} {i : ι} (h : s.request i = .inFlight) (ha : S.Admits i) :
      Step s (.start i) (s.setRequest i .started)
  | refuse {s : State σ ι α} {i : ι} {a : α} (h : s.request i = .inFlight) (ha : S.Refuses i a) :
      Step s (.refuse i a) (s.setRequest i (.refused a))
  | work {s : State σ ι α} {e : ε} {t : σ} (h : s.request (S.party e) = .started)
      (hs : S.step s.inner e t) : Step s (.work e) { s with inner := t }
  | answer {s : State σ ι α} {i : ι} {a : α} (h : s.client i = .waiting)
      (ha : s.reply S i = some a) : Step s (.answer i a) (s.setClient i (.answered a))
  | fail {s : State σ ι α} {i : ι} (h : s.client i = .waiting) :
      Step s (.fail i) (s.setClient i .failed)

abbrev Runs (s₀ : σ) : List (State σ ι α × Event ε ι α) → State σ ι α → Prop :=
  Run (Step S) (State.initial s₀)

variable {S} {s s' : State σ ι α} {e : Event ε ι α} {tr tr' : List (State σ ι α × Event ε ι α)}
  {s₀ : σ} {i k : ι} {a : α}

/-! ## What a step leaves -/

theorem Step.client_of_ne (hs : Step S s e s') (hi : i ≠ e.party S) :
    s'.client i = s.client i := by
  cases hs with
  | invoke | answer | fail => exact State.setClient_of_ne hi
  | start | refuse | work => rfl

theorem Step.request_of_ne (hs : Step S s e s') (hi : i ≠ e.party S) :
    s'.request i = s.request i := by
  cases hs with
  | invoke | start | refuse => exact State.setRequest_of_ne hi
  | answer | fail | work => rfl

/-- The shared state sees a run of the calls. -/
theorem works_run (h : Run (Step S) s tr s') : Run S.step s.inner (works tr) s'.inner := by
  induction h with
  | nil => exact .nil
  | @snoc tr t t' e h hs ih =>
    rw [works_append]
    cases hs with
    | work _ hwork => exact ih.snoc hwork
    | _ => simpa [works] using ih

/-! ## Answers -/

/-- What is known of the call of a party in a run. -/
structure Sound (S : Service σ ε ι α) (tr : List (State σ ι α × Event ε ι α)) (s : State σ ι α)
    (i : ι) : Prop where
  idle_iff : s.client i = .idle ↔ s.request i = .absent
  unstarted : s.request i ≠ .started → ∀ p ∈ works tr, S.party p.2 ≠ i
  refused : ∀ {a}, s.request i = .refused a → S.Refuses i a
  answered : ∀ {a}, s.client i = .answered a → s.reply S i = some a

omit [DecidableEq ι] in
theorem State.reply_congr (hrequest : s'.request i = s.request i) (hinner : s'.inner = s.inner) :
    s'.reply S i = s.reply S i := by
  rw [State.reply, State.reply, hrequest, hinner]

/-- What the service has answered stays the answer. -/
theorem Step.reply (hs : Step S s e s') (hidle : s.client i = .idle → s.request i = .absent)
    (ha : s.reply S i = some a) : s'.reply S i = some a := by
  have hne : ∀ {k}, s.request k = .absent ∨ s.request k = .inFlight → i ≠ k := by
    rintro k hk rfl
    unfold State.reply at ha
    rcases hk with hk | hk <;> rw [hk] at ha <;> cases ha
  rw [← ha]
  cases hs with
  | @invoke k _ hc =>
    by_cases hi : i = k
    · subst hi
      exact absurd rfl (hne (Or.inl (hidle hc)))
    · exact State.reply_congr (State.setRequest_of_ne hi) rfl
  | start hr | refuse hr =>
    exact State.reply_congr (State.setRequest_of_ne (hne (Or.inr hr))) rfl
  | work hr hwork =>
    unfold State.reply at ha ⊢
    cases hi : s.request i with
    | started =>
      rw [hi] at ha
      simp only [ha]
      exact S.ended_step hwork ha
    | _ => rfl
  | answer | fail => exact State.reply_congr rfl rfl

theorem Sound.step (h : Sound S tr s i) (hs : Step S s e s') :
    Sound S (tr ++ [(s, e)]) s' i := by
  have hkeeps : ∀ {a}, s.client i = .answered a → s'.reply S i = some a :=
    fun ha => hs.reply h.idle_iff.mp (h.answered ha)
  have hunstarted : s.request i ≠ .started → (∀ p ∈ works [(s, e)], S.party p.2 ≠ i) →
      ∀ p ∈ works (tr ++ [(s, e)]), S.party p.2 ≠ i := by
    intro hne hlast p hp
    rw [works_append] at hp
    exact (List.mem_append.mp hp).elim (h.unstarted hne p) (hlast p)
  by_cases hi : i = e.party S
  · cases hs with
    | invoke _ hc =>
      obtain rfl : i = _ := hi
      refine ⟨by simp, fun _ => ?_, fun hr => ?_, fun hc' => ?_⟩
      · exact hunstarted (by simp [h.idle_iff.mp hc]) fun p hp => by cases hp
      · simp at hr
      · simp at hc'
    | start hr =>
      obtain rfl : i = _ := hi
      refine ⟨by simp [h.idle_iff, hr], fun hne => absurd (State.setRequest_self ..) hne,
        fun hr' => ?_, hkeeps⟩
      simp at hr'
    | refuse hr ha =>
      obtain rfl : i = _ := hi
      refine ⟨by simp [h.idle_iff, hr], fun _ => ?_, fun hr' => ?_, hkeeps⟩
      · exact hunstarted (by simp [hr]) fun p hp => by cases hp
      · obtain rfl := Request.refused.inj ((State.setRequest_self ..).symm.trans hr')
        exact ha
    | work hr =>
      obtain rfl : i = _ := hi
      exact ⟨h.idle_iff, fun hne => absurd hr hne, h.refused, hkeeps⟩
    | answer hc ha =>
      obtain rfl : i = _ := hi
      refine ⟨by simp [← h.idle_iff, hc], fun hne => hunstarted hne (fun p hp => by cases hp),
        h.refused, fun hc' => ?_⟩
      obtain rfl := Client.answered.inj ((State.setClient_self ..).symm.trans hc')
      exact ha
    | fail hc =>
      obtain rfl : i = _ := hi
      refine ⟨by simp [← h.idle_iff, hc], fun hne => hunstarted hne (fun p hp => by cases hp),
        h.refused, fun hc' => ?_⟩
      simp at hc'
  · refine ⟨?_, fun hne => ?_, fun hr => h.refused (hs.request_of_ne hi ▸ hr),
      fun hc => hkeeps (hs.client_of_ne hi ▸ hc)⟩
    · rw [hs.client_of_ne hi, hs.request_of_ne hi]
      exact h.idle_iff
    · refine hunstarted (hs.request_of_ne hi ▸ hne) fun p hp => ?_
      cases hs with
      | work =>
        obtain rfl : p = _ := List.mem_singleton.mp hp
        exact fun heq => hi heq.symm
      | _ => cases hp

theorem Runs.sound (h : Runs S s₀ tr s) (i : ι) : Sound S tr s i := by
  induction h with
  | nil =>
    refine ⟨by simp [State.initial], fun _ _ hp => ?_, fun hr => ?_, fun hc => ?_⟩
    · cases hp
    · cases hr
    · cases hc
  | snoc _ hs ih => exact ih.step hs

theorem Step.client_answered (hs : Step S s e s') (hi : s.client i = .answered a) :
    s'.client i = .answered a := by
  by_cases hp : i = e.party S
  · cases hs with
    | start | refuse | work => exact hi
    | invoke _ h | answer h | fail h =>
      obtain rfl : i = _ := hp
      cases h.symm.trans hi
  · rwa [hs.client_of_ne hp]

/-- A call that was answered takes no further step. -/
theorem works_of_answered (h : Runs S s₀ tr s) (hi : s.client i = .answered a)
    (h' : Run (Step S) s tr' s') : ∀ p ∈ works tr', S.party p.2 ≠ i := by
  suffices hboth : s'.client i = .answered a ∧ ∀ p ∈ works tr', S.party p.2 ≠ i from hboth.2
  induction h' with
  | nil => exact ⟨hi, fun p hp => by cases hp⟩
  | @snoc tr' t t' e h' hs ih =>
    obtain ⟨ht, hnone⟩ := ih
    refine ⟨hs.client_answered ht, fun p hp => ?_⟩
    rw [works_append] at hp
    rcases List.mem_append.mp hp with hp | hp
    · exact hnone p hp
    · cases hs with
      | work hstarted hwork =>
        obtain rfl : p = _ := List.mem_singleton.mp hp
        rintro rfl
        have hended := (Runs.sound (h.trans h') _).answered ht
        rw [State.reply, hstarted] at hended
        cases hended.symm.trans (S.ended_party hwork)
      | _ => cases hp

def Event.invokes (k : ι) : Event ε ι α → Bool
  | .invoke i => i = k
  | _ => false

/-- When call `k` was invoked, call `i` had been answered. -/
def AnsweredBefore (tr : List (State σ ι α × Event ε ι α)) (i k : ι) : Prop :=
  ∃ p ∈ tr, p.2.invokes k = true ∧ (p.1.client i).isAnswered = true

/-- Then all steps of call `i` come before those of call `k`. -/
theorem works_of_answeredBefore (h : Runs S s₀ tr s) (hik : AnsweredBefore tr i k) :
    ∃ l l', works tr = l ++ l' ∧ (∀ p ∈ l, S.party p.2 ≠ k) ∧ ∀ p ∈ l', S.party p.2 ≠ i := by
  obtain ⟨⟨t, e⟩, hp, hinvokes, hanswered⟩ := hik
  obtain ⟨t', hs⟩ := h.step_of_mem hp
  have hk : t.client k = .idle := by
    cases hs with
    | invoke _ hidle =>
      obtain rfl := of_decide_eq_true hinvokes
      exact hidle
    | _ => cases hinvokes
  obtain ⟨a, hi⟩ : ∃ a, t.client i = .answered a := by
    cases hi : t.client i with
    | answered a => exact ⟨a, rfl⟩
    | _ =>
      rw [hi] at hanswered
      cases hanswered
  obtain ⟨tr₁, tr₂, rfl, h₁, h₂⟩ := h.split_of_mem hp
  refine ⟨works tr₁, _, works_append .., (Runs.sound h₁ k).unstarted ?_, works_of_answered h₁ hi h₂⟩
  rw [(Runs.sound h₁ k).idle_iff.mp hk]
  exact fun hr => by cases hr

/-! ## Calls that end -/

/-- What a served step leaves of a client. -/
theorem Step.client_served (hs : Step S s e s') (he : e.IsServed S) (i : ι) :
    s'.client i = s.client i ∨ s.client i = .waiting ∧ ∃ a, s'.client i = .answered a := by
  by_cases hi : i = e.party S
  · cases hs with
    | invoke | fail => exact he.elim
    | start | refuse | work => exact Or.inl rfl
    | answer hc ha =>
      obtain rfl : i = _ := hi
      exact Or.inr ⟨hc, _, State.setClient_self ..⟩
  · exact Or.inl (hs.client_of_ne hi)

theorem client_of_served (h : Run (fun s e s' => Step S s e s' ∧ e.IsServed S) s tr s') (i : ι) :
    s'.client i = s.client i ∨ s.client i = .waiting ∧ ∃ a, s'.client i = .answered a := by
  induction h with
  | nil => exact Or.inl rfl
  | snoc _ hs ih =>
    rcases ih with ih | ⟨hi, a, ha⟩
    · rw [← ih]
      exact hs.1.client_served hs.2 i
    · exact Or.inr ⟨hi, a, hs.1.client_answered ha⟩

section

variable (rank : ι → σ → Nat)
  (hown : ∀ {tr s e s'}, Run S.step s₀ tr s → S.step s e s' →
    rank (S.party e) s' < rank (S.party e) s)
  (hother : ∀ {s e s' i}, S.step s e s' → i ≠ S.party e → rank i s' ≤ rank i s)
include hown hother

theorem Step.rank_lt (h : Runs S s₀ tr s) (hs : Step S s e s') :
    s'.rank rank (e.party S) < s.rank rank (e.party S) ∧
      ∀ i ≠ e.party S, s'.rank rank i ≤ s.rank rank i := by
  have hothers : s'.inner = s.inner → ∀ i ≠ e.party S, s'.rank rank i ≤ s.rank rank i := by
    intro hinner i hi
    rw [State.rank, State.rank, hs.client_of_ne hi, hs.request_of_ne hi, hinner]
  cases hs with
  | invoke _ hc =>
    refine ⟨?_, hothers rfl⟩
    simp [State.rank, Event.party, hc, (Runs.sound h _).idle_iff.mp hc, Client.rank, Request.rank]
  | start hr | refuse hr =>
    refine ⟨?_, hothers rfl⟩
    simp [State.rank, Event.party, hr, Request.rank]
  | answer hc | fail hc =>
    refine ⟨?_, hothers rfl⟩
    simp [State.rank, Event.party, hc, Client.rank]
  | work hr hwork =>
    refine ⟨?_, fun i hi => ?_⟩
    · exact Nat.add_lt_add_right (Nat.add_lt_add_right (hown (works_run h) hwork) _) _
    · exact Nat.add_le_add_right (Nat.add_le_add_right (hother hwork hi) _) _

variable [Fintype ι]

theorem Step.sum_rank_lt (h : Runs S s₀ tr s) (hs : Step S s e s') :
    ∑ i, s'.rank rank i < ∑ i, s.rank rank i := by
  obtain ⟨hlt, hle⟩ := hs.rank_lt rank hown hother h
  exact Transition.sum_rank_lt (State.rank rank) hlt hle

/-- A run is no longer than what its parties can do. -/
theorem length_le (h : Runs S s₀ tr s) : tr.length ≤ ∑ i, (rank i s₀ + 3) := by
  have hlen := Run.length_add_le (fun s : State σ ι α => ∑ i, s.rank rank i)
    (fun h hs => Step.sum_rank_lt rank hown hother h hs) h
  exact (Nat.le_add_right _ _).trans hlen

/-- If calls can always go on until they end, and each request is started or refused, then the
service can go on until nobody waits any more. -/
theorem exists_answers (h : Runs S s₀ tr s)
    (hgoes : ∀ {tr s i}, Run S.step s₀ tr s → S.ended s i = none →
      ∃ e s', S.step s e s' ∧ S.party e = i)
    (hdecides : ∀ i, S.Admits i ∨ ∃ a, S.Refuses i a) :
    ∃ tr' s', Run (fun s e s' => Step S s e s' ∧ e.IsServed S) s tr' s' ∧
      ∀ i, s.client i = .waiting → ∃ a, s'.client i = .answered a := by
  have hserved : ∀ {tr' s'}, Run (fun s e s' => Step S s e s' ∧ e.IsServed S) s tr' s' →
      Run (Step S) s tr' s' := fun hrun => hrun.mono fun hs => hs.1
  obtain ⟨tr', s', hrun, hstuck⟩ := Run.exists_stuck (fun s : State σ ι α => ∑ i, s.rank rank i)
    (fun h' hs => Step.sum_rank_lt rank hown hother (h.trans (hserved h')) hs.1) Run.nil
  refine ⟨tr', s', hrun, fun i hi => ?_⟩
  rcases client_of_served hrun i with hi' | ⟨-, hanswered⟩
  · rw [hi] at hi'
    have hno : s'.reply S i = none := by
      cases hreply : s'.reply S i with
      | none => rfl
      | some a => exact absurd ⟨.answer hi' hreply, trivial⟩ (hstuck _ _)
    cases hr : s'.request i with
    | absent =>
      have hidle := (Runs.sound (h.trans (hserved hrun)) i).idle_iff.mpr hr
      cases hi'.symm.trans hidle
    | inFlight =>
      by_cases hadmits : S.Admits i
      · exact absurd ⟨.start hr hadmits, trivial⟩ (hstuck _ _)
      · obtain ⟨a, ha⟩ := (hdecides i).resolve_left hadmits
        exact absurd ⟨.refuse hr ha, hadmits⟩ (hstuck _ _)
    | started =>
      rw [State.reply, hr] at hno
      obtain ⟨e, t, hwork, rfl⟩ := hgoes (works_run (h.trans (hserved hrun))) hno
      exact absurd ⟨.work hr hwork, trivial⟩ (hstuck _ _)
    | refused a =>
      rw [State.reply, hr] at hno
      cases hno
  · exact hanswered

end

/-! ## Schedules -/

/-- A letter of a schedule; `β` says how a call is to go on. -/
inductive Action (ι : Type w) (α : Type x) (β : Type y)
  | invoke (i : ι)
  | start (i : ι)
  | refuse (i : ι) (answer : α)
  | work (b : β)
  | answer (i : ι)
  | fail (i : ι)

section

variable {β : Type y} (S : Service σ ε ι α) [DecidablePred S.Sends] [DecidablePred S.Admits]
  [∀ i a, Decidable (S.Refuses i a)] (work : σ → β → Option (ε × σ))

def State.next (s : State σ ι α) : Action ι α β → Option (Event ε ι α × State σ ι α)
  | .invoke i =>
    match s.client i with
    | .idle =>
      if S.Sends i then some (.invoke i, (s.setClient i .waiting).setRequest i .inFlight) else none
    | _ => none
  | .start i =>
    match s.request i with
    | .inFlight => if S.Admits i then some (.start i, s.setRequest i .started) else none
    | _ => none
  | .refuse i a =>
    match s.request i with
    | .inFlight => if S.Refuses i a then some (.refuse i a, s.setRequest i (.refused a)) else none
    | _ => none
  | .work b =>
    match work s.inner b with
    | none => none
    | some (e, t) =>
      match s.request (S.party e) with
      | .started => some (.work e, { s with inner := t })
      | _ => none
  | .answer i =>
    match s.client i with
    | .waiting => (s.reply S i).map fun a => (.answer i a, s.setClient i (.answered a))
    | _ => none
  | .fail i =>
    match s.client i with
    | .waiting => some (.fail i, s.setClient i .failed)
    | _ => none

variable {S work}

theorem State.next_step (hwork : ∀ {s b e t}, work s b = some (e, t) → S.step s e t)
    {b : Action ι α β} (h : s.next S work b = some (e, s')) : Step S s e s' := by
  cases b with
  | invoke i =>
    simp only [State.next] at h
    split at h
    · next hc =>
      split at h
      · next hi =>
        cases h
        exact .invoke hi hc
      · cases h
    · cases h
  | start i =>
    simp only [State.next] at h
    split at h
    · next hr =>
      split at h
      · next ha =>
        cases h
        exact .start hr ha
      · cases h
    · cases h
  | refuse i a =>
    simp only [State.next] at h
    split at h
    · next hr =>
      split at h
      · next ha =>
        cases h
        exact .refuse hr ha
      · cases h
    · cases h
  | work b =>
    simp only [State.next] at h
    split at h
    · cases h
    · next hw =>
      split at h
      · next hr =>
        cases h
        exact .work hr (hwork hw)
      · cases h
  | answer i =>
    simp only [State.next] at h
    split at h
    · next hc =>
      obtain ⟨a, ha, he⟩ := Option.map_eq_some_iff.mp h
      cases he
      exact .answer hc ha
    · cases h
  | fail i =>
    simp only [State.next] at h
    split at h
    · next hc =>
      cases h
      exact .fail hc
    · cases h

/-- Every schedule is a run. -/
theorem replay_runs (hwork : ∀ {s b e t}, work s b = some (e, t) → S.step s e t)
    (schedule : List (Action ι α β)) (s : State σ ι α) :
    Run (Step S) s (replay (State.next S work) schedule s).1
      (replay (State.next S work) schedule s).2 :=
  replay_run fun _ _ {_ _ _} h => State.next_step hwork h

end

end

end RemoteCalls
