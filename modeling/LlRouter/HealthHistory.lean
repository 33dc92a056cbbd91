import LlRouter.TransitionCalls

/-!
# Healthy since the last start

The health of a service is asked for only by the call that starts it. A later
call that finds the unit active lets its request through unasked. So a service
is known to have answered since its last start as long as no start of it ends
with the unit up, or able to come up, and its health unknown.
-/

set_option autoImplicit false

namespace LlRouter.HealthHistory
open ControlExit LabelledRun
open LlRouter.BackendConfig LlRouter.SystemdUnits LlRouter.EnsureActive
open LlRouter.TransitionMachine LlRouter.TransitionCalls

def sinceStart (service : String) (log : List Entry) : List Entry :=
  log.takeWhile (fun e => e ≠ .starting service)

def AnsweredSince (service url : String) (log : List Entry) : Prop :=
  ∃ status < 400, .healthy url status ∈ sinceStart service log

/-- The service was started and has not been seen healthy since. -/
def Unconfirmed (service url : String) (log : List Entry) : Prop :=
  .starting service ∈ log ∧ ¬ AnsweredSince service url log

def ReturnsHealthy (c : Config) (b : Backend) (s : State) (e : Event) : Prop :=
  ∀ s' (i : ℕ), step c s e = some s' → s'.calls[i]? = some ⟨b, .ended (.returned ())⟩ →
    s.calls[i]? ≠ some ⟨b, .ended (.returned ())⟩ → .starting b.unit ∈ s'.log →
    AnsweredSince b.unit (b.healthUrl.getD "") s'.log

def concludes (url : String) (t : Backend) (now : ℚ) : Pc → Event → Bool
  | .starting, .commanded p after left =>
    p.succeeds && t.healthUrl.getD "" = url || after = .inactive && !left
  | .sleeping deadline _ _, .woke => now < deadline
  | .probing _, .interrupted => false
  | .sleeping _ _ _, .interrupted => false
  | _, _ => true

/-- A start of the service succeeds for a call that asks the URL, or leaves the
unit inactive and no job behind. A health wait for it is neither interrupted
nor out of time. -/
def StartsConclude (service url : String) (s : State) (e : Event) : Prop :=
  ∀ h ∈ s.holder, h.target.unit = service → concludes url h.target s.now h.pc e = true

instance (service url : String) (s : State) (e : Event) :
    Decidable (StartsConclude service url s e) :=
  inferInstanceAs (Decidable (∀ h ∈ s.holder, _))

section Log
variable (service url : String) (log : List Entry)

theorem unconfirmed_stopping (x : String) :
    Unconfirmed service url (.stopping x::log) ↔ Unconfirmed service url log := by
  simp [Unconfirmed, AnsweredSince, sinceStart]

theorem unconfirmed_starting (x : String) (hx : x ≠ service) :
    Unconfirmed service url (.starting x::log) ↔ Unconfirmed service url log := by
  simp [Unconfirmed, AnsweredSince, sinceStart, hx, Ne.symm hx]

theorem unconfirmed_healthy (v : String) (status : ℕ)
    (h : Unconfirmed service url (.healthy v status::log)) : Unconfirmed service url log := by
  refine ⟨by simpa using h.1, fun ⟨st, hst, hm⟩ => h.2 ⟨st, hst, ?_⟩⟩
  simpa [sinceStart] using Or.inr hm

theorem confirmed_healthy (status : ℕ) (hs : status < 400) :
    ¬ Unconfirmed service url (.healthy url status::log) :=
  fun h => h.2 ⟨status, hs, by simp [sinceStart]⟩

theorem unconfirmed_issued (t : Backend) (pc : Pc) (hp : pc = .starting → t.unit ≠ service) :
    Unconfirmed service url (issued t pc++log) ↔ Unconfirmed service url log := by
  cases pc with
  | stopping targetActive peer rest => exact unconfirmed_stopping service url log peer.unit
  | starting => exact unconfirmed_starting service url log t.unit (hp rfl)
  | _ => rfl

theorem unconfirmed_recordProbe (s : State) (h : Holder) (x : Probe)
    (hu : Unconfirmed service url (recordProbe s h x).log) : Unconfirmed service url s.log := by
  cases x with
  | answered status =>
    simp only [recordProbe] at hu
    split at hu
    · exact unconfirmed_healthy service url s.log _ status hu
    · exact hu
  | failed cls => exact hu

end Log

def DownUnlessConfirmed (service url : String) (s : State) : Prop :=
  Unconfirmed service url s.log → s.units service = .inactive

def Knows (service url : String) (s : State) (t : Backend) : Pc → Prop
  | .checkingTarget => DownUnlessConfirmed service url s
  | .checkingPeer targetActive _ _ _ =>
    DownUnlessConfirmed service url s ∧ (targetActive = true → ¬ Unconfirmed service url s.log)
  | .stopping targetActive _ _ =>
    DownUnlessConfirmed service url s ∧ (targetActive = true → ¬ Unconfirmed service url s.log)
  | .starting => True
  | .probing _ => t.healthUrl.getD "" = url
  | .sleeping _ _ _ => t.healthUrl.getD "" = url

structure AwaitOk (service url : String) (s : State) (t : Backend) (pc : Pc) : Prop where
  other : t.unit ≠ service → DownUnlessConfirmed service url s
  own : t.unit = service → Knows service url s t pc

def NextOk (service url : String) (s : State) (t : Backend) : Next → Prop
  | .await pc => AwaitOk service url s t pc
  | .done out => DownUnlessConfirmed service url s ∧
      (t.unit = service → out = .returned () → ¬ Unconfirmed service url s.log)

structure Confirming (service url : String) (s : State) : Prop where
  owner : Owned s
  noStart : ⟨.start, service⟩ ∉ s.leftJobs
  free : s.holder = none → DownUnlessConfirmed service url s
  held : ∀ h, s.holder = some h → AwaitOk service url s h.target h.pc

section Next
variable (c : Config) (service url : String) (s : State) (t : Backend)

theorem knows_mono (s' : State) (pc : Pc)
    (hl : Unconfirmed service url s'.log → Unconfirmed service url s.log)
    (hd : DownUnlessConfirmed service url s → DownUnlessConfirmed service url s')
    (hk : Knows service url s t pc) : Knows service url s' t pc := by
  cases pc with
  | checkingTarget => exact hd hk
  | checkingPeer targetActive peer rest active =>
    exact ⟨hd hk.1, fun hf hu => hk.2 hf (hl hu)⟩
  | stopping targetActive peer rest => exact ⟨hd hk.1, fun hf hu => hk.2 hf (hl hu)⟩
  | starting => trivial
  | probing deadline => exact hk
  | sleeping deadline wake lastError => exact hk

theorem next_stopNext (targetActive : Bool) (rest : List Backend)
    (hd : DownUnlessConfirmed service url s)
    (hf : t.unit = service → targetActive = true → ¬ Unconfirmed service url s.log) :
    NextOk service url s t (stopNext targetActive rest) := by
  cases rest with
  | cons peer rest => exact ⟨fun _ => hd, fun ht => ⟨hd, hf ht⟩⟩
  | nil =>
    cases targetActive with
    | true => exact ⟨hd, fun ht _ => hf ht rfl⟩
    | false => exact ⟨fun _ => hd, fun _ => trivial⟩

theorem next_checkNext (targetActive : Bool) (active rest : List Backend)
    (hd : DownUnlessConfirmed service url s)
    (hf : t.unit = service → targetActive = true → ¬ Unconfirmed service url s.log) :
    NextOk service url s t (checkNext targetActive active rest) := by
  cases rest with
  | cons peer rest => exact ⟨fun _ => hd, fun ht => ⟨hd, hf ht⟩⟩
  | nil =>
    rw [checkNext_nil]
    exact next_stopNext service url s t targetActive active hd hf

theorem next_pollNext (v : String) (now deadline : ℚ) (lastError : String)
    (hd : t.unit ≠ service → DownUnlessConfirmed service url s)
    (hn : t.unit = service → now < deadline)
    (hurl : t.unit = service → t.healthUrl.getD "" = url) :
    NextOk service url s t (pollNext v now deadline lastError) := by
  unfold pollNext
  by_cases ht : t.unit = service
  · rw [if_pos (hn ht)]
    exact ⟨hd, hurl⟩
  · split
    · exact ⟨hd, hurl⟩
    · exact ⟨hd ht, fun h => absurd h ht⟩

/-- Up to its start a call knows the service down unless confirmed. -/
theorem down_of_await (pc : Pc) (hk : Knows service url s t pc → DownUnlessConfirmed service url s)
    (ha : AwaitOk service url s t pc) : DownUnlessConfirmed service url s := by
  by_cases ht : t.unit = service
  · exact hk (ha.own ht)
  · exact ha.other ht

theorem down_of_checks (pc : Pc) (x : String) (hc : pc.checks t = some x)
    (ha : AwaitOk service url s t pc) : DownUnlessConfirmed service url s := by
  cases pc with
  | checkingTarget => exact down_of_await service url s t _ id ha
  | checkingPeer targetActive peer rest active =>
    exact down_of_await service url s t _ And.left ha
  | _ => cases hc

theorem next_checked (now : ℚ) (pc : Pc) (x : String) (p : Process) (n : Next)
    (ha : AwaitOk service url s t pc) (hc : pc.checks t = some x)
    (he : checkEnds p (s.units x)) (hn : resume c t now pc (.process p) = some n) :
    NextOk service url s t n := by
  have hd := down_of_checks service url s t pc x hc ha
  cases checked_cases c t s.units now pc x p n hc he hn with
  | target hans =>
    apply next_checkNext service url s t _ [] _ hd
    rintro rfl hon hu
    simp [on, hd hu] at hon
  | peer targetActive peer rest active hans =>
    exact next_checkNext service url s t targetActive _ rest hd (fun ht => (ha.own ht).2)
  | failed pc x out hans ho => exact ⟨hd, fun _ hret => absurd hret ho⟩

theorem next_startNext (now : ℚ) (hne : url ≠ "")
    (hurl : t.unit = service → t.healthUrl.getD "" = url)
    (hd : t.unit ≠ service → DownUnlessConfirmed service url s) :
    NextOk service url s t (startNext t now) := by
  unfold startNext
  split
  · next he =>
    have ht : t.unit ≠ service := fun h => hne ((hurl h).symm.trans he)
    exact ⟨hd ht, fun h => absurd h ht⟩
  · have hnow : now < now+healthTimeout := lt_add_of_pos_right now (by decide)
    exact next_pollNext service url s t _ now _ _ hd (fun _ => hnow) hurl

theorem down_commanded (j : Job) (p : Process) (after : UnitState) (left : Bool)
    (hj : j.service = service → j.verb = .stop)
    (he : commandEnds j.verb p (s.units j.service) after left)
    (hd : DownUnlessConfirmed service url s) :
    DownUnlessConfirmed service url (afterCommand s j after left) := by
  intro hu
  have hdown : s.units service = .inactive := hd hu
  show Function.update s.units j.service after service = .inactive
  by_cases hx : service = j.service
  · subst hx
    rw [hj rfl, hdown] at he
    rw [Function.update_self]
    exact commandEnds_stop_inactive p after left he
  · rw [Function.update_of_ne hx, hdown]

theorem next_commanded (now : ℚ) (pc : Pc) (j : Job) (p : Process) (after : UnitState)
    (left : Bool) (n : Next) (hne : url ≠ "") (ha : AwaitOk service url s t pc)
    (hj : pc.job t = some j) (he : commandEnds j.verb p (s.units j.service) after left)
    (hq : pc = .starting → t.unit = service →
      p.succeeds = true ∧ t.healthUrl.getD "" = url ∨ after = .inactive ∧ left = false)
    (hn : resume c t now pc (.process p) = some n) :
    NextOk service url (afterCommand s j after left) t n := by
  have hstop : ∀ (targetActive : Bool) peer rest, pc = .stopping targetActive peer rest →
      DownUnlessConfirmed service url (afterCommand s j after left) := by
    rintro targetActive peer rest rfl
    have hd := down_of_await service url s t _ And.left ha
    cases hj
    exact down_commanded service url s ⟨.stop, peer.unit⟩ p after left (fun _ => rfl) he hd
  have hother : t.unit ≠ service →
      DownUnlessConfirmed service url (afterCommand s j after left) := by
    intro ht
    apply down_commanded service url s j p after left _ he (ha.other ht)
    intro hx
    cases pc with
    | stopping targetActive peer rest =>
      cases hj
      rfl
    | starting =>
      cases hj
      exact absurd hx ht
    | _ => cases hj
  cases commanded_cases c t s.units now pc j p after left n hj he hn with
  | stopped targetActive peer rest hs hafter hl =>
    exact next_stopNext service url _ t targetActive rest (hstop _ _ _ rfl)
      (fun ht => (ha.own ht).2)
  | stopFailed targetActive peer rest out hs ho =>
    exact ⟨hstop _ _ _ rfl, fun _ hret => absurd hret ho⟩
  | started hs hafter hl =>
    apply next_startNext service url _ t now hne _ hother
    intro ht
    rcases hq rfl ht with ⟨-, hurl⟩ | ⟨hdown, -⟩
    · exact hurl
    · simp [hafter] at hdown
  | startFailed out hs ho =>
    constructor
    · by_cases ht : t.unit = service
      · intro _
        show Function.update s.units t.unit after service = .inactive
        rcases hq rfl ht with ⟨hsucc, -⟩ | ⟨hdown, -⟩
        · simp [hs] at hsucc
        · rw [ht, Function.update_self, hdown]
      · exact hother ht
    · exact fun _ hret => absurd hret ho

theorem next_probed (h : Holder) (x : Probe) (deadline : ℚ) (n : Next)
    (ha : AwaitOk service url s h.target h.pc) (hp : h.pc = .probing deadline)
    (hn : resume c h.target s.now h.pc (.probe x) = some n) :
    NextOk service url (recordProbe s h x) h.target n := by
  have hother : h.target.unit ≠ service → DownUnlessConfirmed service url (recordProbe s h x) := by
    intro ht hu
    obtain ⟨log, hl⟩ := recordProbe_log s h x
    have hold := ha.other ht (unconfirmed_recordProbe service url s h x hu)
    rw [hl]
    exact hold
  have hurl : h.target.unit = service → h.target.healthUrl.getD "" = url := by
    intro ht
    have hk := ha.own ht
    rw [hp] at hk
    exact hk
  rw [hp] at hn
  cases hn
  split
  · next hacc =>
    have hconf : h.target.unit = service → ¬ Unconfirmed service url (recordProbe s h x).log := by
      intro ht
      cases x with
      | answered status =>
        have hst : status < 400 := by simpa [Probe.accepted] using hacc
        simp only [recordProbe, hacc, if_true, hurl ht]
        exact confirmed_healthy service url s.log status hst
      | failed cls => simp [Probe.accepted] at hacc
    constructor
    · intro hu
      by_cases ht : h.target.unit = service
      · exact absurd hu (hconf ht)
      · exact hother ht hu
    · intro ht _
      exact hconf ht
  · exact ⟨hother, hurl⟩

end Next

section Step
variable (c : Config) (service url : String) (s s' : State)

theorem confirming_proceed (s₁ : State) (h : Holder) (n : Next)
    (hn : NextOk service url s₁ h.target n) (hj : ⟨.start, service⟩ ∉ s₁.leftJobs)
    (ho : Owned (proceed s₁ h n)) : Confirming service url (proceed s₁ h n) := by
  cases n with
  | done out => exact ⟨ho, hj, fun _ => hn.1, fun k hk => by simp [proceed] at hk⟩
  | await pc =>
    refine ⟨ho, hj, fun hf => by simp [proceed] at hf, fun k hk => ?_⟩
    cases hk
    by_cases hown : pc = .starting ∧ h.target.unit = service
    · obtain ⟨rfl, ht⟩ := hown
      exact ⟨fun hne => absurd ht hne, fun _ => trivial⟩
    · have hlog := unconfirmed_issued service url s₁.log h.target pc
        (fun hp ht => hown ⟨hp, ht⟩)
      have hdown : DownUnlessConfirmed service url s₁ →
          DownUnlessConfirmed service url (proceed s₁ h (.await pc)) :=
        fun hd hu => hd (hlog.mp hu)
      constructor
      · intro ht
        exact hdown (hn.other ht)
      · intro ht
        exact knows_mono service url s₁ h.target _ pc hlog.mp hdown (hn.own ht)

/-- The holder ran on from a state that differs from `s` by the end of what it
awaited. -/
inductive Resumed : Prop
  | mk (s₁ : State) (h : Holder) (n : Next) (hh : s.holder = some h) (hs : s' = proceed s₁ h n)
      (hc : s₁.calls = s.calls) (hj : ⟨.start, service⟩ ∉ s₁.leftJobs)
      (hn : NextOk service url s₁ h.target n)

theorem job_start (t : Backend) (pc : Pc) (x : String) (hj : pc.job t = some ⟨.start, x⟩) :
    pc = .starting ∧ t.unit = x := by
  cases pc with
  | starting => exact ⟨rfl, by simpa [Pc.job] using hj⟩
  | _ => simp [Pc.job] at hj

theorem down_moved (j : Job) (after : UnitState) (hm : j.verb.moves (s.units j.service) after)
    (hj : j ≠ ⟨.start, service⟩) (hd : DownUnlessConfirmed service url s) :
    DownUnlessConfirmed service url
      { s with units := Function.update s.units j.service after } := by
  intro hu
  have hdown : s.units service = .inactive := hd hu
  show Function.update s.units j.service after service = .inactive
  by_cases hx : service = j.service
  · subst hx
    rw [hdown] at hm
    exact absurd (by rw [← moves_from_inactive j.verb after hm]) hj
  · rw [Function.update_of_ne hx, hdown]

/-- A job that starts the service is its own call's, suspended at that start. -/
theorem await_moved (h : Holder) (j : Job) (after : UnitState) (hh : s.holder = some h)
    (hj : j ∈ unfinished s) (hm : j.verb.moves (s.units j.service) after)
    (hns : ⟨.start, service⟩ ∉ s.leftJobs) (ha : AwaitOk service url s h.target h.pc) :
    AwaitOk service url { s with units := Function.update s.units j.service after }
      h.target h.pc := by
  by_cases hstart : j = ⟨.start, service⟩
  · subst hstart
    have hjob : h.pc.job h.target = some ⟨.start, service⟩ := by
      simpa [unfinished, hh, hns, Holder.job] using hj
    obtain ⟨hp, ht⟩ := job_start h.target h.pc service hjob
    rw [hp]
    exact ⟨fun hne => absurd ht hne, fun _ => trivial⟩
  · have hdown := down_moved service url s j after hm hstart
    constructor
    · intro ht
      exact hdown (ha.other ht)
    · intro ht
      exact knows_mono service url s h.target _ h.pc id hdown (ha.own ht)

theorem confirming_same (hi : Confirming service url s) (ho : Owned s')
    (hh : s'.holder = s.holder) (hu : s'.units = s.units) (hl : s'.log = s.log)
    (hj : ∀ j ∈ s'.leftJobs, j ∈ s.leftJobs) : Confirming service url s' := by
  have hdown : DownUnlessConfirmed service url s → DownUnlessConfirmed service url s' := by
    intro hd hun
    rw [hl] at hun
    rw [hu]
    exact hd hun
  have hlog : Unconfirmed service url s'.log → Unconfirmed service url s.log := by
    rw [hl]
    exact id
  constructor
  · exact ho
  · exact fun hm => hi.noStart (hj _ hm)
  · intro hf
    exact hdown (hi.free (hh ▸ hf))
  · intro h hk
    have hheld := hi.held h (hh ▸ hk)
    constructor
    · intro ht
      exact hdown (hheld.other ht)
    · intro ht
      exact knows_mono service url s h.target s' h.pc hlog hdown (hheld.own ht)

theorem confirming_cases (e : Event) (hne : url ≠ "") (ha : StartsConclude service url s e)
    (hi : Confirming service url s) (hs : step c s e = some s') :
    Resumed service url s s' ∨
      Confirming service url s' ∧ (s'.holder = none → s.holder = none) := by
  have ho := owned_step c s s' e hi.owner hs
  cases step_cases c s s' e hs with
  | called b hb =>
    exact Or.inr ⟨confirming_same service url s _ hi ho rfl rfl rfl (fun _ => id), id⟩
  | gaveUp i b hw =>
    exact Or.inr ⟨confirming_same service url s _ hi ho rfl rfl rfl (fun _ => id), id⟩
  | ticked now hn =>
    exact Or.inr ⟨confirming_same service url s _ hi ho rfl rfl rfl (fun _ => id), id⟩
  | locked i b hf hw =>
    have hd := hi.free hf
    refine Or.inr ⟨⟨ho, hi.noStart, fun hnone => by simp [enter] at hnone, fun h hh => ?_⟩,
      fun _ => hf⟩
    cases hh
    exact ⟨fun _ => hd, fun _ => hd⟩
  | checked p h x n hh hc he hn =>
    have hnext := next_checked c service url s h.target s.now h.pc x p n (hi.held h hh) hc he hn
    exact Or.inl (.mk s h n hh rfl rfl hi.noStart hnext)
  | commanded p after left h j n hh hj he hn =>
    have hcond : h.pc = .starting → h.target.unit = service →
        p.succeeds = true ∧ h.target.healthUrl.getD "" = url ∨
          after = .inactive ∧ left = false := by
      intro hp ht
      have hc := ha h hh ht
      simpa [hp, concludes] using hc
    apply Or.inl
    apply Resumed.mk (afterCommand s j after left) h n hh rfl rfl
    · intro hm
      simp only [afterCommand] at hm
      split at hm
      · next hleft =>
        rcases List.mem_cons.mp hm with rfl | hold
        · obtain ⟨hp, ht⟩ := job_start h.target h.pc service hj
          rcases hcond hp ht with ⟨hsucc, -⟩ | ⟨-, hkept⟩
          · simp [(commandEnds_success _ p _ after left he hsucc).2] at hleft
          · simp [hkept] at hleft
        · exact hi.noStart hold
      · exact hi.noStart hm
    · exact next_commanded c service url s h.target s.now h.pc j p after left n hne (hi.held h hh)
        hj he hcond hn
  | probed x h deadline n hh hp hn =>
    apply Or.inl
    apply Resumed.mk (recordProbe s h x) h n hh rfl (recordProbe_calls s h x)
    · obtain ⟨log, hl⟩ := recordProbe_log s h x
      rw [hl]
      exact hi.noStart
    · exact next_probed c service url s h x deadline n (hi.held h hh) hp hn
  | woke h deadline wake lastError n hh hp hw hn =>
    apply Or.inl
    apply Resumed.mk s h n hh rfl rfl hi.noStart
    have hheld := hi.held h hh
    have hcond := ha h hh
    rw [hp] at hn hheld hcond
    cases hn
    apply next_pollNext service url s h.target _ s.now deadline lastError hheld.other
    · intro ht
      simpa [concludes] using hcond ht
    · exact hheld.own
  | interrupted h hh hp =>
    apply Or.inl
    apply Resumed.mk s h _ hh rfl rfl hi.noStart
    have ht : h.target.unit ≠ service := by
      intro ht
      have hcond := ha h hh ht
      rcases hp with ⟨deadline, hp⟩ | ⟨deadline, wake, lastError, hp⟩
      · simp [hp, concludes] at hcond
      · simp [hp, concludes] at hcond
    exact ⟨(hi.held h hh).other ht, fun h => absurd h ht⟩
  | moved x after j hj hjs hm =>
    subst hjs
    refine Or.inr ⟨⟨ho, hi.noStart, fun hf => ?_, fun h hh => ?_⟩, id⟩
    · apply down_moved service url s j after hm _ (hi.free hf)
      rintro rfl
      have hf' : s.holder = none := hf
      simp [unfinished, hf', hi.noStart] at hj
    · exact await_moved service url s h j after hh hj hm hi.noStart (hi.held h hh)
  | jobEnded k j hk =>
    exact Or.inr ⟨confirming_same service url s _ hi ho rfl rfl rfl
      (fun _ h => List.mem_of_mem_eraseIdx h), id⟩

theorem confirming_step (e : Event) (hne : url ≠ "") (ha : StartsConclude service url s e)
    (hi : Confirming service url s) (hs : step c s e = some s') : Confirming service url s' := by
  have ho := owned_step c s s' e hi.owner hs
  rcases confirming_cases c service url s s' e hne ha hi hs with
    ⟨s₁, h, n, hh, rfl, hc, hj, hn⟩ | ⟨hkept, -⟩
  · exact confirming_proceed service url s₁ h n hn hj ho
  · exact hkept

theorem returns_confirmed (e : Event) (b : Backend) (hu : b.unit ≠ "")
    (hne : b.healthUrl.getD "" ≠ "") (ha : StartsConclude b.unit (b.healthUrl.getD "") s e)
    (hi : Confirming b.unit (b.healthUrl.getD "") s) : ReturnsHealthy c b s e := by
  intro s' i hs hret hnew hstarted
  rcases returned_step c s s' e i b hi.owner hs hret with hold | ⟨-, hunit⟩ | ⟨pc, hpc, hfree⟩
  · exact absurd hold hnew
  · exact absurd hunit hu
  · by_contra hno
    rcases confirming_cases c b.unit _ s s' e hne ha hi hs with
      ⟨s₁, h, n, hh, rfl, hc, hj, hn⟩ | ⟨-, hkeep⟩
    · obtain rfl : ⟨i, b, pc⟩ = h := Option.some.inj (hpc.symm.trans hh)
      cases n with
      | await pc' => simp [proceed] at hfree
      | done out =>
        have hin : s₁.calls[i]? = some ⟨b, .inside⟩ := hc ▸ hi.owner _ hh
        simp only [proceed, TaskPool.getElem?_set_of_some hin, if_true, Option.some.injEq,
          Call.mk.injEq, true_and, Status.ended.injEq] at hret
        exact hn.2 rfl hret ⟨hstarted, hno⟩
    · have hheld := hkeep hfree
      simp [hpc] at hheld

end Step

theorem confirming_init (service url : String) (u : Units) :
    Confirming service url (init u) where
  owner := fun h hh => by simp [init] at hh
  noStart := by simp [init]
  free := fun _ hu => by simp [Unconfirmed, init] at hu
  held := fun h hh => by simp [init] at hh

/-- In every run in which the starts of a service conclude, every call that
returns for a backend with that service and a health URL finds it healthy
since its last start. -/
theorem returns_healthy (c : Config) (b : Backend) (u : Units) (es : List Event) (s : State)
    (hu : b.unit ≠ "") (hne : b.healthUrl.getD "" ≠ "")
    (ha : Each (step c) (StartsConclude b.unit (b.healthUrl.getD "")) (init u) es)
    (hr : run (step c) (init u) es = some s) : Each (step c) (ReturnsHealthy c b) (init u) es := by
  apply each_history (step c) (StartsConclude b.unit (b.healthUrl.getD "")) (ReturnsHealthy c b)
    (init u) (fun _ m => Confirming b.unit (b.healthUrl.getD "") m)
    (confirming_init b.unit (b.healthUrl.getD "") u) _ _ s es ha hr
  · intro _ e m m' _ hae hm hs
    exact confirming_step c b.unit _ m m' e hne hae hm hs
  · intro _ e m hae hm
    exact returns_confirmed c m e b hu hne hae hm

def probedGemma : Backend := { gemmaGpu with healthUrl := some "http://localhost:8101/health" }

def probedConfig : Config := ⟨[probedGemma], AssocDict.Dict.empty⟩

def allDown : Units := fun _ => .inactive

def startedThenReused : List Event :=
  [.called probedGemma, .locked 0, .checked notActive, .commanded ok .active false,
    .probed (.answered 503), .ticked 1, .woke, .probed (.answered 200), .called probedGemma,
    .locked 1, .checked ok]

theorem reused_healthy :
    ∃ s, run (step probedConfig) (init allDown) startedThenReused = some s ∧
      Each (step probedConfig) (ReturnsHealthy probedConfig probedGemma) (init allDown)
        startedThenReused := by
  have hsome : (run (step probedConfig) (init allDown) startedThenReused).isSome := by
    decide +kernel
  obtain ⟨s, hs⟩ := Option.isSome_iff_exists.mp hsome
  exact ⟨s, hs, returns_healthy probedConfig probedGemma allDown startedThenReused s (by decide)
    (by decide) (by decide +kernel) hs⟩

/-- The health wait runs out of time; the next request finds the unit active. -/
def timedOutThenReused : List Event :=
  [.called probedGemma, .locked 0, .checked notActive, .commanded ok .active false,
    .probed (.answered 503), .ticked 181, .woke, .called probedGemma, .locked 1, .checked ok]

theorem admitted_unhealthy :
    ∃ s, run (step probedConfig) (init allDown) timedOutThenReused = some s ∧
      s.calls[1]? = some ⟨probedGemma, .ended (.returned ())⟩ ∧
      .starting probedGemma.unit ∈ s.log ∧
      ¬ AnsweredSince probedGemma.unit (probedGemma.healthUrl.getD "") s.log := by
  have hrun : (run (step probedConfig) (init allDown) timedOutThenReused).map
      (fun s => (s.calls[1]?, s.log)) =
      some (some ⟨probedGemma, .ended (.returned ())⟩, [.starting probedGemma.unit]) := by
    decide +kernel
  obtain ⟨s, hs, hv⟩ := Option.map_eq_some_iff.mp hrun
  obtain ⟨hcall, hlog⟩ := Prod.mk.inj hv
  refine ⟨s, hs, hcall, by simp [hlog], ?_⟩
  rintro ⟨status, -, hm⟩
  simp [hlog, sinceStart] at hm

end LlRouter.HealthHistory
