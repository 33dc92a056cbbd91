import LlRouter.RouterMachine
import LlRouter.ServiceUptime

/-!
# What a failed transition tells the client

A handler turns a `RuntimeError` of `ensure_active` into a 503 with its text.
Such a text names a service of the request's own group or its backend's health
URL, and what it quotes is what that very command or a probe of this call came
back with. The only other errors are those of a process of the call that could
not be spawned, or not be killed when its time was up, passed on as they are.
-/

set_option autoImplicit false

namespace LlRouter.ServiceErrors
open ControlExit LabelledRun
open LlRouter.BackendConfig LlRouter.SystemdUnits LlRouter.EnsureActive
open LlRouter.TransitionMachine LlRouter.TransitionCalls

def word : Verb → String
  | .start => "start"
  | .stop => "stop"

def Asks (c : Config) (t : Backend) (service : String) : Prop :=
  service = t.unit ∨ ∃ b ∈ peersInGroup c t, b.unit = service

def Commands (c : Config) (t : Backend) (j : Job) : Prop :=
  j = ⟨.start, t.unit⟩ ∨ j.verb = .stop ∧ ∃ b ∈ peersInGroup c t, b.unit = j.service

/-- The texts of the RuntimeErrors of a call, by where it was suspended and what
it met there. -/
inductive Told (c : Config) (t : Backend) (met : Pc → Reply → Prop) : String → Prop
  | checkTimeout (pc : Pc) (service : String) (hc : pc.checks t = some service)
      (hs : Asks c t service) (hm : met pc (.process (.timedOut none))) :
      Told c t met ("timeout running " ++ ("systemctl is-active --quiet " ++ service))
  | commandTimeout (pc : Pc) (j : Job) (hj : pc.job t = some j) (hc : Commands c t j)
      (hm : met pc (.process (.timedOut none))) :
      Told c t met ("timeout running " ++
        ("sudo -n systemctl " ++ word j.verb ++ " " ++ j.service))
  | commandFailed (pc : Pc) (j : Job) (rc : Option ℤ) (out : String)
      (hj : pc.job t = some j) (hc : Commands c t j) (hz : rc.getD 0 ≠ 0)
      (hm : met pc (.process (.exited rc out))) :
      Told c t met ("systemctl " ++ word j.verb ++ " " ++ j.service ++ " failed: " ++ out)
  | unhealthy (deadline : ℚ) (x : Probe) (hx : x.accepted = false)
      (hm : met (.probing deadline) (.probe x)) :
      Told c t met ("health check timeout for " ++ t.healthUrl.getD "" ++ ": " ++ x.error)

def NotRun (met : Pc → Reply → Prop) (e : PyException) : Prop :=
  ∃ pc, met pc (.process (.notSpawned e)) ∨ met pc (.process (.timedOut (some e)))

def Locals (c : Config) (t : Backend) (met : Pc → Reply → Prop) : Pc → Prop
  | .checkingPeer _ peer rest active => ∀ b ∈ peer::rest++active, b ∈ peersInGroup c t
  | .stopping _ peer rest => ∀ b ∈ peer::rest, b ∈ peersInGroup c t
  | .sleeping deadline _ lastError =>
    ∃ x : Probe, met (.probing deadline) (.probe x) ∧ x.accepted = false ∧ lastError = x.error
  | _ => True

def Explained (c : Config) (t : Backend) (met : Pc → Reply → Prop) (e : PyException) : Prop :=
  e.cls = "RuntimeError" ∧ Told c t met e.text ∨ NotRun met e

def Follows (c : Config) (t : Backend) (met : Pc → Reply → Prop) : Next → Prop
  | .await pc => Locals c t met pc
  | .done (.raised e) => Explained c t met e
  | .done _ => True

section Straight
variable (c : Config) (t : Backend) (met : Pc → Reply → Prop)

theorem follows_stopNext (targetActive : Bool) (rest : List Backend)
    (hr : ∀ b ∈ rest, b ∈ peersInGroup c t) :
    Follows c t met (stopNext targetActive rest) := by
  cases rest with
  | nil => cases targetActive <;> trivial
  | cons peer rest => exact hr

theorem follows_checkNext (targetActive : Bool) (active rest : List Backend)
    (hr : ∀ b ∈ rest++active, b ∈ peersInGroup c t) :
    Follows c t met (checkNext targetActive active rest) := by
  cases rest with
  | nil =>
    rw [checkNext_nil]
    exact follows_stopNext c t met targetActive active hr
  | cons peer rest => exact hr

theorem follows_pollNext (now deadline : ℚ) (x : Probe) (hx : x.accepted = false)
    (hm : met (.probing deadline) (.probe x)) :
    Follows c t met (pollNext (t.healthUrl.getD "") now deadline x.error) := by
  unfold pollNext
  split
  · trivial
  · exact Or.inl ⟨rfl, .unhealthy deadline x hx hm⟩

/-- The first look at the clock is before the deadline. -/
theorem follows_startNext (now : ℚ) : Follows c t met (startNext t now) := by
  unfold startNext
  split
  · trivial
  · have hnow : now < now+healthTimeout := lt_add_of_pos_right now (by decide)
    rw [pollNext, if_pos hnow]
    trivial

/-- What `_run` itself can raise. -/
theorem follows_run (pc : Pc) (argv : String) (p : Process) (f : ℤ × String → Next)
    (hm : met pc (.process p))
    (ht : p = .timedOut none → Told c t met ("timeout running " ++ argv))
    (hf : ∀ rc out, p = .exited rc out → Follows c t met (f (rc.getD 0, out))) :
    Follows c t met (Next.after (SystemdUnits.run argv p) f) := by
  cases p with
  | exited rc out => exact hf rc out rfl
  | timedOut killError =>
    cases killError with
    | none => exact Or.inl ⟨rfl, ht rfl⟩
    | some e => exact Or.inr ⟨pc, Or.inr hm⟩
  | notSpawned e => exact Or.inr ⟨pc, Or.inl hm⟩
  | cancelled => trivial

theorem follows_check (pc : Pc) (service : String) (p : Process) (f : Bool → Next)
    (hc : pc.checks t = some service) (hs : Asks c t service) (hm : met pc (.process p))
    (hf : ∀ a, Follows c t met (f a)) :
    Follows c t met (Next.after (isActive service p) f) := by
  rw [isActive, after_bind]
  apply follows_run c t met pc _ p _ hm
  · rintro rfl
    exact .checkTimeout pc service hc hs hm
  · intro rc out _
    exact hf _

theorem follows_command (pc : Pc) (j : Job) (p : Process) (f : Unit → Next)
    (hj : pc.job t = some j) (hc : Commands c t j) (hm : met pc (.process p))
    (hf : Follows c t met (f ())) :
    Follows c t met (Next.after (systemctl (word j.verb) j.service p) f) := by
  rw [systemctl, after_bind]
  apply follows_run c t met pc _ p _ hm
  · rintro rfl
    exact .commandTimeout pc j hj hc hm
  · rintro rc out rfl
    by_cases hz : rc.getD 0 = 0
    · rw [if_pos hz]
      exact hf
    · rw [if_neg hz]
      exact Or.inl ⟨rfl, .commandFailed pc j rc out hj hc hz hm⟩

theorem follows_resume (now : ℚ) (pc : Pc) (r : Reply) (n : Next) (hl : Locals c t met pc)
    (hn : resume c t now pc r = some n) (hm : met pc r) : Follows c t met n := by
  cases pc with
  | checkingTarget =>
    cases r with
    | process p =>
      cases hn
      exact follows_check c t met _ t.unit p _ rfl (Or.inl rfl) hm
        (fun a => follows_checkNext c t met a [] _ (by simp))
    | _ => cases hn
  | checkingPeer targetActive peer rest active =>
    cases r with
    | process p =>
      cases hn
      apply follows_check c t met _ peer.unit p _ rfl (Or.inr ⟨peer, hl peer (by simp), rfl⟩) hm
      intro a
      apply follows_checkNext c t met
      intro b hb
      apply hl b
      cases a
      · simp only [List.mem_append, List.mem_cons, Bool.false_eq_true, if_false] at hb ⊢
        tauto
      · simp only [List.mem_append, List.mem_cons, List.not_mem_nil, or_false, if_true] at hb ⊢
        tauto
    | _ => cases hn
  | stopping targetActive peer rest =>
    cases r with
    | process p =>
      cases hn
      exact follows_command c t met _ ⟨.stop, peer.unit⟩ p _ rfl
        (Or.inr ⟨rfl, peer, hl peer (by simp), rfl⟩) hm
        (follows_stopNext c t met targetActive rest (fun b hb => hl b (by simp [hb])))
    | _ => cases hn
  | starting =>
    cases r with
    | process p =>
      cases hn
      exact follows_command c t met _ ⟨.start, t.unit⟩ p _ rfl (Or.inl rfl) hm
        (follows_startNext c t met now)
    | _ => cases hn
  | probing deadline =>
    cases r with
    | probe x =>
      cases hn
      cases hx : x.accepted with
      | true => trivial
      | false => exact ⟨x, hm, hx, rfl⟩
    | cancelled =>
      cases hn
      trivial
    | _ => cases hn
  | sleeping deadline wake lastError =>
    cases r with
    | timer =>
      cases hn
      obtain ⟨x, hx, hr, rfl⟩ := hl
      exact follows_pollNext c t met now deadline x hr hx
    | cancelled =>
      cases hn
      trivial
    | _ => cases hn

end Straight

section Growing
variable (c : Config) (t : Backend) (met met' : Pc → Reply → Prop)
  (hm : ∀ pc r, met pc r → met' pc r)

include hm

theorem told_mono (text : String) (h : Told c t met text) : Told c t met' text := by
  cases h with
  | checkTimeout pc service hc hs hp => exact .checkTimeout pc service hc hs (hm _ _ hp)
  | commandTimeout pc j hj hc hp => exact .commandTimeout pc j hj hc (hm _ _ hp)
  | commandFailed pc j rc out hj hc hz hp => exact .commandFailed pc j rc out hj hc hz (hm _ _ hp)
  | unhealthy deadline x hx hp => exact .unhealthy deadline x hx (hm _ _ hp)

theorem explained_mono (e : PyException) (h : Explained c t met e) : Explained c t met' e := by
  rcases h with ⟨hcls, ht⟩ | ⟨pc, hp⟩
  · exact Or.inl ⟨hcls, told_mono c t met met' hm e.text ht⟩
  · exact Or.inr ⟨pc, hp.imp (hm _ _) (hm _ _)⟩

theorem locals_mono (pc : Pc) (h : Locals c t met pc) : Locals c t met' pc := by
  cases pc with
  | sleeping deadline wake lastError =>
    obtain ⟨x, hx, hr⟩ := h
    exact ⟨x, hm _ _ hx, hr⟩
  | _ => exact h

end Growing

def reply : Event → Option Reply
  | .checked p => some (.process p)
  | .commanded p _ _ => some (.process p)
  | .probed x => some (.probe x)
  | .woke => some .timer
  | .interrupted => some .cancelled
  | _ => none

structure Honest (c : Config) (met : ℕ → Pc → Reply → Prop) (s : State) : Prop where
  owned : Owned s
  locals : ∀ h, s.holder = some h → Locals c h.target (met h.index) h.pc
  errors : ∀ (i : ℕ) b x, s.calls[i]? = some ⟨b, .ended (.raised x)⟩ →
    Explained c b (met i) x

theorem resume_cancelled (c : Config) (h : Holder) (now : ℚ)
    (hp : (∃ deadline, h.pc = .probing deadline) ∨
      ∃ deadline wake lastError, h.pc = .sleeping deadline wake lastError) :
    resume c h.target now h.pc .cancelled = some (.done .cancelled) := by
  rcases hp with ⟨deadline, hp⟩ | ⟨deadline, wake, lastError, hp⟩
  · rw [hp]
    rfl
  · rw [hp]
    rfl

section Step
variable (c : Config) (before after : ℕ → Pc → Reply → Prop) (s s' : State)

theorem honest_proceed (s₁ : State) (h : Holder) (n : Next)
    (hm : ∀ i pc r, before i pc r → after i pc r) (hs : Honest c before s)
    (hh : s.holder = some h) (hc : s₁.calls = s.calls) (ho : Owned (proceed s₁ h n))
    (hn : Follows c h.target (after h.index) n) : Honest c after (proceed s₁ h n) := by
  cases n with
  | await pc =>
    refine ⟨ho, ?_, ?_⟩
    · intro k hk
      obtain rfl := Option.some.inj hk
      exact hn
    · intro i b x hi
      exact explained_mono c b _ _ (hm i) x (hs.errors i b x (hc ▸ hi))
  | done out =>
    refine ⟨ho, ?_, ?_⟩
    · intro k hk
      cases hk
    · intro i b x hi
      simp only [proceed, hc] at hi
      rcases set_cases s h.index i h.target b .inside _ _ (hs.owned h hh) hi with
        ⟨rfl, rfl, hout⟩ | ⟨-, hold⟩
      · obtain rfl : .raised x = out := Status.ended.inj hout
        exact hn
      · exact explained_mono c b _ _ (hm i) x (hs.errors i b x hold)

/-- A step keeps every error explained, once what the holder met is recorded. -/
theorem honest_step (e : Event) (hm : ∀ i pc r, before i pc r → after i pc r)
    (hnew : ∀ h r, s.holder = some h → reply e = some r → after h.index h.pc r)
    (hs : Honest c before s) (hr : step c s e = some s') : Honest c after s' := by
  have hown := owned_step c s s' e hs.owned hr
  have hkept : (s'.holder = none → s.holder = none) → ∀ (i : ℕ) b x,
      s'.calls[i]? = some ⟨b, .ended (.raised x)⟩ → Explained c b (after i) x := by
    intro hn i b x hi
    rcases raised_step c s s' e i b x hs.owned hr hi with hprev | ⟨pc, hh, hf⟩
    · exact explained_mono c b _ _ (hm i) x (hs.errors i b x hprev)
    · simp [hn hf] at hh
  have hold : s'.holder = s.holder → Honest c after s' := fun hh =>
    ⟨hown, fun h hk => locals_mono c h.target _ _ (hm h.index) h.pc (hs.locals h (hh ▸ hk)),
      hkept fun hf => hh ▸ hf⟩
  have hgo : ∀ (s₁ : State) (h : Holder) (r : Reply) (n : Next), s.holder = some h →
      s₁.calls = s.calls → resume c h.target s.now h.pc r = some n → reply e = some r →
      s' = proceed s₁ h n → Honest c after s' := by
    rintro s₁ h r n hh hc hn hx rfl
    have hl := locals_mono c h.target _ _ (hm h.index) h.pc (hs.locals h hh)
    have hf := follows_resume c h.target (after h.index) s.now h.pc r n hl hn (hnew h r hh hx)
    exact honest_proceed c before after s s₁ h n hm hs hh hc hown hf
  cases step_cases c s s' e hr with
  | called b hb => exact hold rfl
  | locked k b hf hw =>
    refine ⟨hown, ?_, hkept fun _ => hf⟩
    intro h hh
    obtain rfl := Option.some.inj hh
    trivial
  | gaveUp k b hw => exact hold rfl
  | checked p h service n hh hc he hn => exact hgo s h (.process p) n hh rfl hn rfl rfl
  | commanded p after left h j n hh hj he hn =>
    exact hgo (afterCommand s j after left) h (.process p) n hh rfl hn rfl rfl
  | probed x h deadline n hh hp hn =>
    exact hgo _ h _ n hh (recordProbe_calls s h x) hn rfl rfl
  | woke h deadline wake lastError n hh hp hw hn => exact hgo s h _ n hh rfl hn rfl rfl
  | interrupted h hh hp => exact hgo s h _ _ hh rfl (resume_cancelled c h s.now hp) rfl rfl
  | moved service after j hj hjs hm => exact hold rfl
  | jobEnded k j hk => exact hold rfl
  | ticked now hn => exact hold rfl

end Step

inductive Refusal where
  | http (status : ℕ) (detail : String)
  | passedOn (e : PyException)
  deriving DecidableEq, Repr

/-- `try: await ensure_active(config, backend) except RuntimeError`. The test is
on the class, so it holds of the subclasses of RuntimeError too. -/
def refusal (isRuntimeError : String → Bool) : Exit Unit → Option Refusal
  | .raised e =>
    if isRuntimeError e.cls then some (.http 503 ("backend not ready: " ++ e.text))
    else some (.passedOn e)
  | _ => none

section Router
variable (c : Config) (u : Units)

def Met (es : List RouterMachine.Event) (i : ℕ) (pc : Pc) (r : Reply) : Prop :=
  ∃ pre e suf s h, es = pre++.service e::suf ∧
    run (RouterMachine.step c) (RouterMachine.init u) pre = some s ∧
    s.services.holder = some h ∧ h.index = i ∧ h.pc = pc ∧ reply e = some r

theorem met_snoc (es : List RouterMachine.Event) (e : RouterMachine.Event) (i : ℕ) (pc : Pc)
    (r : Reply) (h : Met c u es i pc r) : Met c u (es++[e]) i pc r := by
  obtain ⟨pre, e', suf, s, h, rfl, hr, hh, hi, hp, hx⟩ := h
  exact ⟨pre, e', suf++[e], s, h, by simp, hr, hh, hi, hp, hx⟩

theorem honest_router (es : List RouterMachine.Event) (s : RouterMachine.State)
    (hr : run (RouterMachine.step c) (RouterMachine.init u) es = some s) :
    Honest c (Met c u es) s.services := by
  apply history_run (RouterMachine.step c) (fun _ _ => True) (RouterMachine.init u)
    (fun es m => Honest c (Met c u es) m.services) ?_ ?_ s es
    (each_of_mem _ _ _ _ (fun _ _ => trivial)) hr
  · exact ⟨fun h hh => by simp [RouterMachine.init, init] at hh,
      fun h hh => by simp [RouterMachine.init, init] at hh,
      fun i b x hi => by simp [RouterMachine.init, init] at hi⟩
  · intro es e m n hes _ hm hn
    have hmono := met_snoc c u es e
    have hkept : n.services = m.services → Honest c (Met c u (es++[e])) n.services := by
      intro hsame
      rw [hsame]
      exact ⟨hm.owned,
        fun h hh => locals_mono c h.target _ _ (hmono h.index) h.pc (hm.locals h hh),
        fun i b x hi => explained_mono c b _ _ (hmono i) x (hm.errors i b x hi)⟩
    have hserved : ∀ (e' : Event) (services : State), e = .service e' →
        step c m.services e' = some services → Honest c (Met c u (es++[e])) services := by
      rintro e' services rfl hv
      apply honest_step c (Met c u es) _ m.services services e' hmono ?_ hm hv
      intro h r hh hx
      exact ⟨es, e', [], m, h, rfl, hes, hh, rfl, rfl, hx⟩
    cases RouterMachine.step_cases c m n e hn with
    | answered h json hr => exact hkept rfl
    | posted h json b path fields overrides hb hr =>
      rw [RouterMachine.goOn_services]
      exact honest_step c (Met c u es) _ m.services _ (.called b) hmono
        (fun h r hh hx => by cases hx) hm (by simp [step, hb, RouterMachine.withRequest])
    | free e services hv he hf => exact hserved e services rfl hv
    | held e services hv he h hh =>
      rw [RouterMachine.goOn_services]
      exact hserved e services rfl hv
    | task i e permits hp => exact hkept rfl

end Router

/-- `kill` on the client of a `sudo`, which belongs to root. -/
def notPermitted : PyException := ⟨"PermissionError", "[Errno 1] Operation not permitted"⟩

def stopsRefused : List RouterMachine.Event :=
  [ServiceUptime.chatFor "qwen", .service (.locked 0), .service (.checked notActive),
    .service (.checked ok), .service (.commanded (.timedOut (some notPermitted)) .active true),
    ServiceUptime.chatFor "qwen", .service (.locked 1), .service (.checked notActive),
    .service (.checked ok),
    .service (.commanded (.exited (some 1) "sudo: a password is required") .active false)]

def stopFailed : PyException :=
  ⟨"RuntimeError",
    "systemctl stop llama-server-26b.service failed: sudo: a password is required"⟩

end LlRouter.ServiceErrors
