import LlRouter.SerialTransitions

/-!
# The steady state

A call that finds its target up and no peer up has nothing to do but to look.
As long as only such calls take the lock, whatever becomes of their checks, the
router issues no command and no unit moves. Each call makes one check for its
target and one for each peer, and only a check without an answer is an error.
-/

set_option autoImplicit false

namespace LlRouter.SteadyState
open ControlExit LabelledRun
open LlRouter.BackendConfig LlRouter.SystemdUnits LlRouter.EnsureActive
open LlRouter.TransitionMachine LlRouter.TransitionCalls LlRouter.TransitionTrack
open LlRouter.SerialTransitions

def Steady (c : Config) (u : Units) (t : Backend) : Prop :=
  u t.unit = .active ∧ activePeers c t u = []

def OnlySteady (c : Config) (s : State) (e : Event) : Prop :=
  ∀ t ∈ lockTarget s e, Steady c s.units t

instance (c : Config) (u : Units) (t : Backend) : Decidable (Steady c u t) :=
  inferInstanceAs (Decidable (_ ∧ _))

instance (c : Config) (s : State) (e : Event) : Decidable (OnlySteady c s e) :=
  inferInstanceAs (Decidable (∀ t ∈ lockTarget s e, _))

def isCheck : Event → Bool
  | .checked _ => true
  | _ => false

def checksOf (c : Config) (t : Backend) : ℕ := 1+(peersInGroup c t).length

def checksLeft (c : Config) (t : Backend) : Pc → ℕ
  | .checkingTarget => checksOf c t
  | .checkingPeer _ _ rest _ => 1+rest.length
  | _ => 0

def Checking (u : Units) : Pc → Prop
  | .checkingTarget => True
  | .checkingPeer targetActive peer rest active =>
    targetActive = true ∧ active = [] ∧ ∀ b ∈ peer::rest, on u b.unit = false
  | _ => False

inductive Looked (c : Config) (u : Units) (t : Backend) (p : Process) (k : ℕ) : Next → Prop
  | more (pc : Pc) (hp : Checking u pc) (hk : checksLeft c t pc+1 ≤ k) :
      Looked c u t p k (.await pc)
  | returned : Looked c u t p k (.done (.returned ()))
  | unanswered (out : Exit Unit) (ha : p.answers = false) : Looked c u t p k (.done out)

section Checks
variable (c : Config) (u : Units) (t : Backend)

theorem steady_peers (hs : Steady c u t) (b : Backend) (hb : b ∈ peersInGroup c t) :
    on u b.unit = false := by
  have hnot := List.filter_eq_nil_iff.mp hs.2 b hb
  simpa using hnot

theorem looked_checkNext (p : Process) (rest : List Backend)
    (hr : ∀ b ∈ rest, on u b.unit = false) :
    Looked c u t p (1+rest.length) (checkNext true [] rest) := by
  cases rest with
  | nil => exact .returned
  | cons peer rest =>
    apply Looked.more
    · exact ⟨rfl, rfl, hr⟩
    · simp only [checksLeft, List.length_cons]
      omega

theorem looked_checked (now : ℚ) (pc : Pc) (service : String) (p : Process) (n : Next)
    (hs : Steady c u t) (hp : Checking u pc) (hc : pc.checks t = some service)
    (he : checkEnds p (u service)) (hn : resume c t now pc (.process p) = some n) :
    Looked c u t p (checksLeft c t pc) n := by
  cases checked_cases c t u now pc service p n hc he hn with
  | target ha =>
    have hup : on u t.unit = true := by simp [on, hs.1]
    rw [hup]
    exact looked_checkNext c u t p _ (steady_peers c u t hs)
  | peer targetActive peer rest active ha =>
    obtain ⟨rfl, rfl, hdown⟩ := hp
    rw [if_neg (by simp [hdown peer])]
    exact looked_checkNext c u t p rest (fun b hb => hdown b (List.mem_cons_of_mem _ hb))
  | failed pc service out ha ho => exact .unanswered out ha

end Checks

def stock (c : Config) (s : State) : ℕ :=
  (s.holder.map (fun h => checksLeft c h.target h.pc)).getD 0

structure Calm (c : Config) (s₀ s : State) : Prop where
  owned : Owned s
  units : s.units = s₀.units
  log : s.log = s₀.log
  jobs : s.leftJobs = []
  holder : ∀ h, s.holder = some h → Steady c s.units h.target ∧ Checking s.units h.pc

def Unanswered (e : Event) : Prop := ∃ p, e = .checked p ∧ p.answers = false

def Fails (s s' : State) (e : Event) : Prop :=
  ∀ (i : ℕ) b x, s'.calls[i]? = some ⟨b, .ended (.raised x)⟩ →
    s.calls[i]? = some ⟨b, .ended (.raised x)⟩ ∨ Unanswered e

section Steps
variable (c : Config) (s₀ s s' : State)

theorem checksLeft_pos (u : Units) (t : Backend) (pc : Pc) (hp : Checking u pc) :
    1 ≤ checksLeft c t pc := by
  cases pc with
  | checkingTarget => exact Nat.le_add_right 1 _
  | checkingPeer targetActive peer rest active => exact Nat.le_add_right 1 _
  | _ => exact hp.elim

theorem calm_proceed (h : Holder) (p : Process) (n : Next) (hs : Calm c s₀ s)
    (hh : s.holder = some h) (ho : Owned (proceed s h n))
    (hn : Looked c s.units h.target p (checksLeft c h.target h.pc) n) :
    Calm c s₀ (proceed s h n) ∧ 1+stock c (proceed s h n) ≤ stock c s := by
  have hstock : stock c s = checksLeft c h.target h.pc := by simp [stock, hh]
  have hpos := checksLeft_pos c s.units h.target h.pc (hs.holder h hh).2
  have hdone : ∀ out, Calm c s₀ (proceed s h (.done out)) := by
    intro out
    refine ⟨?_, hs.units, hs.log, hs.jobs, ?_⟩
    · intro k hk
      cases hk
    · intro k hk
      cases hk
  cases hn with
  | more pc hp hk =>
    have hissued : issued h.target pc = [] := by
      cases pc with
      | checkingTarget => rfl
      | checkingPeer targetActive peer rest active => rfl
      | _ => exact hp.elim
    refine ⟨⟨ho, hs.units, ?_, hs.jobs, ?_⟩, ?_⟩
    · simp only [proceed, hissued, List.nil_append]
      exact hs.log
    · intro k hk
      obtain rfl := Option.some.inj hk
      exact ⟨(hs.holder h hh).1, hp⟩
    · rw [hstock]
      show 1+checksLeft c h.target pc ≤ checksLeft c h.target h.pc
      omega
  | returned => exact ⟨hdone _, hstock ▸ hpos⟩
  | unanswered out ha => exact ⟨hdone _, hstock ▸ hpos⟩

theorem fails_proceed (h : Holder) (p : Process) (n : Next) (hs : Calm c s₀ s)
    (hh : s.holder = some h)
    (hn : Looked c s.units h.target p (checksLeft c h.target h.pc) n) :
    Fails s (proceed s h n) (.checked p) := by
  intro i b x hi
  cases hn with
  | more pc hp hk => exact Or.inl hi
  | returned =>
    rcases set_cases s h.index i h.target b .inside _ _ (hs.owned h hh) hi with
      ⟨-, -, hst⟩ | ⟨-, hold⟩
    · cases hst
    · exact Or.inl hold
  | unanswered out ha => exact Or.inr ⟨p, rfl, ha⟩

/-- A step of a router at rest takes the lock, makes a check or changes nothing
a call can see. -/
theorem calm_step (e : Event) (ha : OnlySteady c s e) (hs : Calm c s₀ s)
    (hr : step c s e = some s') :
    Calm c s₀ s' ∧ Fails s s' e ∧
      (if isCheck e then 1 else 0)+stock c s' ≤
        stock c s+((lockTarget s e).map (checksOf c)).getD 0 := by
  have hown := owned_step c s s' e hs.owned hr
  have hjobs : unfinished s = [] := by
    cases hh : s.holder with
    | none => simp [unfinished, hh, hs.jobs]
    | some h =>
      have hp := (hs.holder h hh).2
      cases hpc : h.pc with
      | checkingTarget => simp [unfinished, hh, hs.jobs, Holder.job, hpc, Pc.job]
      | checkingPeer targetActive peer rest active =>
        simp [unfinished, hh, hs.jobs, Holder.job, hpc, Pc.job]
      | _ =>
        rw [hpc] at hp
        exact hp.elim
  have hkept : (s'.holder = none → s.holder = none) → Fails s s' e := by
    intro hn i b x hi
    rcases raised_step c s s' e i b x hs.owned hr hi with hold | ⟨pc, hh, hf⟩
    · exact Or.inl hold
    · simp [hn hf] at hh
  have hnot : ∀ h, s.holder = some h → ∀ pc, h.pc = pc → Checking s.units pc := by
    rintro h hh pc rfl
    exact (hs.holder h hh).2
  cases step_cases c s s' e hr with
  | called b hb =>
    exact ⟨⟨hown, hs.units, hs.log, hs.jobs, hs.holder⟩, hkept fun hf => hf,
      by simp [isCheck, stock, lockTarget, arrive]⟩
  | locked k b hf hw =>
    have hl : lockTarget s (.locked k) = some b := by simp [lockTarget, hw]
    refine ⟨⟨hown, hs.units, hs.log, hs.jobs, ?_⟩, hkept fun _ => hf, ?_⟩
    · intro h hh
      obtain rfl := Option.some.inj hh
      exact ⟨ha b hl, trivial⟩
    · simp [isCheck, stock, hf, hl, enter, checksLeft]
  | gaveUp k b hw =>
    exact ⟨⟨hown, hs.units, hs.log, hs.jobs, hs.holder⟩, hkept fun hf => hf,
      by simp [isCheck, stock, lockTarget, abandon]⟩
  | checked p h service n hh hc he hn =>
    obtain ⟨hsteady, hp⟩ := hs.holder h hh
    have hlook := looked_checked c s.units h.target s.now h.pc service p n hsteady hp hc he hn
    obtain ⟨hcalm, hle⟩ := calm_proceed c s₀ s h p n hs hh hown hlook
    exact ⟨hcalm, fails_proceed c s₀ s h p n hs hh hlook, by simpa [isCheck, lockTarget] using hle⟩
  | commanded p after left h j n hh hj he hn =>
    have hju : j ∈ unfinished s := by simp [unfinished, hh, hj]
    rw [hjobs] at hju
    cases hju
  | probed x h deadline n hh hp hn => exact (hnot h hh _ hp).elim
  | woke h deadline wake lastError n hh hp hw hn => exact (hnot h hh _ hp).elim
  | interrupted h hh hp =>
    rcases hp with ⟨deadline, hp⟩ | ⟨deadline, wake, lastError, hp⟩
    · exact (hnot h hh _ hp).elim
    · exact (hnot h hh _ hp).elim
  | moved service after j hj hjs hm =>
    rw [hjobs] at hj
    cases hj
  | jobEnded k j hk => simp [hs.jobs] at hk
  | ticked now hn =>
    exact ⟨⟨hown, hs.units, hs.log, hs.jobs, hs.holder⟩, hkept fun hf => hf,
      by simp [isCheck, stock, lockTarget]⟩

end Steps

def threeForRunning : List Event :=
  [.called gemmaGpu, .called gemmaGpu, .called gemmaGpu, .locked 0, .checked ok,
    .checked notActive, .locked 1, .checked (.timedOut none), .locked 2, .checked ok,
    .checked notActive]

end LlRouter.SteadyState
