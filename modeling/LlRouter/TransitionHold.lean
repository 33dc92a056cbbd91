import LlRouter.TransitionTrack

/-!
# A call from taking the lock to freeing it

A call that holds the lock stays on its track under every event, of its own
or of the others, until it leaves. When it leaves by returning, or with every
command a success, the units and the commands are those of the whole
transition. When a command failed, a unit that was up and is no peer's is
still up.
-/

set_option autoImplicit false

namespace LlRouter.TransitionHold
open ControlExit LabelledRun
open LlRouter.BackendConfig LlRouter.SystemdUnits LlRouter.EnsureActive
open LlRouter.TransitionMachine LlRouter.TransitionTrack

/-- Call `i` holds the lock for `t`; it took it with units `u₀` and commands
`l₀`, and no job was left behind. -/
def Held (c : Config) (i : ℕ) (t : Backend) (u₀ : Units) (l₀ : List Entry) (s : State) : Prop :=
  ∃ pc, s.holder = some ⟨i, t, pc⟩ ∧ s.leftJobs = [] ∧
    Track c t u₀ l₀ s.units (commands s.log) pc

def succeeds : Event → Bool
  | .checked p => p.answers
  | .commanded p _ _ => p.succeeds
  | _ => true

def leavesJob : Event → Bool
  | .commanded _ _ left => left
  | _ => false

def IssuesNow (c : Config) (i : ℕ) (t : Backend) (u₀ : Units) (s s' : State) : Prop :=
  commands s'.log = commands s.log ∨ ∃ pc, s'.holder = some ⟨i, t, pc⟩ ∧
    Issues c t u₀ s'.units pc ∧ commands s'.log = issued t pc++commands s.log

inductive Progress (c : Config) (i : ℕ) (t : Backend) (u₀ : Units) (l₀ : List Entry)
    (s : State) (e : Event) (s' : State) : Prop
  | held (hh : Held c i t u₀ l₀ s') (hi : IssuesNow c i t u₀ s s')
  | completed (out : Exit Unit) (hf : s'.holder = none)
      (hc : s'.calls = s.calls.set i ⟨t, .ended out⟩) (hu : s'.units = final c t u₀)
      (hl : commands s'.log = transitionLog c t u₀++l₀)
      (hn : commands s'.log = commands s.log) (hj : s'.leftJobs = [])
  | failed (out : Exit Unit) (ho : out ≠ .returned ()) (hf : s'.holder = none)
      (hc : s'.calls = s.calls.set i ⟨t, .ended out⟩) (hs : succeeds e = false)
      (hk : ∀ x, u₀ x = .active → (∀ b ∈ peersInGroup c t, b.unit ≠ x) → s'.units x = .active)
      (hj : leavesJob e = false → s'.leftJobs = [])

/-- With the lock free and nothing left behind, only taking the lock changes
anything a call can see. -/
theorem free_step (c : Config) (s s' : State) (e : Event) (hf : s.holder = none)
    (hj : s.leftJobs = []) (hs : step c s e = some s') :
    (s'.holder = none ∧ s'.leftJobs = [] ∧ s'.units = s.units ∧ s'.log = s.log) ∨
    ∃ k b, e = .locked k ∧ s.calls[k]? = some ⟨b, .waiting⟩ ∧ s' = enter s k b := by
  have hnone : ∀ h, s.holder ≠ some h := by simp [hf]
  cases step_cases c s s' e hs with
  | called b hb => exact Or.inl ⟨hf, hj, rfl, rfl⟩
  | locked k b _ hw => exact Or.inr ⟨k, b, rfl, hw, rfl⟩
  | gaveUp k b hw => exact Or.inl ⟨hf, hj, rfl, rfl⟩
  | ticked now hn => exact Or.inl ⟨hf, hj, rfl, rfl⟩
  | moved service after j hju hjs hm => simp [unfinished, hf, hj] at hju
  | jobEnded k j hk => simp [hj] at hk
  | checked p h service n hh hc he hn => exact absurd hh (hnone h)
  | commanded p after left h j n hh hjob he hn => exact absurd hh (hnone h)
  | probed x h deadline n hh hp hn => exact absurd hh (hnone h)
  | woke h deadline wake lastError n hh hp hw hn => exact absurd hh (hnone h)
  | interrupted h hh hp => exact absurd hh (hnone h)

section Keeping
variable (c : Config) (t : Backend) (u₀ : Units) (l₀ : List Entry) (x : String)

/-- The job in flight belongs to a running peer, or to a target that was down. -/
theorem track_job_ne (u : Units) (l : List Entry) (pc : Pc) (j : Job)
    (ht : Track c t u₀ l₀ u l pc) (hj : pc.job t = some j) (hx : u₀ x = .active)
    (hp : ∀ b ∈ peersInGroup c t, b.unit ≠ x) : x ≠ j.service := by
  cases pc with
  | stopping targetActive peer rest =>
    obtain rfl : ⟨.stop, peer.unit⟩ = j := Option.some.inj hj
    obtain ⟨-, stopped, hact, -⟩ := ht
    have hm : peer ∈ activePeers c t u₀ := by simp [hact]
    exact (hp peer (List.mem_filter.mp hm).1).symm
  | starting =>
    obtain rfl : ⟨.start, t.unit⟩ = j := Option.some.inj hj
    intro he
    have hon := ht.1
    simp only at he
    simp [on, ← he, hx] at hon
  | _ => simp [Pc.job] at hj

theorem stopAll_keeps (stopped : List Backend) (hs : ∀ b ∈ stopped, b ∈ activePeers c t u₀)
    (hx : u₀ x = .active) (hp : ∀ b ∈ peersInGroup c t, b.unit ≠ x) :
    stopAll stopped u₀ x = .active := by
  have hn : x ∉ stopped.map Backend.unit := by
    intro hm
    obtain ⟨b, hb, he⟩ := List.mem_map.mp hm
    exact hp b (List.mem_filter.mp (hs b hb)).1 he
  rw [stopAll, if_neg hn, hx]

theorem final_keeps (hx : u₀ x = .active) (hp : ∀ b ∈ peersInGroup c t, b.unit ≠ x) :
    final c t u₀ x = .active := by
  by_cases he : x = t.unit
  · simp [final, he]
  · rw [final, Function.update_of_ne he]
    exact stopAll_keeps c t u₀ x _ (fun b hb => hb) hx hp

theorem track_keeps (u : Units) (l : List Entry) (pc : Pc) (ht : Track c t u₀ l₀ u l pc)
    (hx : u₀ x = .active) (hp : ∀ b ∈ peersInGroup c t, b.unit ≠ x) : u x = .active := by
  cases pc with
  | checkingTarget => rw [ht.1, hx]
  | checkingPeer targetActive peer rest active => rw [ht.1, hx]
  | stopping targetActive peer rest =>
    have hne := track_job_ne c t u₀ l₀ x u l _ _ ht rfl hx hp
    obtain ⟨-, stopped, hact, -, hu⟩ := ht
    rw [hu x hne]
    exact stopAll_keeps c t u₀ x stopped (fun b hb => by simp [hact, hb]) hx hp
  | starting =>
    have hne := track_job_ne c t u₀ l₀ x u l _ _ ht rfl hx hp
    rw [ht.2.2 x hne]
    exact stopAll_keeps c t u₀ x _ (fun b hb => hb) hx hp
  | probing deadline =>
    rw [ht.1]
    exact final_keeps c t u₀ x hx hp
  | sleeping deadline wake lastError =>
    rw [ht.1]
    exact final_keeps c t u₀ x hx hp

end Keeping

section Step
variable (c : Config) (i : ℕ) (t : Backend) (u₀ : Units) (l₀ : List Entry)

theorem progress_trackNext (s s₁ : State) (e : Event) (pc : Pc) (n : Next)
    (hj : s₁.leftJobs = []) (hl : commands s₁.log = commands s.log) (hc : s₁.calls = s.calls)
    (ht : TrackNext c t u₀ l₀ s₁.units (commands s₁.log) n) :
    Progress c i t u₀ l₀ s e (proceed s₁ ⟨i, t, pc⟩ n) := by
  cases n with
  | await pc' =>
    have hcmd : commands (issued t pc'++s₁.log) = issued t pc'++commands s₁.log :=
      commands_issued t pc' s₁.log
    have hlog : commands (proceed s₁ ⟨i, t, pc⟩ (.await pc')).log =
        issued t pc'++commands s₁.log := hcmd
    have htrack := ht.1
    rw [← hlog] at htrack
    rw [hl] at hlog
    exact .held ⟨pc', rfl, hj, htrack⟩ (Or.inr ⟨pc', rfl, ht.2, hlog⟩)
  | done out => exact .completed out rfl (by simp [proceed, hc]) ht.1 ht.2 hl hj

theorem progress_failed (s s₁ : State) (e : Event) (pc : Pc) (n : Next) (hn : Failed n)
    (hc : s₁.calls = s.calls) (hs : succeeds e = false)
    (hk : ∀ x, u₀ x = .active → (∀ b ∈ peersInGroup c t, b.unit ≠ x) → s₁.units x = .active)
    (hj : leavesJob e = false → s₁.leftJobs = []) :
    Progress c i t u₀ l₀ s e (proceed s₁ ⟨i, t, pc⟩ n) := by
  obtain ⟨out, rfl, ho⟩ := hn
  exact .failed out ho rfl (by simp [proceed, hc]) hs hk hj

/-- Every event keeps the holder on its track or lets it leave. -/
theorem held_step (s s' : State) (e : Event) (hh : Held c i t u₀ l₀ s)
    (hs : step c s e = some s') : Progress c i t u₀ l₀ s e s' := by
  obtain ⟨pc, hpc, hj, ht⟩ := hh
  cases step_cases c s s' e hs with
  | called b hb => exact .held ⟨pc, hpc, hj, ht⟩ (Or.inl rfl)
  | locked k b hf hw => simp [hpc] at hf
  | gaveUp k b hw => exact .held ⟨pc, hpc, hj, ht⟩ (Or.inl rfl)
  | ticked now hn => exact .held ⟨pc, hpc, hj, ht⟩ (Or.inl rfl)
  | jobEnded k j hk => simp [hj] at hk
  | moved service after j hju hjs hm =>
    have hjob : pc.job t = some j := by simpa [unfinished, hpc, hj, Holder.job] using hju
    subst hjs
    exact .held ⟨pc, hpc, hj, track_moved c t u₀ l₀ s.units _ pc j after ht hjob⟩ (Or.inl rfl)
  | checked p h service n hh hc he hn =>
    obtain rfl : ⟨i, t, pc⟩ = h := Option.some.inj (hpc.symm.trans hh)
    rcases track_checked c t u₀ l₀ s.units _ s.now pc service p n ht hc he hn with
      hnext | ⟨ha, hfail⟩
    · exact progress_trackNext c i t u₀ l₀ s s _ pc n hj rfl rfl hnext
    · exact progress_failed c i t u₀ l₀ s s _ pc n hfail rfl ha
        (fun x hx hp => track_keeps c t u₀ l₀ x s.units _ pc ht hx hp) (fun _ => hj)
  | commanded p after left h j n hh hjob he hn =>
    obtain rfl : ⟨i, t, pc⟩ = h := Option.some.inj (hpc.symm.trans hh)
    rcases track_commanded c t u₀ l₀ s.units _ s.now pc j p after left n ht hjob he hn with
      ⟨hleft, hnext⟩ | ⟨hs, hfail⟩
    · have hjobs : (afterCommand s j after left).leftJobs = [] := by
        simp [afterCommand, hleft, hj]
      exact progress_trackNext c i t u₀ l₀ s _ _ pc n hjobs rfl rfl hnext
    · refine progress_failed c i t u₀ l₀ s (afterCommand s j after left) _ pc n hfail rfl hs ?_ ?_
      · intro x hx hp
        have hne := track_job_ne c t u₀ l₀ x s.units _ pc j ht hjob hx hp
        simp only [afterCommand, Function.update_of_ne hne]
        exact track_keeps c t u₀ l₀ x s.units _ pc ht hx hp
      · intro hleft
        simp only [leavesJob] at hleft
        simp [afterCommand, hleft, hj]
  | probed x h deadline n hh hp hn =>
    obtain rfl : ⟨i, t, pc⟩ = h := Option.some.inj (hpc.symm.trans hh)
    obtain rfl : pc = .probing deadline := hp
    cases hn
    have hl := commands_recordProbe s ⟨i, t, .probing deadline⟩ x
    obtain ⟨log, hlog⟩ := recordProbe_log s ⟨i, t, .probing deadline⟩ x
    rw [hlog] at hl ⊢
    refine progress_trackNext c i t u₀ l₀ s _ _ _ _ hj hl rfl ?_
    rw [hl]
    split
    · exact ht
    · exact ⟨ht, trivial⟩
  | woke h deadline wake lastError n hh hp hw hn =>
    obtain rfl : ⟨i, t, pc⟩ = h := Option.some.inj (hpc.symm.trans hh)
    obtain rfl : pc = .sleeping deadline wake lastError := hp
    cases hn
    exact progress_trackNext c i t u₀ l₀ s s _ _ _ hj rfl rfl
      (track_pollNext c t u₀ l₀ s.units _ _ _ _ _ ht.1 ht.2)
  | interrupted h hh hp =>
    obtain rfl : ⟨i, t, pc⟩ = h := Option.some.inj (hpc.symm.trans hh)
    apply progress_trackNext c i t u₀ l₀ s s _ pc _ hj rfl rfl
    rcases hp with ⟨deadline, rfl⟩ | ⟨deadline, wake, lastError, rfl⟩
    · exact ht
    · exact ht

end Step
end LlRouter.TransitionHold
