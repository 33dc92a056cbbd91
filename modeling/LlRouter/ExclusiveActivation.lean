import LlRouter.TransitionCalls
import LlRouter.TransitionHold

/-!
# A normal return leaves the target alone in its group

One call is followed from its arrival to its return, from any units at rest
and with no other call taking the lock meanwhile. Other calls may arrive, wait
and give up. The units it leaves are those of the whole transition.
-/

set_option autoImplicit false

namespace LlRouter.ExclusiveActivation
open ControlExit LabelledRun
open LlRouter.BackendConfig LlRouter.SystemdUnits LlRouter.EnsureActive
open LlRouter.TransitionMachine LlRouter.TransitionCalls LlRouter.TransitionTrack
open LlRouter.TransitionHold

structure Exclusive (c : Config) (t : Backend) (u u' : Units) : Prop where
  up : u' t.unit = .active
  alone : t.mutexGroup.getD "" ≠ "" → ∀ b ∈ c.backends, b.mutexGroup = t.mutexGroup →
    b.unit ≠ "" → b.unit ≠ t.unit → u' b.unit = .inactive
  others : ∀ x, x ≠ t.unit → (∀ b ∈ c.backends, b.mutexGroup = t.mutexGroup → b.unit ≠ x) →
    u' x = u x
  ungrouped : t.mutexGroup.getD "" = "" → ∀ x, x ≠ t.unit → u' x = u x

theorem final_unchanged (c : Config) (t : Backend) (u : Units) (x : String) (hx : x ≠ t.unit)
    (hp : ∀ b ∈ peersInGroup c t, b.unit ≠ x) : final c t u x = u x := by
  have hn : x ∉ (activePeers c t u).map Backend.unit := by
    intro hm
    obtain ⟨b, hb, he⟩ := List.mem_map.mp hm
    exact hp b (List.mem_filter.mp hb).1 he
  rw [final, Function.update_of_ne hx, stopAll, if_neg hn]

theorem final_peer (c : Config) (t b : Backend) (u : Units) (hb : b ∈ peersInGroup c t)
    (hs : (u b.unit).settled) : final c t u b.unit = .inactive := by
  have hne := (mem_peersInGroup c t b hb).2.2.2.2
  rw [final, Function.update_of_ne hne, stopAll]
  split
  · rfl
  · next hm =>
    have hoff : on u b.unit = false := by
      by_contra hon
      rw [Bool.not_eq_false] at hon
      exact hm (List.mem_map.mpr ⟨b, List.mem_filter.mpr ⟨hb, hon⟩, rfl⟩)
    cases hu : u b.unit with
    | inactive => rfl
    | active => simp [on, hu] at hoff
    | activating => simp [UnitState.settled, hu] at hs
    | deactivating => simp [UnitState.settled, hu] at hs

theorem exclusive_final (c : Config) (t : Backend) (u : Units) (hs : ∀ x, (u x).settled) :
    Exclusive c t u (final c t u) where
  up := by simp [final]
  alone := by
    intro hg b hb hm hu ht
    exact final_peer c t b u (peersInGroup_of_mem c t b hb hg hm hu ht) (hs b.unit)
  others := by
    intro x hx ho
    apply final_unchanged c t u x hx
    intro b hb
    have hmem := mem_peersInGroup c t b hb
    exact ho b hmem.1 hmem.2.1
  ungrouped := by
    intro hg x hx
    apply final_unchanged c t u x hx
    intro b hb
    exact absurd hg (mem_peersInGroup c t b hb).2.2.1

inductive Stage (c : Config) (i : ℕ) (u : Units) (s : State) : Prop
  | before (hf : s.holder = none) (hj : s.leftJobs = []) (hu : s.units = u)
      (hr : ∀ t, s.calls[i]? = some ⟨t, .ended (.returned ())⟩ → t.unit = "")
  | within (t : Backend) (l₀ : List Entry) (hh : Held c i t u l₀ s)
  | after (t : Backend) (out : Exit Unit) (hf : s.holder = none) (hj : s.leftJobs = [])
      (hc : s.calls[i]? = some ⟨t, .ended out⟩) (hu : s.units = final c t u)
  | failed (t : Backend) (out : Exit Unit) (ho : out ≠ .returned ()) (hf : s.holder = none)
      (hc : s.calls[i]? = some ⟨t, .ended out⟩)

section Alone
variable (c : Config) (i : ℕ) (u : Units) (s s' : State) (e : Event)

theorem stage_step (hl : ∀ j, e = .locked j → j = i) (ho : Owned s) (hs : step c s e = some s')
    (hst : Stage c i u s) : Stage c i u s' := by
  cases hst with
  | before hf hj hu hr =>
    rcases free_step c s s' e hf hj hs with ⟨hf', hj', hu', -⟩ | ⟨k, b, he, hw, rfl⟩
    · apply Stage.before hf' hj' (hu'.trans hu)
      intro t ht
      rcases returned_step c s s' e i t ho hs ht with hold | ⟨-, hunit⟩ | ⟨pc, hpc, -⟩
      · exact hr t hold
      · exact hunit
      · simp [hf] at hpc
    · obtain rfl : k = i := hl k he
      exact .within b (commands s.log) ⟨.checkingTarget, rfl, hj, hu, rfl⟩
  | within t l₀ hh =>
    have hover : ∀ out, (s.calls.set i ⟨t, .ended out⟩)[i]? = some ⟨t, .ended out⟩ := by
      intro out
      obtain ⟨pc, hpc, -⟩ := hh
      exact owned_ended s ⟨i, t, pc⟩ out ho hpc
    cases held_step c i t u l₀ s s' e hh hs with
    | held hh' hi => exact .within t l₀ hh'
    | completed out hf hc hu hl hn hj => exact .after t out hf hj (by rw [hc, hover]) hu
    | failed out hout hf hc hsucc hk hj => exact .failed t out hout hf (by rw [hc, hover])
  | after t out hf hj hc hu =>
    have hc' := ended_stays c s s' e i t out ho hc hs
    rcases free_step c s s' e hf hj hs with ⟨hf', hj', hu', -⟩ | ⟨k, b, he, hw, rfl⟩
    · exact .after t out hf' hj' hc' (hu'.trans hu)
    · obtain rfl : k = i := hl k he
      simp [hc] at hw
  | failed t out hout hf hc =>
    have hc' := ended_stays c s s' e i t out ho hc hs
    have hf' : s'.holder = none := by
      cases step_cases c s s' e hs with
      | locked k b _ hw =>
        obtain rfl : k = i := hl k rfl
        simp [hc] at hw
      | checked p h service n hh _ he hn => simp [hf] at hh
      | commanded p after left h j n hh hjob he hn => simp [hf] at hh
      | probed x h deadline n hh hp hn => simp [hf] at hh
      | woke h deadline wake lastError n hh hp hw hn => simp [hf] at hh
      | interrupted h hh hp => simp [hf] at hh
      | _ => exact hf
    exact .failed t out hout hf' hc'

theorem stage_run (es : List Event) (hf : s.holder = none) (hj : s.leftJobs = [])
    (hi : s.calls.length ≤ i) (hl : ∀ j, .locked j ∈ es → j = i)
    (hr : run (step c) s es = some s') : Owned s' ∧ Stage c i s.units s' := by
  apply invariant_run (step c) (fun _ e => ∀ j, e = .locked j → j = i)
    (fun m => Owned m ∧ Stage c i s.units m) _ s s' es _ _ hr
  · intro m e m' he hm hs
    exact ⟨owned_step c m m' e hm.1 hs, stage_step c i s.units m m' e he hm.1 hs hm.2⟩
  · exact each_of_mem (step c) _ s es (fun e he j hj => hl j (hj ▸ he))
  · refine ⟨fun h hh => by simp [hf] at hh, .before hf hj rfl fun t ht => ?_⟩
    rw [List.getElem?_eq_none hi] at ht
    simp at ht

end Alone

/-- A call that arrives with the lock free and all units at rest, while no
other call takes the lock: when it returns, its target is up and alone. -/
theorem exclusive_after_return (c : Config) (s s' : State) (es : List Event) (i : ℕ)
    (t : Backend) (hf : s.holder = none) (hj : s.leftJobs = [])
    (hset : ∀ x, (s.units x).settled) (hi : s.calls.length ≤ i)
    (hl : ∀ j, .locked j ∈ es → j = i) (hr : run (step c) s es = some s')
    (hret : s'.calls[i]? = some ⟨t, .ended (.returned ())⟩) (ht : t.unit ≠ "") :
    Exclusive c t s.units s'.units := by
  obtain ⟨ho, hst⟩ := stage_run c i s s' es hf hj hi hl hr
  cases hst with
  | before _ _ _ hu => exact absurd (hu t hret) ht
  | within t' l₀ hh =>
    obtain ⟨pc, hpc, -⟩ := hh
    have hin := ho _ hpc
    simp [hret] at hin
  | after t' out _ _ hc hu =>
    rw [hret, Option.some.injEq, Call.mk.injEq] at hc
    rw [hu, ← hc.1]
    exact exclusive_final c t s.units hset
  | failed t' out hout _ hc =>
    rw [hret, Option.some.injEq, Call.mk.injEq, Status.ended.injEq] at hc
    exact absurd hc.2.symm hout

def swap : List Event :=
  [.called qwenGpu, .locked 0, .checked notActive, .checked ok, .commanded ok .inactive false,
    .commanded ok .active false]

theorem exclusive_after_swap :
    ∃ s', run (step gpuConfig) (init (onlyUp gemmaGpu.unit)) swap = some s' ∧
      Exclusive gpuConfig qwenGpu (onlyUp gemmaGpu.unit) s'.units := by
  refine ⟨_, rfl, exclusive_after_return gpuConfig (init (onlyUp gemmaGpu.unit)) _ swap 0 qwenGpu
    rfl rfl ?_ (Nat.le_refl 0) ?_ rfl rfl (by decide)⟩
  · intro x
    simp only [init, onlyUp]
    split <;> rfl
  · intro j hj
    simpa [swap] using hj

end LlRouter.ExclusiveActivation
