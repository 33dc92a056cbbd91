import LlRouter.RivalClaims
import LlRouter.SerialTransitions

/-!
# The last call decides

A whole transition is a claim: it takes the target's unit and frees its
peers'. So the units that are up, whenever the lock is free, are those the
calls claimed in the order in which they took it, and for every unit the last
call concerned with it decides.
-/

set_option autoImplicit false

namespace LlRouter.LastCall
open ControlExit LabelledRun RivalClaims
open LlRouter.BackendConfig LlRouter.SystemdUnits LlRouter.EnsureActive
open LlRouter.TransitionMachine LlRouter.TransitionCalls LlRouter.TransitionTrack
open LlRouter.TransitionHold LlRouter.SerialTransitions

def up (u : Units) : Set String := {x | u x = .active}

def peerUnits (c : Config) (t : Backend) : Set String := {x | ∃ b ∈ peersInGroup c t, b.unit = x}

@[simp] theorem mem_up (u : Units) (x : String) : x ∈ up u ↔ u x = .active := Iff.rfl

@[simp] theorem mem_peerUnits (c : Config) (t : Backend) (x : String) :
    x ∈ peerUnits c t ↔ ∃ b ∈ peersInGroup c t, b.unit = x := Iff.rfl

instance concernsDecidable (c : Config) (x : String) :
    DecidablePred (Concerns Backend.unit (peerUnits c) x) := fun t =>
  decidable_of_iff (x = t.unit ∨ ∃ b ∈ peersInGroup c t, b.unit = x) Iff.rfl

def deciding (c : Config) (ts : List Backend) (x : String) : Option Backend :=
  lastConcerned Backend.unit (peerUnits c) x ts

section Claims
variable (c : Config) (u : Units)

theorem up_final (t : Backend) :
    up (final c t u) = claim Backend.unit (peerUnits c) (up u) t := by
  ext x
  by_cases ht : x = t.unit
  · simp [claim, final, ht]
  · have hstop : x ∈ (activePeers c t u).map Backend.unit ↔ x ∈ peerUnits c t ∧ u x = .active := by
      simp only [activePeers, List.mem_map, List.mem_filter, mem_peerUnits, on, decide_eq_true_eq]
      constructor
      · rintro ⟨b, ⟨hb, hon⟩, rfl⟩
        exact ⟨⟨b, hb, rfl⟩, hon⟩
      · rintro ⟨⟨b, hb, rfl⟩, hon⟩
        exact ⟨b, ⟨hb, hon⟩, rfl⟩
    simp only [mem_up, final, Function.update_of_ne ht, stopAll, claim, Set.mem_insert_iff, ht,
      false_or, Set.mem_sdiff]
    by_cases hx : x ∈ (activePeers c t u).map Backend.unit
    · simp [hx, (hstop.mp hx).1]
    · rw [if_neg hx]
      exact ⟨fun ha => ⟨ha, fun hp => hx (hstop.mpr ⟨hp, ha⟩)⟩, fun ha => ha.1⟩

inductive Claimed (es : List Event) (s : State) : Prop
  | free (hf : s.holder = none) (hj : s.leftJobs = [])
      (hu : up s.units = claims Backend.unit (peerUnits c) (up u) (lockOrder c (init u) es))
  | held (i : ℕ) (t : Backend) (ts : List Backend) (u₀ : Units) (l₀ : List Entry)
      (ho : lockOrder c (init u) es = ts++[t]) (hh : Held c i t u₀ l₀ s)
      (hu : up u₀ = claims Backend.unit (peerUnits c) (up u) ts)

theorem claimed_step (es : List Event) (e : Event) (s s' : State)
    (hr : run (step c) (init u) es = some s) (ha : succeeds e = true) (hp : Claimed c u es s)
    (hs : step c s e = some s') : Claimed c u (es++[e]) s' := by
  have hsnoc := lockOrder_snoc c u es s e hr
  cases hp with
  | free hf hj hu =>
    rcases free_step c s s' e hf hj hs with ⟨hf', hj', hu', -⟩ | ⟨k, t, rfl, hw, rfl⟩
    · rw [lockTarget_none c s s' e hs (Or.inr hf'), Option.toList_none, List.append_nil] at hsnoc
      exact .free hf' hj' (by rw [hsnoc, hu', hu])
    · have ht : lockTarget s (.locked k) = some t := by simp [lockTarget, hw]
      rw [ht] at hsnoc
      exact .held k t _ s.units (commands s.log) hsnoc ⟨.checkingTarget, rfl, hj, rfl, rfl⟩ hu
  | held i t ts u₀ l₀ ho hh hu =>
    have hheld : s.holder ≠ none := by
      obtain ⟨pc, hpc, -⟩ := hh
      simp [hpc]
    rw [lockTarget_none c s s' e hs (Or.inl hheld), Option.toList_none, List.append_nil] at hsnoc
    cases held_step c i t u₀ l₀ s s' e hh hs with
    | held hh' hi => exact .held i t ts u₀ l₀ (hsnoc.trans ho) hh' hu
    | completed out hf hc hunits hl hn hj =>
      apply Claimed.free hf hj
      rw [hsnoc, ho, claims_snoc, hunits, up_final, hu]
    | failed out hout hf hc hsucc hk hj => simp [ha] at hsucc

/-- In a run whose checks are answered and whose commands succeed, whenever the
lock is free: a unit is up if the last call concerned with it was for it, down
if that call was for a rival, and as it was at first if there was none. -/
theorem last_call_decides (es : List Event) (s : State)
    (ha : ∀ e ∈ es, succeeds e = true) (hr : run (step c) (init u) es = some s)
    (hf : s.holder = none) (x : String) :
    s.units x = .active ↔ (deciding c (lockOrder c (init u) es) x).elim
      (u x = .active) (fun t => t.unit = x) := by
  have hclaimed := history_run (step c) (fun _ e => succeeds e = true) (init u) (Claimed c u)
    (.free rfl rfl rfl)
    (fun es e m n hm hae hp hn => claimed_step c u es e m n hm hae hp hn)
    s es (each_of_mem _ _ _ _ ha) hr
  cases hclaimed with
  | free _ _ hu =>
    rw [← mem_up, hu]
    exact mem_claims_iff Backend.unit (peerUnits c) x (up u) _
  | held i t ts u₀ l₀ _ hh _ =>
    obtain ⟨pc, hpc, -⟩ := hh
    simp [hpc] at hf

end Claims

theorem last_of_both :
    ∃ s, run (step gpuConfig) (init (onlyUp gemmaGpu.unit)) bothWays = some s ∧ ∀ x,
      (s.units x = .active ↔
        (deciding gpuConfig (lockOrder gpuConfig (init (onlyUp gemmaGpu.unit)) bothWays) x).elim
          (onlyUp gemmaGpu.unit x = .active) (fun t => t.unit = x)) :=
  ⟨_, rfl, last_call_decides gpuConfig (onlyUp gemmaGpu.unit) bothWays _ (by decide) rfl rfl⟩

end LlRouter.LastCall
