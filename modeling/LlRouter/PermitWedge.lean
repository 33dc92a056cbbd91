import LlRouter.PermitLimits

/-!
# A name whose permits are lost

A dropped response takes its permit with it, and only an exchange that raises
brings one in on top. When the dropped responses have used up both the limit
and these, nothing that comes later is ever forwarded under the name again.
-/

set_option autoImplicit false

namespace LlRouter.PermitWedge
open AssocDict ControlExit LabelledRun
open LlRouter.BackendConfig LlRouter.PermitMachine LlRouter.PermitLedger LlRouter.PermitLimits

def Lost (n : String) (es : List Event) : Prop :=
  droppedUnstarted n es = limit (creator n es)+syncRaised n es

instance (n : String) (es : List Event) : Decidable (Lost n es) :=
  inferInstanceAs (Decidable (_ = _))

structure Wedged (n : String) (s : State) : Prop where
  opened : (s.semaphores.get? n).isSome
  free : freePermits n s = 0
  idle : holders n s = 0

theorem lost_iff (n : String) (es : List Event) (s : State) (hr : run step init es = some s) :
    Lost n es ↔ freePermits n s = 0 ∧ holders n s = 0 := by
  have hb := (run_balanced n es s hr).books
  unfold Lost
  omega

section Steps
variable (n : String) (s s' : State)

/-- Only a call that holds a permit can give two back. -/
theorem holder_of_raises (e : Event) (hs : step s e = some s') (hr : raisesNow n s e = true) :
    0 < holders n s := by
  cases e with
  | arrive b path body overrides => simp [raisesNow, callEvent] at hr
  | task i e =>
    obtain ⟨t, value, p, value', ht, -, hstep, -⟩ := (step_task s s' i e).mp hs
    simp only [raisesNow, callEvent, ht, Option.bind_some] at hr
    split at hr
    · next hn =>
      apply List.countP_pos_iff.mpr
      refine ⟨t, List.mem_of_getElem? ht, ?_⟩
      cases e with
      | upstream x =>
        cases hp : t.phase with
        | posting => simp [Task.holdsFor, hn, hp, Phase.holds]
        | _ => simp [hp, taskStep] at hstep
      | _ => simp [releasesTwice] at hr
    · simp at hr

theorem wedged_step (e : Event) (hw : Wedged n s) (hs : step s e = some s') : Wedged n s' := by
  cases e with
  | arrive b path body overrides =>
    obtain rfl : proxyRequest s b path body overrides = s' := Option.some.inj hs
    rcases arrive_semaphore n s b path body overrides with ⟨hsame, -⟩ | ⟨hnone, -, -⟩
    · constructor
      · rw [hsame]
        exact hw.opened
      · rw [freePermits, hsame]
        exact hw.free
      · rw [arrive_holders]
        exact hw.idle
    · have ho := hw.opened
      simp [hnone] at ho
  | task i e =>
    obtain ⟨hopen, hbooks⟩ := task_balance n s s' i e hs
    have hraise : raisesNow n s (.task i e) = false := by
      by_contra hn
      rw [Bool.not_eq_false] at hn
      have hpos := holder_of_raises n s s' _ hs hn
      have hidle := hw.idle
      omega
    have hfree := hw.free
    have hidle := hw.idle
    simp only [hraise, Bool.false_eq_true, if_false] at hbooks
    exact ⟨hopen ▸ hw.opened, by omega, by omega⟩

end Steps

/-- All permits of a name are lost exactly when no later request for it is ever
in an exchange, whatever comes. -/
theorem lost_iff_never_again (n : String) (es : List Event) (s : State) (b : Backend)
    (hr : run step init es = some s) (hc : creator n es = some b) :
    Lost n es ↔ ∀ fs t, run step s fs = some t → holders n t = 0 := by
  obtain ⟨rfl, -⟩ := creator_limit n es b hc
  rw [lost_iff b.name es s hr]
  have hopen : (s.semaphores.get? b.name).isSome := by
    rw [(run_balanced b.name es s hr).opened, hc]
    rfl
  constructor
  · rintro ⟨hfree, hidle⟩ fs t ht
    have hw := invariant_run step (fun _ _ => True) (Wedged b.name)
      (fun s e s' _ hw hs => wedged_step b.name s s' e hw hs) s t fs
      (each_of_mem _ _ _ _ (fun _ _ => trivial)) ⟨hopen, hfree, hidle⟩ ht
    exact hw.idle
  · intro hnever
    refine ⟨?_, hnever [] s rfl⟩
    obtain ⟨value, hv⟩ := Option.isSome_iff_exists.mp hopen
    cases value with
    | zero => simp [freePermits, hv]
    | succ free =>
      obtain ⟨t, ht, -, hh, -⟩ := oneMore_run b s free hv
      have hz := hnever _ t ht
      omega

theorem never_after_drop : ∃ s, run step init droppedStream = some s ∧
    (Lost "gemma-26b" droppedStream ↔
      ∀ fs t, run step s fs = some t → holders "gemma-26b" t = 0) :=
  ⟨_, rfl, lost_iff_never_again "gemma-26b" droppedStream _ oneSlot rfl rfl⟩

end LlRouter.PermitWedge
