import Mathlib.Data.List.Perm.Subperm
import LlRouter.PermitLedger
import LlRouter.RequestDispatch
import LlRouter.TransitionBudget

/-!
# How much work the requests of a run can make

The awaits of the transitions and those of the exchanges are bounded apart,
each in its own machine, and added up over the resolved requests. No
interleaving, and no way the services, the upstreams and the clients behave,
makes the router do more.
-/

set_option autoImplicit false

namespace LlRouter.RouterBudget
open ControlExit LabelledRun
open LlRouter.BackendConfig LlRouter.SystemdUnits LlRouter.EnsureActive
open LlRouter.TransitionBudget

section Exchanges
open LlRouter.PermitMachine

def phaseCost : Phase → ℕ
  | .acquiring => 3
  | .posting => 1
  | .handed => 2
  | .streaming => 1
  | .finished _ => 0

def exchangeSpends : Event → Bool
  | .task _ .chunk => false
  | .task _ _ => true
  | .arrive _ _ _ _ => false

def exchangeStock (s : State) : ℕ := (s.tasks.map (fun t => phaseCost t.phase)).sum

theorem phaseCost_le (p : Phase) : phaseCost p ≤ 3 := by
  cases p <;> simp [phaseCost]

theorem taskStep_cost (body : JsonValue.Fields) (p p' : Phase) (value value' : ℕ) (e : TaskEvent)
    (h : taskStep body p value e = some (p', value')) :
    (if exchangeSpends (.task 0 e) then 1 else 0)+phaseCost p' ≤ phaseCost p := by
  unfold taskStep at h
  split at h
  case h_1 value =>
    obtain ⟨rfl, rfl⟩ := Prod.mk.inj (Option.some.inj h)
    by_cases hw : wantsStream body <;> simp [hw, exchangeSpends, phaseCost]
  case h_8 => cases h
  all_goals
    obtain ⟨rfl, rfl⟩ := Prod.mk.inj (Option.some.inj h)
    simp [exchangeSpends, phaseCost]

theorem exchange_paid (s s' : State) (e : Event)
    (hs : step s e = some s') :
    (if exchangeSpends e then 1 else 0)+exchangeStock s'+3*s.tasks.length ≤
      exchangeStock s+3*s'.tasks.length := by
  cases e with
  | arrive b path body overrides =>
    obtain rfl : proxyRequest s b path body overrides = s' := Option.some.inj hs
    obtain ⟨sems, t, hp, -⟩ := proxyRequest_cases s b path body overrides
    have hle := phaseCost_le t.phase
    rw [hp]
    simp only [exchangeSpends, exchangeStock, List.map_append, List.sum_append, List.map_cons,
      List.map_nil, List.sum_cons, List.sum_nil, List.length_append, List.length_singleton,
      Bool.false_eq_true, if_false]
    omega
  | task i e =>
    obtain ⟨t, value, p, value', ht, -, hstep, rfl⟩ := (step_task s s' i e).mp hs
    have hsum := TaskPool.sum_map_set (fun t : Task => phaseCost t.phase) ht { t with phase := p }
    have hcost := taskStep_cost t.body t.phase p value value' e hstep
    have hsame : exchangeSpends (.task i e) = exchangeSpends (.task 0 e) := by cases e <;> rfl
    rw [hsame]
    simp only [exchangeStock, List.length_set] at hsum ⊢
    omega

theorem exchanges_le (es : List Event) (t : State)
    (hr : run step init es = some t) :
    tally step (fun _ e => exchangeSpends e) init es ≤
      3*t.tasks.length := by
  have hpaid := tally_paid step (fun _ _ => True) (fun _ => True)
    (fun _ e => exchangeSpends e) exchangeStock (fun s => 3*s.tasks.length)
    (fun m e n _ _ hn => ⟨trivial, exchange_paid m n e hn⟩)
    init t es (each_of_mem _ _ _ _ (fun _ _ => trivial)) trivial hr
  have hz : exchangeStock init = 0 := rfl
  have ha : init.tasks.length = 0 := rfl
  omega

end Exchanges

section Router
open LlRouter.RouterMachine LlRouter.RequestDispatch

/-- The events that end an await of the router's own code: not a new request,
a chunk passed on, a tick, or what systemd does by itself. -/
def ends : Event → Bool
  | .posted _ _ => false
  | .service e => TransitionBudget.spends e
  | .task i e => exchangeSpends (.task i e)

def requestCost (c : Config) (p : Backend × Request) : ℕ := 2*(peersInGroup c p.1).length+366

variable (c : Config) (u : Units) (es : List Event) (t : State)

theorem ends_split (s : State) (e : Event) :
    ends e = true → (serviceEvent c s e).any (fun e => TransitionBudget.spends e) = true ∨
      (permitEvent c s e).any (fun e => exchangeSpends e) = true := by
  cases e with
  | posted h json => simp [ends]
  | service e => exact fun h => Or.inl h
  | task i e => exact fun h => Or.inr h

/-- No more tasks than calls: each task has a call of its own. -/
theorem tasks_le_calls (hr : run (step c) (init u) es = some t) :
    t.permits.tasks.length ≤ t.services.calls.length := by
  obtain ⟨origin, hm⟩ := matched_run c u es t hr
  have hsub : origin ⊆ List.range t.services.calls.length := by
    intro i hi
    obtain ⟨b, hb⟩ := (hm.covers i).mp hi
    exact List.mem_range.mpr (TaskPool.index_lt hb)
  have hlen := (hm.once.subperm hsub).length_le
  rw [List.length_range] at hlen
  exact hm.length ▸ hlen

theorem allowed_eq (hr : run (step c) (init u) es = some t) :
    allowed c t.services+3*t.services.calls.length =
      ((es.filterMap (accepted c)).map (requestCost c)).sum := by
  obtain ⟨ha, hp⟩ := pending_run c u es t hr
  have hfst : (pending t).map Prod.fst =
      t.services.calls.map TransitionMachine.Call.target :=
    List.map_fst_zip (by rw [List.length_map, ha.requests])
  have hcalls : allowed c t.services = ((pending t).map (fun p => callCost c p.1)).sum := by
    have hmap : (pending t).map (fun p => callCost c p.1) =
        ((pending t).map Prod.fst).map (callCost c) := by simp
    rw [allowed, hmap, hfst, List.map_map]
    rfl
  have hlen : t.services.calls.length = (pending t).length := by
    rw [← List.length_map TransitionMachine.Call.target, ← hfst, List.length_map]
  rw [hcalls, hlen, ← hp]
  induction pending t with
  | nil => rfl
  | cons p rest ih =>
    have hone := callCost_eq c p.1
    simp only [List.map_cons, List.sum_cons, List.length_cons, requestCost] at ih ⊢
    omega

theorem ended_le (hr : run (step c) (init u) es = some t) :
    tally (step c) (fun _ e => ends e) (init u) es ≤
      allowed c t.services+3*t.services.calls.length := by
  have hsplit := tally_le_add (step c) (fun _ e => ends e)
    (fun s e => (serviceEvent c s e).any (fun e => TransitionBudget.spends e))
    (fun s e => (permitEvent c s e).any (fun e => exchangeSpends e)) (ends_split c) (init u) es
  have hservices := tally_simulated (step c) (TransitionMachine.step c) State.services
    (serviceEvent c) (fun _ e => TransitionBudget.spends e)
    (fun m e n hn => step_services c m n e hn) (init u) t es hr
  have hpermits := tally_simulated (step c) PermitMachine.step State.permits (permitEvent c)
    (fun _ e => exchangeSpends e) (fun m e n hn => step_permits c m n e hn) (init u) t es hr
  have hspent := spent_le c u _ t.services (services_run c (init u) t es hr)
  have hdone := exchanges_le _ t.permits (permits_run c (init u) t es hr)
  have hfew := tasks_le_calls c u es t hr
  simp only [init] at *
  omega

/-- However requests, answers, failures and cancellations follow each other,
the awaits that end are bounded by the requests that were resolved. -/
theorem work_bounded (hr : run (step c) (init u) es = some t) :
    tally (step c) (fun _ e => ends e) (init u) es ≤
      ((es.filterMap (accepted c)).map (requestCost c)).sum := by
  rw [← allowed_eq c u es t hr]
  exact ended_le c u es t hr

theorem stops_bounded :
    tally (step ServiceUptime.servedConfig) (fun _ e => ends e) (init ServiceUptime.gemmaUp)
        (ServiceUptime.inExchange++ServiceUptime.stopsOther) ≤
      (((ServiceUptime.inExchange++ServiceUptime.stopsOther).filterMap
        (accepted ServiceUptime.servedConfig)).map (requestCost ServiceUptime.servedConfig)).sum :=
  work_bounded ServiceUptime.servedConfig ServiceUptime.gemmaUp
    (ServiceUptime.inExchange++ServiceUptime.stopsOther) _ rfl

end Router
end LlRouter.RouterBudget
