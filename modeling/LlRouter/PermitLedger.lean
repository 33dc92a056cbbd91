import LlRouter.LabelledRun
import LlRouter.PermitMachine

/-!
# The permit ledger

Free permits and requests in an exchange are counted against two kinds of
events: a non-streaming exchange that raised, and a response dropped before
its generator was advanced. Every other event conserves permits exactly. The
concurrency limit and the return of all permits are read off the same count.
-/

set_option autoImplicit false

namespace LlRouter.PermitLedger
open AssocDict ControlExit LabelledRun
open LlRouter.BackendConfig LlRouter.JsonValue LlRouter.PermitMachine

/-- `_proxy_sync` raised an `Exception`, so both it and its caller release. -/
def releasesTwice : TaskEvent → Bool
  | .upstream x => (jsonResponse x).isRaised
  | _ => false

/-- No code of the generator runs, so nobody releases. -/
def releasesNever : TaskEvent → Bool
  | .dropped => true
  | _ => false

def callEvent (n : String) (s : State) : Event → Option TaskEvent
  | .task i e => (s.tasks[i]?).bind (fun t => if t.backend.name = n then some e else none)
  | .arrive _ _ _ _ => none

def raisesNow (n : String) (s : State) (e : Event) : Bool := (callEvent n s e).any releasesTwice

def dropsNow (n : String) (s : State) (e : Event) : Bool := (callEvent n s e).any releasesNever

def syncRaised (n : String) (es : List Event) : ℕ := tally step (raisesNow n) init es

def droppedUnstarted (n : String) (es : List Event) : ℕ := tally step (dropsNow n) init es

def opens (n : String) : Event → Option Backend
  | .arrive b _ _ _ => if b.name = n ∧ 0 ≤ b.maxConcurrent then some b else none
  | .task _ _ => none

def creator (n : String) (es : List Event) : Option Backend := es.findSome? (opens n)

def limit (b : Option Backend) : ℕ := (b.map (fun b => b.maxConcurrent.toNat)).getD 0

def freePermits (n : String) (s : State) : ℕ := (s.semaphores.get? n).getD 0

/-- One event of one call: the value it leaves and the permit it holds. -/
theorem taskStep_balance (body : Fields) (p p' : Phase) (value value' : ℕ) (e : TaskEvent)
    (h : taskStep body p value e = some (p', value')) :
    value' + (if p'.holds then 1 else 0) + (if releasesNever e then 1 else 0) =
      value + (if p.holds then 1 else 0) + (if releasesTwice e then 1 else 0) := by
  unfold taskStep at h
  split at h
  case h_1 value =>
    obtain ⟨rfl, rfl⟩ := Prod.mk.inj (Option.some.inj h)
    by_cases hw : wantsStream body <;> simp [hw, Phase.holds, releasesNever, releasesTwice]
  case h_3 value x =>
    obtain ⟨rfl, rfl⟩ := Prod.mk.inj (Option.some.inj h)
    by_cases hx : (jsonResponse x).isRaised <;>
      simp [proxyRequestSync, proxySync, tryReraise_state, release, hx, Phase.holds,
        releasesNever, releasesTwice]
  case h_8 => exact absurd h (by simp)
  all_goals
    obtain ⟨rfl, rfl⟩ := Prod.mk.inj (Option.some.inj h)
    simp [Phase.holds, releasesNever, releasesTwice, generateEnd, release]

theorem holders_concat (n : String) (sems sems' : Dict String ℕ) (ts : List Task) (t : Task)
    (h : t.phase.holds = false) : holders n ⟨sems, ts++[t]⟩ = holders n ⟨sems', ts⟩ := by
  have ht : Task.holdsFor n t = false := by simp [Task.holdsFor, h]
  simp [holders, List.countP_append, ht]

theorem freePermits_set (n m : String) (sems : Dict String ℕ) (v : ℕ) (ts : List Task) :
    freePermits n ⟨sems.set m v, ts⟩ = if n = m then v else freePermits n ⟨sems, ts⟩ := by
  unfold freePermits
  rw [Dict.get?_set]
  split <;> rfl

/-- A call's event moves the books of its own name by its own balance, and no
other name's. -/
theorem task_balance (n : String) (s s' : State) (i : ℕ) (e : TaskEvent)
    (h : step s (.task i e) = some s') :
    (s'.semaphores.get? n).isSome = (s.semaphores.get? n).isSome ∧
    freePermits n s' + holders n s' + (if dropsNow n s (.task i e) then 1 else 0) =
      freePermits n s + holders n s + (if raisesNow n s (.task i e) then 1 else 0) := by
  obtain ⟨t, value, p, value', ht, hv, hs, rfl⟩ := (step_task s s' i e).mp h
  have hc := TaskPool.countP_set (Task.holdsFor n) ht { t with phase := p }
  have hb := taskStep_balance t.body t.phase p value value' e hs
  have hf := freePermits_set n t.backend.name s.semaphores value'
    (s.tasks.set i { t with phase := p })
  by_cases hn : t.backend.name = n
  · subst hn
    have hv0 : freePermits t.backend.name s = value := by simp [freePermits, hv]
    have he : callEvent t.backend.name s (.task i e) = some e := by simp [callEvent, ht]
    constructor
    · simp [hv]
    · rw [hf, if_pos rfl, hv0, dropsNow, raisesNow, he, Option.any_some, Option.any_some]
      simp only [Task.holdsFor, true_and, decide_eq_true_eq] at hc
      simp only [holders]
      omega
  · have he : callEvent n s (.task i e) = none := by simp [callEvent, ht, hn]
    have hne : n ≠ t.backend.name := fun h => hn h.symm
    constructor
    · simp [hne]
    · rw [hf, if_neg hne, dropsNow, raisesNow, he]
      simp only [Task.holdsFor, hn, false_and, decide_false] at hc
      simp only [holders, freePermits] at *
      simpa using hc

structure Balanced (n : String) (es : List Event) (s : State) : Prop where
  opened : (s.semaphores.get? n).isSome = (creator n es).isSome
  books : freePermits n s + holders n s + droppedUnstarted n es =
    limit (creator n es) + syncRaised n es

theorem creator_snoc (n : String) (es : List Event) (e : Event) :
    creator n (es++[e]) = (creator n es).or (opens n e) := by
  simp [creator, List.findSome?_append]

theorem balanced_task (n : String) (es : List Event) (m s : State) (i : ℕ) (e : TaskEvent)
    (hr : run step init es = some m) (hb : Balanced n es m)
    (h : step m (.task i e) = some s) : Balanced n (es++[.task i e]) s := by
  obtain ⟨ho, hk⟩ := task_balance n m s i e h
  have hc : creator n (es++[.task i e]) = creator n es := by simp [creator_snoc, opens]
  constructor
  · rw [hc, ho, hb.opened]
  · have hbooks := hb.books
    rw [hc, droppedUnstarted, syncRaised, tally_snoc step _ init m es _ hr,
      tally_snoc step _ init m es _ hr]
    simp only [droppedUnstarted, syncRaised] at hbooks
    omega

theorem arrive_semaphore (n : String) (m : State) (b : Backend) (path : String) (body : Fields)
    (overrides : Option Json) :
    ((proxyRequest m b path body overrides).semaphores.get? n = m.semaphores.get? n ∧
      ((m.semaphores.get? n).isSome ∨ opens n (.arrive b path body overrides) = none)) ∨
    (m.semaphores.get? n = none ∧ opens n (.arrive b path body overrides) = some b ∧
      (proxyRequest m b path body overrides).semaphores.get? n = some b.maxConcurrent.toNat) := by
  obtain ⟨sems, t, hp, -, -, hsems⟩ := proxyRequest_cases m b path body overrides
  rw [hp]
  by_cases hn : b.name = n
  · subst hn
    rcases hsems with ⟨rfl, hs | hm⟩ | ⟨hnone, hm, rfl⟩
    · exact Or.inl ⟨rfl, Or.inl hs⟩
    · exact Or.inl ⟨rfl, Or.inr (by simp [opens, Int.not_le.mpr hm])⟩
    · exact Or.inr ⟨hnone, by simp [opens, hm], by simp⟩
  · have hopens : opens n (.arrive b path body overrides) = none := by simp [opens, hn]
    have hne : n ≠ b.name := fun h => hn h.symm
    rcases hsems with ⟨rfl, -⟩ | ⟨-, -, rfl⟩
    · exact Or.inl ⟨rfl, Or.inr hopens⟩
    · exact Or.inl ⟨by simp [hne], Or.inr hopens⟩

theorem arrive_holders (n : String) (m : State) (b : Backend) (path : String) (body : Fields)
    (overrides : Option Json) : holders n (proxyRequest m b path body overrides) = holders n m := by
  obtain ⟨sems, t, hp, -, hh, -⟩ := proxyRequest_cases m b path body overrides
  rw [hp]
  exact holders_concat n sems m.semaphores m.tasks t hh

theorem balanced_arrive (n : String) (es : List Event) (m s : State) (b : Backend)
    (path : String) (body : Fields) (overrides : Option Json)
    (hr : run step init es = some m) (hb : Balanced n es m)
    (h : step m (.arrive b path body overrides) = some s) :
    Balanced n (es++[.arrive b path body overrides]) s := by
  have hd : droppedUnstarted n (es++[.arrive b path body overrides]) = droppedUnstarted n es := by
    rw [droppedUnstarted, tally_snoc step _ init m es _ hr]
    simp [dropsNow, callEvent, droppedUnstarted]
  have hy : syncRaised n (es++[.arrive b path body overrides]) = syncRaised n es := by
    rw [syncRaised, tally_snoc step _ init m es _ hr]
    simp [raisesNow, callEvent, syncRaised]
  obtain rfl : proxyRequest m b path body overrides = s := Option.some.inj h
  have hopen := hb.opened
  have hbooks := hb.books
  have hh := arrive_holders n m b path body overrides
  rcases arrive_semaphore n m b path body overrides with ⟨hsame, hs⟩ | ⟨hnone, ho, hnew⟩
  · have hc : creator n (es++[.arrive b path body overrides]) = creator n es := by
      rw [creator_snoc]
      rcases hs with hs | hs
      · rw [hopen] at hs
        obtain ⟨a, ha⟩ := Option.isSome_iff_exists.mp hs
        rw [ha, Option.some_or]
      · rw [hs, Option.or_none]
    constructor
    · rw [hsame, hc, hopen]
    · rw [hd, hy, hc, hh, freePermits, hsame]
      exact hbooks
  · have hc : creator n es = none := by simpa [hnone] using hopen.symm
    have hc' : creator n (es++[.arrive b path body overrides]) = some b := by
      rw [creator_snoc, hc, ho, Option.none_or]
    constructor
    · rw [hnew, hc', Option.isSome_some, Option.isSome_some]
    · rw [hd, hy, hc', hh, freePermits, hnew]
      simp only [freePermits, hnone, hc, limit, Option.map_none, Option.map_some,
        Option.getD_none, Option.getD_some] at hbooks ⊢
      omega

theorem run_balanced (n : String) (es : List Event) (s : State)
    (hr : run step init es = some s) : Balanced n es s := by
  apply history_run step (fun _ _ => True) init (Balanced n) ⟨rfl, rfl⟩ _ s es
    (each_of_mem step (fun _ => True) init es (fun _ _ => trivial)) hr
  intro es e m t hm _ hb ht
  cases e with
  | arrive b path body overrides => exact balanced_arrive n es m t b path body overrides hm hb ht
  | task i e => exact balanced_task n es m t i e hm hb ht

end LlRouter.PermitLedger
