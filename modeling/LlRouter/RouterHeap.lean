import LlRouter.SharedOverrides
import LlRouter.RequestDispatch

/-!
# The router over the heap of its bodies

In the router's model a body is a value. In the source it is a dictionary in
the heap it shares with the overrides: the handler makes it, `proxy_request`
merges into it, and the exchange reads it again when it sends it. The two run
in step, and what an exchange is to send is what its dictionary reads as.
-/

set_option autoImplicit false

namespace LlRouter.RouterHeap
open AssocDict DictHeap ControlExit LabelledRun
open LlRouter.JsonValue LlRouter.JsonValue.Json LlRouter.BackendConfig LlRouter.SystemdUnits
open LlRouter.RequestBody LlRouter.JsonCells LlRouter.MergeInPlace LlRouter.TransitionCalls
open LlRouter.RouterMachine LlRouter.RequestDispatch
open LlRouter.SharedOverrides (Table Body loadTable embeds found given Stands Shared)

abbrev Heap := SharedOverrides.State

section Joint
variable (c : Config) (limit : ℕ) (table : Table)

def mergeOnward (s : State) (i : ℕ) (h : Heap) : Option Heap :=
  match onward s i with
  | some (.arrive b _ _ _) =>
    match PermitMachine.getSemaphore s.permits.semaphores b with
    | .returned _ => SharedOverrides.step c limit table h (.completed i)
    -- `_get_semaphore` raises before the merge
    | _ => some h
  | _ => some h

def follow (s : State) (h : Heap) : Event → Option Heap
  | .posted handler (.returned (.obj client)) =>
    match handler.route c (.returned (.obj client)) with
    | .returned (.resolved b path fields overrides) =>
      (SharedOverrides.step c limit table h (.posted handler client)).bind
        (mergeOnward c limit table (withRequest s b ⟨path, fields, overrides⟩)
          s.services.calls.length)
    | _ => some h
  | .service e =>
    match TransitionMachine.step c s.services e, s.services.holder with
    | some services, some holder =>
      mergeOnward c limit table (withServices s services) holder.index h
    | _, _ => some h
  | _ => some h

def jointStep (p : State × Heap) (e : Event) : Option (State × Heap) :=
  (step c p.1 e).bind (fun s => (follow c limit table p.1 p.2 e).map (fun h => (s, h)))

end Joint

def Due (s : State) (i : ℕ) : Prop :=
  ∃ b, s.services.calls[i]? = some ⟨b, .ended (.returned ())⟩ ∧ 0 ≤ b.maxConcurrent

/-- Body `i` is that of request `i`. It is merged when its call has come back,
and no sooner. -/
structure Joint (c : Config) (table : Table) (base : ℕ) (P : ℕ → Prop) (s : State) (h : Heap) :
    Prop where
  aligned : Aligned s
  shared : ∃ R, Shared c table base R h
  length : h.bodies.length = s.requests.length
  given : ∀ (i : ℕ) body q, h.bodies[i]? = some body → s.requests[i]? = some q →
    given c body = completeBody q.body q.overrides
  merged : ∀ (i : ℕ) body, h.bodies[i]? = some body → body.out.isSome = true → Returned s i
  due : ∀ (i : ℕ) body, h.bodies[i]? = some body → P i → body.out.isSome = true

theorem route_inv (c : Config) (handler : Handler) (json : Exit Json) (b : Backend)
    (path : String) (fields : Fields) (ov : Option Json)
    (hr : handler.route c json = .returned (.resolved b path fields ov)) :
    ∃ client g, json = .returned (.obj client) ∧ found c handler client = some (b, g) ∧
      fields = withModel client g ∧
      ov = if embeds handler then none else some (c.overridesFor g) := by
  have hfound : ∀ client a, HasAlias client a →
      found c handler client = c.resolve (embeds handler) a := by
    intro client a ha
    have hmodel : (client.lookup "model").getD (.str "") = .str a := ha
    simp only [found, hmodel]
  cases handler with
  | chat =>
    obtain ⟨client, a, g, rfl, ha, hget, rfl, rfl⟩ := routeRequest_inv _ _ _ _ _ _ _ _ _ _ hr
    exact ⟨client, g, rfl, (hfound client a ha).trans hget, rfl, rfl⟩
  | completion =>
    obtain ⟨client, a, g, rfl, ha, hget, rfl, rfl⟩ := routeRequest_inv _ _ _ _ _ _ _ _ _ _ hr
    exact ⟨client, g, rfl, (hfound client a ha).trans hget, rfl, rfl⟩
  | embedding =>
    obtain ⟨client, a, g, rfl, ha, hget, rfl, rfl⟩ := routeRequest_inv _ _ _ _ _ _ _ _ _ _ hr
    exact ⟨client, g, rfl, (hfound client a ha).trans hget, rfl, rfl⟩

theorem aligned_goOn (s : State) (i : ℕ) (ha : Aligned s) : Aligned (goOn s i) := by
  constructor
  · rw [goOn_requests, goOn_services]
    exact ha.requests
  · rw [goOn_services]
    exact ha.owner

theorem returned_goOn (s : State) (i k : ℕ) : Returned (goOn s i) k ↔ Returned s k := by
  rw [Returned, goOn_services]
  rfl

theorem due_goOn (s : State) (i k : ℕ) : Due (goOn s i) k ↔ Due s k := by
  rw [Due, goOn_services]
  rfl

section Steps
variable (c : Config) (limit : ℕ) (table : Table) (base : ℕ) (s s' : State) (h : Heap)

theorem postBody_some (handler : Handler) (client : Fields) (g : String) :
    ∃ h' root, SharedOverrides.postBody h handler client g = some h' ∧
      h'.bodies = h.bodies++[⟨root, handler, client, g, none⟩] :=
  ⟨_, _, rfl, rfl⟩

theorem completed_some (i : ℕ) (body : Body) (hb : h.bodies[i]? = some body)
    (ho : body.out.isSome = false) : ∃ h' out,
      SharedOverrides.step c limit table h (.completed i) = some h' ∧
      h'.bodies = h.bodies.set i { body with out := some out } := by
  have hstep : SharedOverrides.step c limit table h (.completed i) =
      some (SharedOverrides.completion h i body
        (SharedOverrides.completeAt limit table h.heap body)) := by
    simp [SharedOverrides.step, hb, ho]
  cases hc : SharedOverrides.completeAt limit table h.heap body with
  | returned heap => exact ⟨_, .returned (), hc ▸ hstep, rfl⟩
  | raised e => exact ⟨_, .raised e, hc ▸ hstep, rfl⟩
  | cancelled => exact ⟨_, .cancelled, hc ▸ hstep, rfl⟩

theorem getSemaphore_some (sems : Dict String ℕ) (b : Backend) (hm : 0 ≤ b.maxConcurrent) :
    ∃ sems', PermitMachine.getSemaphore sems b = .returned sems' := by
  unfold PermitMachine.getSemaphore
  split
  · exact ⟨_, rfl⟩
  · rw [if_neg (not_lt.mpr hm)]
    exact ⟨_, rfl⟩

/-- Where nothing is due the heap may stay as it is. -/
theorem joint_kept (i : ℕ) (hj : Joint c table base (fun k => Due s k ∧ k ≠ i) s h)
    (hnot : ¬ Due s i) : Joint c table base (Due (goOn s i)) (goOn s i) h := by
  have hreq : (goOn s i).requests = s.requests := goOn_requests s i
  refine ⟨aligned_goOn s i hj.aligned, hj.shared, ?_, ?_, ?_, ?_⟩
  · rw [hreq]
    exact hj.length
  · rw [hreq]
    exact hj.given
  · intro k body hb ho
    exact (returned_goOn s i k).mpr (hj.merged k body hb ho)
  · intro k body hb hk
    have hk' := (due_goOn s i k).mp hk
    apply hj.due k body hb ⟨hk', ?_⟩
    rintro rfl
    exact hnot hk'

theorem joint_merged (i : ℕ) (body : Body) (out : Exit Unit) (h' : Heap)
    (hj : Joint c table base (fun k => Due s k ∧ k ≠ i) s h) (hret : Returned s i)
    (hbody : h.bodies[i]? = some body) (hshared : ∃ R, Shared c table base R h')
    (hbodies : h'.bodies = h.bodies.set i { body with out := some out }) :
    Joint c table base (Due (goOn s i)) (goOn s i) h' := by
  have hreq : (goOn s i).requests = s.requests := goOn_requests s i
  have hset : ∀ (k : ℕ) body', h'.bodies[k]? = some body' →
      k = i ∧ body' = { body with out := some out } ∨ k ≠ i ∧ h.bodies[k]? = some body' := by
    intro k body' hk
    rw [hbodies, TaskPool.getElem?_set_of_some hbody] at hk
    by_cases hki : k = i
    · rw [if_pos hki, Option.some.injEq] at hk
      exact Or.inl ⟨hki, hk.symm⟩
    · rw [if_neg hki] at hk
      exact Or.inr ⟨hki, hk⟩
  refine ⟨aligned_goOn s i hj.aligned, hshared, ?_, ?_, ?_, ?_⟩
  · rw [hbodies, List.length_set, hreq]
    exact hj.length
  · intro k body' q hk hq
    rw [hreq] at hq
    rcases hset k body' hk with ⟨rfl, rfl⟩ | ⟨-, hold⟩
    · exact hj.given k body q hbody hq
    · exact hj.given k body' q hold hq
  · intro k body' hk ho
    apply (returned_goOn s i k).mpr
    rcases hset k body' hk with ⟨rfl, -⟩ | ⟨-, hold⟩
    · exact hret
    · exact hj.merged k body' hold ho
  · intro k body' hk hdue
    rcases hset k body' hk with ⟨-, rfl⟩ | ⟨hne, hold⟩
    · rfl
    · exact hj.due k body' hold ⟨(due_goOn s i k).mp hdue, hne⟩

theorem joint_goOn (i : ℕ)
    (hd : ∀ g j, c.overridesByBasename.get? g = some j → depth j ≤ limit)
    (hj : Joint c table base (fun k => Due s k ∧ k ≠ i) s h)
    (hopen : ∀ body, h.bodies[i]? = some body → body.out.isSome = false) :
    ∃ h', mergeOnward c limit table s i h = some h' ∧
      Joint c table base (Due (goOn s i)) (goOn s i) h' := by
  rcases onward_cases s i hj.aligned.requests with ⟨b, q, hb, hq, hon⟩ | ⟨hn, hon⟩
  · cases hsem : PermitMachine.getSemaphore s.permits.semaphores b with
    | returned sems =>
      have hi : i < h.bodies.length := by
        rw [hj.length]
        exact TaskPool.index_lt hq
      have hbody := List.getElem?_eq_getElem hi
      obtain ⟨h', out, hstep, hbodies⟩ :=
        completed_some c limit table h i _ hbody (hopen _ hbody)
      have hshared := SharedOverrides.shared_step c table limit base h h' (.completed i) trivial
        hd hj.shared hstep
      exact ⟨h', by simp only [mergeOnward, hon, hsem, hstep],
        joint_merged c table base s h i _ out h' hj ⟨b, hb⟩ hbody hshared hbodies⟩
    | raised e =>
      refine ⟨h, by simp only [mergeOnward, hon, hsem], joint_kept c table base s h i hj ?_⟩
      rintro ⟨b', hb', hm⟩
      obtain rfl : b = b' := by
        rw [hb, Option.some.injEq, TransitionMachine.Call.mk.injEq] at hb'
        exact hb'.1
      obtain ⟨sems, hs⟩ := getSemaphore_some s.permits.semaphores b hm
      rw [hsem] at hs
      cases hs
    | cancelled =>
      unfold PermitMachine.getSemaphore at hsem
      split at hsem
      · cases hsem
      · split at hsem <;> cases hsem
  · refine ⟨h, by simp only [mergeOnward, hon], joint_kept c table base s h i hj ?_⟩
    rintro ⟨b, hb, -⟩
    exact hn ⟨b, hb⟩

theorem joint_same (t : State) (hr : t.requests = s.requests) (ha : Aligned t)
    (hret : ∀ k, Returned s k ↔ Returned t k) (hdue : ∀ k, Due t k → Due s k)
    (hj : Joint c table base (Due s) s h) : Joint c table base (Due t) t h := by
  refine ⟨ha, hj.shared, ?_, ?_, ?_, ?_⟩
  · rw [hr]
    exact hj.length
  · rw [hr]
    exact hj.given
  · intro k body hb ho
    exact (hret k).mp (hj.merged k body hb ho)
  · intro k body hb hk
    exact hj.due k body hb (hdue k hk)

theorem joint_posted (handler : Handler) (client : Fields) (g : String) (b : Backend) (q : Request)
    (h' : Heap) (root : ℕ) (hb : b ∈ c.backends) (hshared : ∃ R, Shared c table base R h')
    (hbodies : h'.bodies = h.bodies++[⟨root, handler, client, g, none⟩])
    (hq : given c ⟨root, handler, client, g, none⟩ = completeBody q.body q.overrides)
    (hj : Joint c table base (Due s) s h) :
    Joint c table base (fun k => Due (withRequest s b q) k ∧ k ≠ s.services.calls.length)
      (withRequest s b q) h' := by
  have hlast : h.bodies.length = s.services.calls.length := hj.length.trans hj.aligned.requests
  have hold : ∀ (k : ℕ) body, k ≠ s.services.calls.length → h'.bodies[k]? = some body →
      h.bodies[k]? = some body := by
    intro k body hne hk
    rw [hbodies, TaskPool.getElem?_concat, hlast, if_neg hne] at hk
    exact hk
  have hnew : ∀ body, h'.bodies[s.services.calls.length]? = some body →
      body = ⟨root, handler, client, g, none⟩ := by
    intro body hk
    rw [hbodies, TaskPool.getElem?_concat, hlast, if_pos rfl, Option.some.injEq] at hk
    exact hk.symm
  have howned := owned_step c s.services (TransitionMachine.arrive s.services b) (.called b)
    hj.aligned.owner (by simp [TransitionMachine.step, hb])
  refine ⟨⟨?_, howned⟩, hshared, ?_, ?_, ?_, ?_⟩
  · simp [withRequest, TransitionMachine.arrive, hj.aligned.requests]
  · rw [hbodies]
    simp [withRequest, hj.length]
  · intro k body q' hk hq'
    simp only [withRequest, TaskPool.getElem?_concat, hj.aligned.requests] at hq'
    by_cases hne : k = s.services.calls.length
    · rw [if_pos hne, Option.some.injEq] at hq'
      obtain rfl := hnew body (hne ▸ hk)
      rw [← hq']
      exact hq
    · rw [if_neg hne] at hq'
      exact hj.given k body q' (hold k body hne hk) hq'
  · intro k body hk ho
    by_cases hne : k = s.services.calls.length
    · obtain rfl := hnew body (hne ▸ hk)
      cases ho
    · obtain ⟨b', hb'⟩ := hj.merged k body (hold k body hne hk) ho
      exact ⟨b', withRequest_call s b q k _ hb'⟩
  · rintro k body hk ⟨⟨b', hb', hm⟩, hne⟩
    exact hj.due k body (hold k body hne hk)
      ⟨b', call_of_withRequest s b q k _ hne hb', hm⟩

theorem joint_services (services : TransitionMachine.State) (e : TransitionMachine.Event)
    (holder : TransitionMachine.Holder) (he : ∀ b, e ≠ .called b)
    (hv : TransitionMachine.step c s.services e = some services)
    (hh : s.services.holder = some holder) (hj : Joint c table base (Due s) s h) :
    Joint c table base (fun k => Due (withServices s services) k ∧ k ≠ holder.index)
      (withServices s services) h := by
  have howner := hj.aligned.owner
  have hl := calls_length c s.services services e he hv
  refine ⟨⟨hj.aligned.requests.trans hl.symm, owned_step c s.services services e howner hv⟩,
    hj.shared, hj.length, hj.given, ?_, ?_⟩
  · intro k body hk ho
    obtain ⟨b, hb⟩ := hj.merged k body hk ho
    exact ⟨b, ended_stays c s.services services e k b _ howner hb hv⟩
  · rintro k body hk ⟨⟨b, hb, hm⟩, hne⟩
    refine hj.due k body hk ⟨b, returned_before c s services e k b howner he hv hb ?_, hm⟩
    intro holder' hh'
    obtain rfl : holder = holder' := Option.some.inj (hh.symm.trans hh')
    exact hne

theorem holder_open (holder : TransitionMachine.Holder) (body : Body)
    (hh : s.services.holder = some holder) (hj : Joint c table base (Due s) s h)
    (hb : h.bodies[holder.index]? = some body) : body.out.isSome = false := by
  by_contra hn
  rw [Bool.not_eq_false] at hn
  obtain ⟨b, hret⟩ := hj.merged holder.index body hb hn
  rw [hj.aligned.owner holder hh] at hret
  simp at hret

/-- The bodies of an event have no key twice, as decoded text has. -/
def Parsed : Event → Prop
  | .posted _ (.returned body) => body.Unique
  | _ => True

theorem joint_step (e : Event) (he : Parsed e)
    (hd : ∀ g j, c.overridesByBasename.get? g = some j → depth j ≤ limit)
    (hj : Joint c table base (Due s) s h) (hs : step c s e = some s') :
    ∃ h', follow c limit table s h e = some h' ∧ Joint c table base (Due s') s' h' := by
  cases step_cases c s s' e hs with
  | answered handler json hr =>
    refine ⟨h, ?_, hj⟩
    unfold follow
    split
    · next client heq =>
      cases heq
      simp
    · next e' heq => cases heq
    · rfl
  | posted handler json b path fields overrides hb hr =>
    obtain ⟨client, g, rfl, hf, rfl, rfl⟩ := route_inv c handler json b path fields overrides hr
    obtain ⟨h', root, hpost, hbodies⟩ := postBody_some h handler client g
    have hstep : SharedOverrides.step c limit table h (.posted handler client) = some h' := by
      simp only [SharedOverrides.step, hf, hpost]
    have hshared := SharedOverrides.shared_step c table limit base h h' (.posted handler client) he
      hd hj.shared hstep
    have hmid := joint_posted c table base s h handler client g b
      ⟨path, withModel client g, if embeds handler then none else some (c.overridesFor g)⟩ h' root
      hb hshared hbodies rfl hj
    obtain ⟨h'', hmerge, hnext⟩ := joint_goOn c limit table base _ h' s.services.calls.length hd
      hmid (by
        intro body hk
        have hlast : h.bodies.length = s.services.calls.length :=
          hj.length.trans hj.aligned.requests
        rw [hbodies, TaskPool.getElem?_concat, if_pos hlast.symm, Option.some.injEq] at hk
        rw [← hk]
        rfl)
    exact ⟨h'', by simp only [follow, hr, hstep, Option.bind_some, hmerge], hnext⟩
  | free e services hv hne hfree =>
    have howner := hj.aligned.owner
    have hl := calls_length c s.services services e hne hv
    have hback : ∀ (k : ℕ) b, services.calls[k]? = some ⟨b, .ended (.returned ())⟩ →
        s.services.calls[k]? = some ⟨b, .ended (.returned ())⟩ := fun k b hb =>
      returned_before c s services e k b howner hne hv hb (fun h hh => by simp [hfree] at hh)
    refine ⟨h, by simp only [follow, hv, hfree], ?_⟩
    apply joint_same c table base s h (withServices s services) rfl
      ⟨hj.aligned.requests.trans hl.symm, owned_step c s.services services e howner hv⟩ ?_ ?_ hj
    · intro k
      constructor
      · rintro ⟨b, hb⟩
        exact ⟨b, ended_stays c s.services services e k b _ howner hb hv⟩
      · rintro ⟨b, hb⟩
        exact ⟨b, hback k b hb⟩
    · rintro k ⟨b, hb, hm⟩
      exact ⟨b, hback k b hb, hm⟩
  | held e services hv hne holder hh =>
    have hmid := joint_services c table base s h services e holder hne hv hh hj
    obtain ⟨h', hmerge, hnext⟩ := joint_goOn c limit table base _ h holder.index hd hmid
      (fun body hk => holder_open c table base s h holder body hh hj hk)
    exact ⟨h', by simp only [follow, hv, hh, hmerge], hnext⟩
  | task i e permits hp => exact ⟨h, rfl, ⟨⟨hj.aligned.requests, hj.aligned.owner⟩, hj.shared,
      hj.length, hj.given, hj.merged, hj.due⟩⟩

end Steps

def Sends (h : Heap) (i : ℕ) (task : PermitMachine.Task) : Prop :=
  ∃ body, h.bodies[i]? = some body ∧
    (Reads asObject h.heap Set.univ (.ref body.root) (.obj task.body) ∨
      ∃ e, body.out = some (.raised e) ∧ task.phase = .finished (.refused e))

section Runs
variable (c : Config) (limit : ℕ)

theorem joint_init (u : Units) (hu : ∀ p ∈ c.overridesByBasename.items, p.2.Unique) :
    Joint c (loadTable c).1 (loadTable c).2.length (Due (init u)) (init u)
      (SharedOverrides.init c) := by
  have hstart := SharedOverrides.loadTable_reads c hu
  refine ⟨aligned_init u, ⟨_, SharedOverrides.shared_init c _ _ hstart⟩, rfl, ?_, ?_, ?_⟩
  · intro k body q hb
    simp [SharedOverrides.init] at hb
  · intro k body hb
    simp [SharedOverrides.init] at hb
  · intro k body hb
    simp [SharedOverrides.init] at hb

theorem joint_run (u : Units) (es : List Event) (t : State)
    (hu : ∀ p ∈ c.overridesByBasename.items, p.2.Unique ∧ depth p.2 ≤ limit)
    (he : ∀ e ∈ es, Parsed e) (hr : run (step c) (init u) es = some t) :
    ∃ h, run (jointStep c limit (loadTable c).1) (init u, SharedOverrides.init c) es =
        some (t, h) ∧
      Joint c (loadTable c).1 (loadTable c).2.length (Due t) t h := by
  have hd : ∀ g j, c.overridesByBasename.get? g = some j → depth j ≤ limit := fun g j hg =>
    (hu (g, j) ((mem_iff_lookup _ c.overridesByBasename.nodup g j).mpr hg)).2
  apply history_run (step c) (fun _ e => Parsed e) (init u) (fun es m => ∃ h,
    run (jointStep c limit (loadTable c).1) (init u, SharedOverrides.init c) es = some (m, h) ∧
      Joint c (loadTable c).1 (loadTable c).2.length (Due m) m h) ?_ ?_ t es
    (each_of_mem _ _ _ _ he) hr
  · exact ⟨_, rfl, joint_init c u (fun p hp => (hu p hp).1)⟩
  · rintro es e m n - hparsed ⟨h, hrun, hj⟩ hn
    obtain ⟨h', hf, hnext⟩ := joint_step c limit _ _ m n h e hparsed hd hj hn
    refine ⟨h', (run_snoc _ _ _ _ _).mpr ⟨(m, h), hrun, ?_⟩, hnext⟩
    simp only [jointStep, hn, hf, Option.bind_some, Option.map_some]

theorem joint_sends (table : Table) (base : ℕ) (s : State) (h : Heap) (i : ℕ)
    (task : PermitMachine.Task) (hm : 0 ≤ task.backend.maxConcurrent) (ht : TaskOf s i task)
    (hj : Joint c table base (Due s) s h) : Sends h i task := by
  obtain ⟨b, q, hcall, hq, rfl, hp⟩ := ht
  have hi : i < h.bodies.length := by
    rw [hj.length]
    exact TaskPool.index_lt hq
  have hbody := List.getElem?_eq_getElem hi
  have hgiven := hj.given i _ q hbody hq
  have hout := hj.due i _ hbody ⟨_, hcall, hm⟩
  obtain ⟨R, hshared⟩ := hj.shared
  have hstands := hshared.bodies i _ hbody
  refine ⟨_, hbody, ?_⟩
  unfold Stands at hstands
  cases ho : h.bodies[i].out with
  | none => simp [ho] at hout
  | some out =>
    rw [ho] at hstands
    cases out with
    | returned v =>
      obtain ⟨forwarded, hg, hreads⟩ := hstands
      cases hp with
      | sent forwarded' hc hb hurl =>
        obtain rfl : forwarded = forwarded' :=
          Exit.returned.inj (hg.symm.trans (hgiven.trans hc))
        exact Or.inl (hb ▸ reads_mono _ h.heap _ _ _ _ (Set.subset_univ _) hreads)
      | failed e hc hphase => cases hg.symm.trans (hgiven.trans hc)
      | unlimited e hneg hphase => omega
    | raised e =>
      cases hp with
      | sent forwarded hc hb hurl => cases hstands.symm.trans (hgiven.trans hc)
      | failed e' hc hphase =>
        obtain rfl : e = e' := Exit.raised.inj (hstands.symm.trans (hgiven.trans hc))
        exact Or.inr ⟨e, rfl, hphase⟩
      | unlimited e' hneg hphase => omega
    | cancelled => exact hstands.elim

/-- Every run of the router runs over the heap too, and at any time the body a
task has to send is what its request's dictionary reads as, although all
dictionaries share the overrides' cells and are merged into in place. -/
theorem tasks_send_bodies (u : Units) (es : List Event) (t : State)
    (hu : ∀ p ∈ c.overridesByBasename.items, p.2.Unique ∧ depth p.2 ≤ limit)
    (he : ∀ e ∈ es, Parsed e) (hr : run (step c) (init u) es = some t) :
    ∃ h, run (jointStep c limit (loadTable c).1) (init u, SharedOverrides.init c) es =
        some (t, h) ∧
      ∃ origin, Matched (Returned t) t origin ∧ ∀ (j i : ℕ) task, origin[j]? = some i →
        t.permits.tasks[j]? = some task → 0 ≤ task.backend.maxConcurrent → Sends h i task := by
  obtain ⟨h, hrun, hj⟩ := joint_run c limit u es t hu he hr
  obtain ⟨origin, hm⟩ := matched_run c u es t hr
  refine ⟨h, hrun, origin, hm, ?_⟩
  intro j i task hi htask hpos
  exact joint_sends c _ _ t h i task hpos (hm.tasks j i task hi htask) hj

end Runs

def twoPosted : List Event :=
  [.posted .chat (.returned (.obj [("model", .str "gemma-31b-cpu")])),
    .posted .completion (.returned (.obj [("model", .str "gemma-31b-cpu"),
      ("chat_template_kwargs", .obj [("enable_thinking", .bool true)])])),
    .task 0 .acquired]

theorem two_bodies_sent : ∃ t, run (step gemmaConfig) (init fun _ => .inactive) twoPosted =
      some t ∧ ∃ h, run (jointStep gemmaConfig 2 (loadTable gemmaConfig).1)
          (init fun _ => .inactive, SharedOverrides.init gemmaConfig) twoPosted = some (t, h) ∧
        ∃ origin, Matched (Returned t) t origin ∧ ∀ (j i : ℕ) task, origin[j]? = some i →
          t.permits.tasks[j]? = some task → 0 ≤ task.backend.maxConcurrent → Sends h i task := by
  have hitems : gemmaConfig.overridesByBasename.items =
      [("gemma-4-31B.gguf", .obj gemmaDefaults)] := by rfl
  exact ⟨_, rfl, tasks_send_bodies gemmaConfig 2 (fun _ => .inactive) twoPosted _
    (by simp [hitems, gemmaDefaults, Json.Unique, UniqueFields, keys, depth, depthFields])
    (by simp [twoPosted, Parsed, Json.Unique, UniqueFields, keys]) rfl⟩

end LlRouter.RouterHeap
