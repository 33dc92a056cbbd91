import LlRouter.TransitionCalls

/-!
# At most one service of a group is on the GPU

A start is only issued when every other service of the group has been seen
down or was stopped by the same call. That keeps at most one of them up in
every run, provided `is-active` is never asked about a peer that is between
two states or has a job left behind by an earlier command.
-/

set_option autoImplicit false

namespace LlRouter.GroupExclusion
open ControlExit LabelledRun
open LlRouter.BackendConfig LlRouter.SystemdUnits LlRouter.EnsureActive
open LlRouter.TransitionMachine LlRouter.TransitionCalls

/-- An empty `mutex_group` is no group. -/
def InGroup (g : String) (b : Backend) : Prop := b.mutexGroup = some g ∧ g ≠ ""

def Service (c : Config) (g x : String) : Prop :=
  ∃ b ∈ c.backends, InGroup g b ∧ b.unit = x ∧ x ≠ ""

def Closed (c : Config) (g : String) : Prop :=
  ∀ b ∈ c.backends, Service c g b.unit → InGroup g b

def AtMostOne (c : Config) (g : String) (u : Units) : Prop :=
  ∀ x y, Service c g x → Service c g y → u x ≠ .inactive → u y ≠ .inactive → x = y

def Still (s : State) (x : String) : Prop := ∀ j ∈ s.leftJobs, j.service ≠ x

def answeredPeer (e : Event) (pc : Pc) : Option Backend :=
  match e, pc with
  | .checked p, .checkingPeer _ peer _ _ => if p.answers then some peer else none
  | _, _ => none

/-- A peer whose check is answered is active or inactive, with no job left behind. -/
def PeersAtRest (g : String) (s : State) (e : Event) : Prop :=
  ∀ h ∈ s.holder, InGroup g h.target → ∀ peer ∈ answeredPeer e h.pc,
    (s.units peer.unit).settled ∧ Still s peer.unit

instance (g : String) (b : Backend) : Decidable (InGroup g b) := inferInstanceAs (Decidable (_ ∧ _))

instance (s : State) (x : String) : Decidable (Still s x) :=
  inferInstanceAs (Decidable (∀ j ∈ s.leftJobs, _))

instance (g : String) (s : State) (e : Event) : Decidable (PeersAtRest g s e) :=
  inferInstanceAs (Decidable (∀ h ∈ s.holder, _))

/-- Up, on its way, or able to start without a new command. -/
def Loud (s : State) (x : String) : Prop := s.units x ≠ .inactive ∨ ⟨.start, x⟩ ∈ s.leftJobs

def Busy (s : State) (x : String) : Prop := s.units x ≠ .inactive ∨ ⟨.start, x⟩ ∈ unfinished s

def Phase (c : Config) (g : String) (s : State) (t : Backend) : Pc → Prop
  | .checkingPeer _ peer rest active => ∃ checked, peersInGroup c t = checked++peer::rest ∧
      (∀ b ∈ active, b ∈ peersInGroup c t) ∧ (InGroup g t → ∀ b ∈ checked,
        Still s b.unit ∧ (s.units b.unit = .inactive ∨ b ∈ active))
  | .stopping _ peer rest => (∀ b ∈ peer::rest, b ∈ peersInGroup c t) ∧
      (InGroup g t → ∀ b ∈ peersInGroup c t,
        Still s b.unit ∧ (s.units b.unit = .inactive ∨ b.unit ∈ (peer::rest).map Backend.unit))
  | .starting => InGroup g t → ∀ b ∈ peersInGroup c t, Still s b.unit ∧ s.units b.unit = .inactive
  | _ => True

def PhaseNext (c : Config) (g : String) (s : State) (t : Backend) : Next → Prop
  | .await pc => Phase c g s t pc
  | .done _ => True

structure Exclusion (c : Config) (g : String) (s : State) : Prop where
  owner : Owned s
  declared : Declared c s
  one : ∀ x y, Service c g x → Service c g y → Busy s x → Busy s y → x = y
  phase : ∀ h, s.holder = some h → Phase c g s h.target h.pc

section Phases
variable (c : Config) (g : String) (s : State) (t : Backend)

theorem phase_stopNext (targetActive : Bool) (rest : List Backend)
    (hm : ∀ b ∈ rest, b ∈ peersInGroup c t)
    (hp : InGroup g t → ∀ b ∈ peersInGroup c t,
      Still s b.unit ∧ (s.units b.unit = .inactive ∨ b.unit ∈ rest.map Backend.unit)) :
    PhaseNext c g s t (stopNext targetActive rest) := by
  cases rest with
  | cons peer rest => exact ⟨hm, hp⟩
  | nil =>
    cases targetActive with
    | true => trivial
    | false =>
      intro hg b hb
      have hdown := hp hg b hb
      simpa using hdown

theorem phase_checkNext (targetActive : Bool) (active checked rest : List Backend)
    (hc : peersInGroup c t = checked++rest) (hm : ∀ b ∈ active, b ∈ peersInGroup c t)
    (hp : InGroup g t → ∀ b ∈ checked,
      Still s b.unit ∧ (s.units b.unit = .inactive ∨ b ∈ active)) :
    PhaseNext c g s t (checkNext targetActive active rest) := by
  cases rest with
  | cons peer rest => exact ⟨checked, hc, hm, hp⟩
  | nil =>
    rw [List.append_nil] at hc
    rw [checkNext_nil]
    apply phase_stopNext c g s t targetActive active hm
    intro hg b hb
    obtain ⟨hstill, hdown⟩ := hp hg b (hc ▸ hb)
    exact ⟨hstill, hdown.imp_right List.mem_map_of_mem⟩

/-- A peer whose check was answered is known to be down, or among the active. -/
theorem known_concat (checked active : List Backend) (peer : Backend)
    (hset : (s.units peer.unit).settled) (hstill : Still s peer.unit)
    (hk : ∀ b ∈ checked, Still s b.unit ∧ (s.units b.unit = .inactive ∨ b ∈ active)) :
    ∀ b ∈ checked++[peer], Still s b.unit ∧ (s.units b.unit = .inactive ∨
      b ∈ if on s.units peer.unit then active++[peer] else active) := by
  intro b hb
  rw [List.mem_append, List.mem_singleton] at hb
  rcases hb with hold | rfl
  · have hmem : b ∈ active → b ∈ if on s.units peer.unit then active++[peer] else active := by
      intro hm
      split
      · exact List.mem_append_left _ hm
      · exact hm
    exact ⟨(hk b hold).1, (hk b hold).2.imp_right hmem⟩
  · constructor
    · exact hstill
    · cases hu : s.units b.unit with
      | inactive => exact Or.inl rfl
      | active => exact Or.inr (by simp [on, hu])
      | activating => simp [UnitState.settled, hu] at hset
      | deactivating => simp [UnitState.settled, hu] at hset

theorem phase_checked (now : ℚ) (pc : Pc) (service : String) (p : Process) (n : Next)
    (hph : Phase c g s t pc) (hc : pc.checks t = some service)
    (he : checkEnds p (s.units service))
    (ha : InGroup g t → ∀ peer ∈ answeredPeer (.checked p) pc,
      (s.units peer.unit).settled ∧ Still s peer.unit)
    (hn : resume c t now pc (.process p) = some n) : PhaseNext c g s t n := by
  cases checked_cases c t s.units now pc service p n hc he hn with
  | target hans => exact phase_checkNext c g s t _ [] [] _ rfl (by simp) (by simp)
  | peer targetActive peer rest active hans =>
    obtain ⟨checked, hpeers, hm, hknown⟩ := hph
    apply phase_checkNext c g s t targetActive _ (checked++[peer]) rest (by simp [hpeers])
    · intro b hb
      split at hb
      · rcases List.mem_append.mp hb with hold | hnew
        · exact hm b hold
        · rw [List.mem_singleton.mp hnew, hpeers]
          simp
      · exact hm b hb
    · intro hg
      obtain ⟨hset, hstill⟩ := ha hg peer (by simp [answeredPeer, hans])
      exact known_concat s checked active peer hset hstill (hknown hg)
  | failed pc service out hans ho => trivial

theorem phase_pollNext (now deadline : ℚ) (url lastError : String) :
    PhaseNext c g s t (pollNext url now deadline lastError) := by
  unfold pollNext
  split <;> trivial

theorem phase_startNext (now : ℚ) : PhaseNext c g s t (startNext t now) := by
  unfold startNext
  split
  · trivial
  · exact phase_pollNext c g s t now _ _ _

theorem phase_commanded (now : ℚ) (pc : Pc) (j : Job) (p : Process) (after : UnitState)
    (left : Bool) (n : Next) (hph : Phase c g s t pc) (hj : pc.job t = some j)
    (he : commandEnds j.verb p (s.units j.service) after left)
    (hn : resume c t now pc (.process p) = some n) :
    PhaseNext c g (afterCommand s j after left) t n := by
  cases commanded_cases c t s.units now pc j p after left n hj he hn with
  | stopped targetActive peer rest hs ha hl =>
    obtain ⟨hm, hknown⟩ := hph
    subst ha hl
    apply phase_stopNext
    · intro b hb
      exact hm b (List.mem_cons_of_mem _ hb)
    · intro hg b hb
      have hdown := (hknown hg b hb).2
      constructor
      · exact (hknown hg b hb).1
      · show Function.update s.units peer.unit .inactive b.unit = .inactive ∨ _
        by_cases hu : b.unit = peer.unit
        · exact Or.inl (by rw [hu, Function.update_self])
        · rw [Function.update_of_ne hu]
          simpa [hu] using hdown
  | started hs ha hl => exact phase_startNext c g _ t now
  | stopFailed targetActive peer rest out hs ho => trivial
  | startFailed out hs ho => trivial

theorem loud_commanded (h : Holder) (j : Job) (p : Process) (after : UnitState) (left : Bool)
    (hh : s.holder = some h) (hj : h.job = some j)
    (he : commandEnds j.verb p (s.units j.service) after left) (x : String)
    (hx : Loud (afterCommand s j after left) x) : Busy s x := by
  have hunf : unfinished s = j::s.leftJobs := by simp [unfinished, hh, hj]
  rcases hx with hu | hjob
  · simp only [afterCommand] at hu
    by_cases hxs : x = j.service
    · subst hxs
      rw [Function.update_self] at hu
      cases hv : j.verb with
      | start =>
        have hself : j = ⟨.start, j.service⟩ := by rw [← hv]
        apply Or.inr
        rw [hunf, ← hself]
        exact List.mem_cons_self
      | stop =>
        refine Or.inl fun hbefore => hu ?_
        rw [hv, hbefore] at he
        exact commandEnds_stop_inactive p after left he
    · rw [Function.update_of_ne hxs] at hu
      exact Or.inl hu
  · apply Or.inr
    rw [hunf]
    simp only [afterCommand] at hjob
    split at hjob
    · exact hjob
    · exact List.mem_cons_of_mem j hjob

theorem busy_moved (j : Job) (after : UnitState) (hj : j ∈ unfinished s)
    (hm : j.verb.moves (s.units j.service) after) (x : String)
    (hx : Busy { s with units := Function.update s.units j.service after } x) : Busy s x := by
  rcases hx with hu | hjob
  · by_cases hxs : x = j.service
    · subst hxs
      by_cases hbefore : s.units j.service = .inactive
      · -- only a start job takes the unit out of rest
        rw [hbefore] at hm
        have hv := moves_from_inactive j.verb after hm
        have hself : j = ⟨.start, j.service⟩ := by rw [← hv]
        exact Or.inr (hself ▸ hj)
      · exact Or.inl hbefore
    · simp only [Function.update_of_ne hxs] at hu
      exact Or.inl hu
  · exact Or.inr hjob

theorem phase_moved (pc : Pc) (service : String) (after : UnitState) (hph : Phase c g s t pc)
    (hs : (∃ j ∈ s.leftJobs, j.service = service) ∨ ∃ j, pc.job t = some j ∧ j.service = service) :
    Phase c g { s with units := Function.update s.units service after } t pc := by
  have hother : ∀ x, Still s x → (∀ j, pc.job t = some j → j.service ≠ x) → x ≠ service := by
    rintro x hstill hjob rfl
    rcases hs with ⟨j, hj, he⟩ | ⟨j, hj, he⟩
    · exact hstill j hj he
    · exact hjob j hj he
  cases pc with
  | checkingPeer targetActive peer rest active =>
    obtain ⟨checked, hpeers, hm, hknown⟩ := hph
    refine ⟨checked, hpeers, hm, fun hg b hb => ?_⟩
    obtain ⟨hstill, hdown⟩ := hknown hg b hb
    have hne := hother b.unit hstill (by simp [Pc.job])
    exact ⟨hstill, by simpa only [Function.update_of_ne hne] using hdown⟩
  | stopping targetActive peer rest =>
    obtain ⟨hm, hknown⟩ := hph
    refine ⟨hm, fun hg b hb => ?_⟩
    obtain ⟨hstill, hdown⟩ := hknown hg b hb
    constructor
    · exact hstill
    · by_cases hu : b.unit = peer.unit
      · exact Or.inr (by simp [hu])
      · have hne := hother b.unit hstill (by simpa [Pc.job] using Ne.symm hu)
        simpa only [Function.update_of_ne hne] using hdown
  | starting =>
    intro hg b hb
    obtain ⟨hstill, hdown⟩ := hph hg b hb
    have ht := (mem_peersInGroup c t b hb).2.2.2.2
    have hne := hother b.unit hstill (by simpa [Pc.job] using ht.symm)
    exact ⟨hstill, by simpa only [Function.update_of_ne hne] using hdown⟩
  | _ => trivial

end Phases

section Step
variable (c : Config) (g : String) (s : State)

theorem phase_proceed (h : Holder) (n : Next) (hph : PhaseNext c g s h.target n) :
    ∀ k, (proceed s h n).holder = some k → Phase c g (proceed s h n) k.target k.pc := by
  intro k hk
  cases n with
  | await pc =>
    cases hk
    cases pc <;> exact hph
  | done out => simp [proceed] at hk

/-- Before a start is issued no other service of the group is up or can start. -/
theorem loud_peer (t : Backend) (hg : InGroup g t)
    (hph : ∀ b ∈ peersInGroup c t, Still s b.unit ∧ s.units b.unit = .inactive) (x : String)
    (hx : Service c g x) (hne : x ≠ t.unit) : ¬ Loud s x := by
  obtain ⟨b, hb, hbg, rfl, hu⟩ := hx
  have hgroup : t.mutexGroup.getD "" ≠ "" := by simpa [hg.1] using hg.2
  have hmem := peersInGroup_of_mem c t b hb hgroup (hbg.1.trans hg.1.symm) hu hne
  obtain ⟨hstill, hdown⟩ := hph b hmem
  rintro (hup | hjob)
  · exact hup hdown
  · exact hstill _ hjob rfl

theorem one_proceed (hcl : Closed c g) (h : Holder) (n : Next) (ht : h.target ∈ c.backends)
    (hone : ∀ x y, Service c g x → Service c g y → Loud s x → Loud s y → x = y)
    (hph : PhaseNext c g s h.target n) :
    ∀ x y, Service c g x → Service c g y → Busy (proceed s h n) x → Busy (proceed s h n) y →
      x = y := by
  have hstart : ∀ x, Busy (proceed s h n) x →
      Loud s x ∨ n = .await .starting ∧ x = h.target.unit := by
    rintro x (hu | hjob)
    · cases n <;> exact Or.inl (Or.inl hu)
    · cases n with
      | done out => exact Or.inl (Or.inr hjob)
      | await pc =>
        cases pc with
        | starting =>
          simp only [unfinished, proceed, Option.bind_some, Holder.job, Pc.job, Option.toList_some,
            List.singleton_append, List.mem_cons, Job.mk.injEq, true_and] at hjob
          exact hjob.symm.imp Or.inr (fun he => ⟨rfl, he⟩)
        | _ => exact Or.inl (Or.inr (by simpa [unfinished, proceed, Holder.job, Pc.job] using hjob))
  have hmixed : ∀ x, Service c g x → n = .await .starting → Service c g h.target.unit →
      Loud s x → x = h.target.unit := by
    rintro x hx rfl ht' hl
    by_contra hne
    have hg := hcl h.target ht ht'
    exact loud_peer c g s h.target hg (hph hg) x hx hne hl
  intro x y hx hy hbx hby
  rcases hstart x hbx with hlx | ⟨hn, rfl⟩
  · rcases hstart y hby with hly | ⟨hn, rfl⟩
    · exact hone x y hx hy hlx hly
    · exact hmixed x hx hn hy hlx
  · rcases hstart y hby with hly | ⟨-, rfl⟩
    · exact (hmixed y hy hn hx hly).symm
    · rfl

theorem busy_of_loud (x : String) (hx : Loud s x) : Busy s x :=
  hx.imp_right (fun hj => List.mem_append_right _ hj)

theorem phase_fewer (t : Backend) (pc : Pc) (jobs : List Job) (hj : ∀ j ∈ jobs, j ∈ s.leftJobs)
    (hph : Phase c g s t pc) : Phase c g { s with leftJobs := jobs } t pc := by
  have hstill : ∀ x, Still s x → Still { s with leftJobs := jobs } x :=
    fun x h j hm => h j (hj j hm)
  cases pc with
  | checkingPeer targetActive peer rest active =>
    obtain ⟨checked, hpeers, hm, hknown⟩ := hph
    exact ⟨checked, hpeers, hm, fun hg b hb => (hknown hg b hb).imp_left (hstill b.unit)⟩
  | stopping targetActive peer rest =>
    exact ⟨hph.1, fun hg b hb => (hph.2 hg b hb).imp_left (hstill b.unit)⟩
  | starting => exact fun hg b hb => (hph hg b hb).imp_left (hstill b.unit)
  | _ => trivial

theorem exclusion_step (s' : State) (e : Event) (hcl : Closed c g) (ha : PeersAtRest g s e)
    (hi : Exclusion c g s) (hs : step c s e = some s') : Exclusion c g s' := by
  have ho := owned_step c s s' e hi.owner hs
  have hd := declared_step c s s' e hi.owner hi.declared hs
  have hdecl : ∀ h, s.holder = some h → h.target ∈ c.backends := by
    intro h hh
    exact (hi.declared h.index h.target .inside (hi.owner h hh)).1
  have hfewer : ∀ m, (∀ x, Busy m x → Busy s x) →
      ∀ x y, Service c g x → Service c g y → Busy m x → Busy m y → x = y :=
    fun m hm x y hx hy hbx hby => hi.one x y hx hy (hm x hbx) (hm y hby)
  have hproc : ∀ m h n, s.holder = some h → (∀ x, Loud m x → Busy s x) →
      PhaseNext c g m h.target n → Owned (proceed m h n) → Declared c (proceed m h n) →
      Exclusion c g (proceed m h n) := by
    intro m h n hh hm hn hown hdec
    refine ⟨hown, hdec, one_proceed c g m hcl h n (hdecl h hh) ?_ hn, phase_proceed c g m h n hn⟩
    intro x y hx hy hlx hly
    exact hi.one x y hx hy (hm x hlx) (hm y hly)
  cases step_cases c s s' e hs with
  | called b hb => exact ⟨ho, hd, hi.one, hi.phase⟩
  | locked i b hf hw =>
    refine ⟨ho, hd, hfewer _ fun x hx => ?_, fun h hh => ?_⟩
    · simpa [Busy, unfinished, enter, hf, Holder.job, Pc.job] using hx
    · cases hh
      trivial
  | gaveUp i b hw => exact ⟨ho, hd, hi.one, hi.phase⟩
  | checked p h service n hh hc he hn =>
    apply hproc s h n hh (busy_of_loud s) _ ho hd
    exact phase_checked c g s h.target s.now h.pc service p n (hi.phase h hh) hc he (ha h hh) hn
  | commanded p after left h j n hh hj he hn =>
    exact hproc (afterCommand s j after left) h n hh (loud_commanded s h j p after left hh hj he)
      (phase_commanded c g s h.target s.now h.pc j p after left n (hi.phase h hh) hj he hn) ho hd
  | probed x h deadline n hh hp hn =>
    obtain ⟨log, hlog⟩ := recordProbe_log s h x
    rw [hlog] at ho hd ⊢
    apply hproc { s with log := log } h n hh (busy_of_loud s) _ ho hd
    rw [hp] at hn
    cases hn
    split <;> trivial
  | woke h deadline wake lastError n hh hp hw hn =>
    apply hproc s h n hh (busy_of_loud s) _ ho hd
    rw [hp] at hn
    cases hn
    exact phase_pollNext c g s h.target s.now deadline _ lastError
  | interrupted h hh hp => exact hproc s h _ hh (busy_of_loud s) trivial ho hd
  | moved service after j hj hjs hm =>
    subst hjs
    refine ⟨ho, hd, hfewer _ (busy_moved s j after hj hm), fun h hh => ?_⟩
    apply phase_moved c g s h.target h.pc j.service after (hi.phase h hh)
    simp only [unfinished, List.mem_append, Option.mem_toList] at hj
    rcases hj with hjob | hleft
    · rw [hh] at hjob
      exact Or.inr ⟨j, hjob, rfl⟩
    · exact Or.inl ⟨j, hleft, rfl⟩
  | jobEnded k j hk =>
    have hsub : ∀ j ∈ s.leftJobs.eraseIdx k, j ∈ s.leftJobs := fun j h => List.mem_of_mem_eraseIdx h
    refine ⟨ho, hd, hfewer _ fun x hx => hx.imp_right fun hj => ?_, fun h hh => ?_⟩
    · simp only [unfinished, List.mem_append] at hj ⊢
      exact hj.imp_right (hsub _)
    · exact phase_fewer c g s h.target h.pc _ hsub (hi.phase h hh)
  | ticked now hn => exact ⟨ho, hd, hi.one, hi.phase⟩

end Step

theorem exclusion_init (c : Config) (g : String) (u : Units) (h1 : AtMostOne c g u) :
    Exclusion c g (init u) where
  owner := fun h hh => by simp [init] at hh
  declared := fun i b st hc => by simp [init] at hc
  one := by
    intro x y hx hy hbx hby
    have hup : ∀ z, Busy (init u) z → u z ≠ .inactive := by
      rintro z (hu | hj)
      · exact hu
      · simp [unfinished, init] at hj
    exact h1 x y hx hy (hup x hbx) (hup y hby)
  phase := fun h hh => by simp [init] at hh

/-- In every run that starts with at most one service of a closed group not
inactive, and in which every peer is at rest when its check is answered, at
most one service of the group is ever not inactive. -/
theorem group_exclusive (c : Config) (g : String) (u : Units) (es : List Event) (s : State)
    (hcl : Closed c g) (h1 : AtMostOne c g u)
    (ha : Each (step c) (PeersAtRest g) (init u) es)
    (hr : run (step c) (init u) es = some s) : AtMostOne c g s.units := by
  have hinv := invariant_run (step c) (PeersAtRest g) (Exclusion c g)
    (fun m e m' hae hm hs => exclusion_step c g m m' e hcl hae hm hs) (init u) s es ha
    (exclusion_init c g u h1) hr
  intro x y hx hy hux huy
  exact hinv.one x y hx hy (Or.inl hux) (Or.inl huy)

theorem gpuConfig_closed : Closed gpuConfig "gpu" := by
  intro b hb _
  simp only [gpuConfig, List.mem_cons, List.not_mem_nil, or_false] at hb
  rcases hb with rfl | rfl <;> decide

theorem onlyUp_atMostOne (c : Config) (g service : String) : AtMostOne c g (onlyUp service) := by
  have hup : ∀ z, onlyUp service z ≠ .inactive → z = service := by
    intro z hz
    by_contra hne
    simp [onlyUp, hne] at hz
  intro x y _ _ hx hy
  rw [hup x hx, hup y hy]

def failedThenSwapped : List Event :=
  [.called qwenGpu, .locked 0, .checked notActive, .checked ok,
    .commanded (.exited (some 1) "Job failed") .active false, .called qwenGpu, .locked 1,
    .checked notActive, .checked ok, .commanded ok .inactive false, .commanded ok .active false]

theorem exclusive_after_retry :
    ∃ s, run (step gpuConfig) (init (onlyUp gemmaGpu.unit)) failedThenSwapped = some s ∧
      AtMostOne gpuConfig "gpu" s.units :=
  ⟨_, rfl, group_exclusive gpuConfig "gpu" (onlyUp gemmaGpu.unit) failedThenSwapped _
    gpuConfig_closed (onlyUp_atMostOne gpuConfig "gpu" gemmaGpu.unit) (by decide) rfl⟩

/-- The stop of the running server times out and goes on; a second request
takes the server that is going down for one that is down. -/
def timedOutThenSwapped : List Event :=
  [.called qwenGpu, .locked 0, .checked notActive, .checked ok,
    .commanded (.timedOut none) .active true, .moved gemmaGpu.unit .deactivating,
    .called qwenGpu, .locked 1, .checked notActive, .checked notActive,
    .commanded ok .active false]

theorem both_on_gpu :
    Closed gpuConfig "gpu" ∧ AtMostOne gpuConfig "gpu" (onlyUp gemmaGpu.unit) ∧
    ∃ s, run (step gpuConfig) (init (onlyUp gemmaGpu.unit)) timedOutThenSwapped = some s ∧
      ¬ AtMostOne gpuConfig "gpu" s.units := by
  refine ⟨gpuConfig_closed, onlyUp_atMostOne gpuConfig "gpu" gemmaGpu.unit, _, rfl, fun h => ?_⟩
  have hg : Service gpuConfig "gpu" gemmaGpu.unit :=
    ⟨gemmaGpu, by decide, by decide, rfl, by decide⟩
  have hq : Service gpuConfig "gpu" qwenGpu.unit :=
    ⟨qwenGpu, by decide, by decide, rfl, by decide⟩
  exact absurd (h gemmaGpu.unit qwenGpu.unit hg hq (by decide) (by decide)) (by decide)

end LlRouter.GroupExclusion
