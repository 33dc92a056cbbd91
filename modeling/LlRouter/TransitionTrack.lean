import LlRouter.TransitionMachine

/-!
# What one transition does to the units

While a call holds the lock and no job is left over from an earlier command,
only the command it awaits can move a unit. So its position in the code and
the units at the moment it took the lock determine every other unit, and a
normal return leaves exactly the stopped peers down and the target up.
-/

set_option autoImplicit false

namespace LlRouter.TransitionTrack
open ControlExit LabelledRun
open LlRouter.BackendConfig LlRouter.SystemdUnits LlRouter.EnsureActive
open LlRouter.TransitionMachine

def activePeers (c : Config) (t : Backend) (u : Units) : List Backend :=
  (peersInGroup c t).filter (fun b => on u b.unit)

def stopAll (bs : List Backend) (u : Units) : Units :=
  fun x => if x ∈ bs.map Backend.unit then .inactive else u x

def final (c : Config) (t : Backend) (u : Units) : Units :=
  Function.update (stopAll (activePeers c t u) u) t.unit .active

def stops (bs : List Backend) : List Entry := (bs.map (fun b => .stopping b.unit)).reverse

def transitionLog (c : Config) (t : Backend) (u : Units) : List Entry :=
  (if on u t.unit then [] else [.starting t.unit]) ++ stops (activePeers c t u)

def isCommand : Entry → Bool
  | .stopping _ => true
  | .starting _ => true
  | .healthy _ _ => false

def commands (log : List Entry) : List Entry := log.filter isCommand

/-- The units `u` and the commands `l` of a call suspended at a position, from
the units `u₀` and the commands `l₀` at the moment it took the lock. The unit
of a command in flight is left open. -/
def Track (c : Config) (t : Backend) (u₀ : Units) (l₀ : List Entry) (u : Units)
    (l : List Entry) : Pc → Prop
  | .checkingTarget => u = u₀ ∧ l = l₀
  | .checkingPeer targetActive peer rest active =>
    u = u₀ ∧ l = l₀ ∧ targetActive = on u₀ t.unit ∧ ∃ checked,
      peersInGroup c t = checked++peer::rest ∧ active = checked.filter (fun b => on u₀ b.unit)
  | .stopping targetActive peer rest =>
    targetActive = on u₀ t.unit ∧ ∃ stopped, activePeers c t u₀ = stopped++peer::rest ∧
      l = stops (stopped++[peer])++l₀ ∧ ∀ x, x ≠ peer.unit → u x = stopAll stopped u₀ x
  | .starting =>
    on u₀ t.unit = false ∧ l = .starting t.unit::stops (activePeers c t u₀)++l₀ ∧
      ∀ x, x ≠ t.unit → u x = stopAll (activePeers c t u₀) u₀ x
  | .probing _ => u = final c t u₀ ∧ l = transitionLog c t u₀++l₀
  | .sleeping _ _ _ => u = final c t u₀ ∧ l = transitionLog c t u₀++l₀

def Issues (c : Config) (t : Backend) (u₀ u : Units) : Pc → Prop
  | .stopping _ peer rest => ∃ stopped, activePeers c t u₀ = stopped++peer::rest ∧
      u peer.unit = stopAll stopped u₀ peer.unit
  | .starting => on u₀ t.unit = false ∧ u t.unit = u₀ t.unit
  | _ => True

def TrackNext (c : Config) (t : Backend) (u₀ : Units) (l₀ : List Entry) (u : Units)
    (l : List Entry) : Next → Prop
  | .await pc => Track c t u₀ l₀ u (issued t pc++l) pc ∧ Issues c t u₀ u pc
  | .done _ => u = final c t u₀ ∧ l = transitionLog c t u₀++l₀

theorem target_not_peer (c : Config) (t : Backend) (u : Units) (b : Backend)
    (h : b ∈ activePeers c t u) : b.unit ≠ t.unit :=
  (mem_peersInGroup c t b (List.mem_filter.mp h).1).2.2.2.2

theorem target_not_stopped (c : Config) (t : Backend) (u : Units) :
    t.unit ∉ (activePeers c t u).map Backend.unit := by
  intro hm
  obtain ⟨b, hb, he⟩ := List.mem_map.mp hm
  exact target_not_peer c t u b hb he

theorem final_of_on (c : Config) (t : Backend) (u : Units) (h : on u t.unit) :
    final c t u = stopAll (activePeers c t u) u := by
  have hn := target_not_stopped c t u
  have ha : u t.unit = .active := by simpa [on] using h
  rw [final, Function.update_eq_self_iff, stopAll, if_neg hn, ha]

theorem stopAll_nil (u : Units) : stopAll [] u = u := by
  ext x
  simp [stopAll]

theorem commands_issued (t : Backend) (pc : Pc) (log : List Entry) :
    commands (issued t pc++log) = issued t pc++commands log := by
  cases pc <;> rfl

theorem commands_recordProbe (s : State) (h : Holder) (x : Probe) :
    commands (recordProbe s h x).log = commands s.log := by
  cases x with
  | answered status =>
    simp only [recordProbe]
    split <;> simp [commands, isCommand]
  | failed cls => rfl

section Straight
variable (c : Config) (t : Backend) (u₀ : Units) (l₀ : List Entry)

theorem track_stopNext (targetActive : Bool) (stopped rest : List Backend)
    (ha : targetActive = on u₀ t.unit) (hp : activePeers c t u₀ = stopped++rest) :
    TrackNext c t u₀ l₀ (stopAll stopped u₀) (stops stopped++l₀)
      (stopNext targetActive rest) := by
  cases rest with
  | cons peer rest =>
    exact ⟨⟨ha, stopped, hp, by simp [issued, stops], fun x _ => rfl⟩, stopped, hp, rfl⟩
  | nil =>
    rw [List.append_nil] at hp
    cases hon : on u₀ t.unit with
    | true =>
      simp only [stopNext, ha, hon, if_true]
      exact ⟨by rw [final_of_on c t u₀ hon, hp], by simp [transitionLog, hon, hp]⟩
    | false =>
      have hn := target_not_stopped c t u₀
      rw [hp] at hn
      simp only [stopNext, ha, hon, Bool.false_eq_true, if_false]
      exact ⟨⟨hon, by simp [issued, hp], fun x _ => by rw [hp]⟩, hon, if_neg hn⟩

theorem track_checkNext (targetActive : Bool) (active checked rest : List Backend)
    (ha : targetActive = on u₀ t.unit) (hp : peersInGroup c t = checked++rest)
    (hc : active = checked.filter (fun b => on u₀ b.unit)) :
    TrackNext c t u₀ l₀ u₀ l₀ (checkNext targetActive active rest) := by
  cases rest with
  | cons peer rest => exact ⟨⟨rfl, rfl, ha, checked, hp, hc⟩, trivial⟩
  | nil =>
    rw [List.append_nil] at hp
    have hactive : activePeers c t u₀ = active := by rw [activePeers, hp, hc]
    rw [checkNext_nil]
    have hs := track_stopNext c t u₀ l₀ targetActive [] active ha hactive
    rwa [stopAll_nil] at hs

theorem track_pollNext (u : Units) (l : List Entry) (url : String) (now deadline : ℚ)
    (lastError : String) (hu : u = final c t u₀) (hl : l = transitionLog c t u₀++l₀) :
    TrackNext c t u₀ l₀ u l (pollNext url now deadline lastError) := by
  unfold pollNext
  split
  · exact ⟨⟨hu, hl⟩, trivial⟩
  · exact ⟨hu, hl⟩

theorem track_startNext (u : Units) (l : List Entry) (now : ℚ)
    (hu : u = final c t u₀) (hl : l = transitionLog c t u₀++l₀) :
    TrackNext c t u₀ l₀ u l (startNext t now) := by
  unfold startNext
  split
  · exact ⟨hu, hl⟩
  · exact track_pollNext c t u₀ l₀ u l _ now _ _ hu hl

/-- The peer whose stop succeeded joins the stopped ones. -/
theorem stopAll_update (u : Units) (stopped : List Backend) (peer : Backend)
    (hu : ∀ x, x ≠ peer.unit → u x = stopAll stopped u₀ x) :
    Function.update u peer.unit .inactive = stopAll (stopped++[peer]) u₀ := by
  ext x
  by_cases hx : x = peer.unit
  · subst hx
    simp [stopAll]
  · rw [Function.update_of_ne hx, hu x hx]
    simp [stopAll, hx]

theorem final_update (u : Units)
    (hu : ∀ x, x ≠ t.unit → u x = stopAll (activePeers c t u₀) u₀ x) :
    Function.update u t.unit .active = final c t u₀ := by
  ext x
  by_cases hx : x = t.unit
  · subst hx
    simp [final]
  · simp [final, Function.update_of_ne hx, hu x hx]

def Failed (n : Next) : Prop := ∃ out, n = .done out ∧ out ≠ .returned ()

theorem track_checked (u : Units) (l : List Entry) (now : ℚ) (pc : Pc) (service : String)
    (p : Process) (n : Next) (ht : Track c t u₀ l₀ u l pc) (hc : pc.checks t = some service)
    (he : checkEnds p (u service)) (hn : resume c t now pc (.process p) = some n) :
    TrackNext c t u₀ l₀ u l n ∨ p.answers = false ∧ Failed n := by
  cases checked_cases c t u now pc service p n hc he hn with
  | target ha =>
    obtain ⟨rfl, rfl⟩ := ht
    exact Or.inl (track_checkNext c t u l (on u t.unit) [] [] (peersInGroup c t) rfl rfl rfl)
  | peer targetActive peer rest active ha =>
    obtain ⟨rfl, rfl, hta, checked, hp, hact⟩ := ht
    apply Or.inl
    apply track_checkNext c t u l targetActive _ (checked++[peer]) rest hta (by simp [hp])
    rw [List.filter_append, ← hact]
    by_cases h : on u peer.unit <;> simp [h]
  | failed pc service out ha ho => exact Or.inr ⟨ha, out, rfl, ho⟩

theorem track_commanded (u : Units) (l : List Entry) (now : ℚ) (pc : Pc) (j : Job)
    (p : Process) (after : UnitState) (left : Bool) (n : Next)
    (ht : Track c t u₀ l₀ u l pc) (hj : pc.job t = some j)
    (he : commandEnds j.verb p (u j.service) after left)
    (hn : resume c t now pc (.process p) = some n) :
    left = false ∧ TrackNext c t u₀ l₀ (Function.update u j.service after) l n ∨
      p.succeeds = false ∧ Failed n := by
  cases commanded_cases c t u now pc j p after left n hj he hn with
  | stopped targetActive peer rest hs ha hl =>
    obtain ⟨hta, stopped, hp, rfl, hu⟩ := ht
    subst ha
    rw [stopAll_update u₀ u stopped peer hu]
    exact Or.inl ⟨hl, track_stopNext c t u₀ l₀ targetActive (stopped++[peer]) rest hta
      (by simp [hp])⟩
  | started hs ha hl =>
    obtain ⟨hon, rfl, hu⟩ := ht
    subst ha
    rw [final_update c t u₀ u hu]
    exact Or.inl ⟨hl, track_startNext c t u₀ l₀ _ _ now rfl (by simp [transitionLog, hon])⟩
  | stopFailed targetActive peer rest out hs ho => exact Or.inr ⟨hs, out, rfl, ho⟩
  | startFailed out hs ho => exact Or.inr ⟨hs, out, rfl, ho⟩

/-- A unit moved by the job in flight is the one the track leaves open. -/
theorem track_moved (u : Units) (l : List Entry) (pc : Pc) (j : Job) (after : UnitState)
    (ht : Track c t u₀ l₀ u l pc) (hj : pc.job t = some j) :
    Track c t u₀ l₀ (Function.update u j.service after) l pc := by
  cases pc with
  | stopping targetActive peer rest =>
    obtain rfl : ⟨.stop, peer.unit⟩ = j := Option.some.inj hj
    obtain ⟨hta, stopped, hp, hl, hu⟩ := ht
    exact ⟨hta, stopped, hp, hl, fun x hx => by rw [Function.update_of_ne hx, hu x hx]⟩
  | starting =>
    obtain rfl : ⟨.start, t.unit⟩ = j := Option.some.inj hj
    obtain ⟨hon, hl, hu⟩ := ht
    exact ⟨hon, hl, fun x hx => by rw [Function.update_of_ne hx, hu x hx]⟩
  | _ => simp [Pc.job] at hj

end Straight
end LlRouter.TransitionTrack
