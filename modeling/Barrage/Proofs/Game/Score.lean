import Barrage.Proofs.Arena.Aftermath
import Barrage.Proofs.Game.Census
import Barrage.Proofs.Game.Rewards

/-! # The score

A game scores for the enemies that were defeated, each for the hit points that it came with, and for
what the player has collected. Every other enemy has hit points left whenever the shots of the
player are resolved. -/

namespace Barrage

namespace Arena

variable {α : Type} [Scalar α] {a : Arena α}

theorem Standing.receive (h : Standing a) {event : Level.Event α}
    (hevent : ∀ q, event.request? = some q → 0 < q.hitPoints) : Standing (a.receive event) := by
  cases event with
  | spawn q =>
    have hpoints : 0 < q.hitPoints := hevent q rfl
    refine ⟨?_, ?_⟩
    all_goals
      intro e he
      rcases List.mem_append.1 he with he | he
    · exact h.lives e he
    · rw [List.mem_singleton.1 he]
      exact hpoints
    · exact h.full e he
    · rw [List.mem_singleton.1 he]
      exact hpoints
  | _ => exact ⟨h.lives, h.full⟩

theorem receive_score (a : Arena α) (event : Level.Event α) :
    (a.receive event).score = a.score := by
  cases event <;> rfl

theorem Standing.receiveAll (h : Standing a) {events : List (Level.Event α)}
    (hevents : ∀ q ∈ events.filterMap Level.Event.request?, 0 < q.hitPoints) :
    Standing (events.foldl Arena.receive a) ∧ (events.foldl Arena.receive a).score = a.score := by
  induction events generalizing a with
  | nil => exact ⟨h, rfl⟩
  | cons event rest ih =>
    have hfirst : Standing (a.receive event) := h.receive fun q hq =>
      hevents q (List.mem_filterMap.2 ⟨event, List.mem_cons_self .., hq⟩)
    have hrest := ih hfirst fun q hq => by
      obtain ⟨event', hmem, hq⟩ := List.mem_filterMap.1 hq
      exact hevents q (List.mem_filterMap.2 ⟨event', List.mem_cons_of_mem _ hmem, hq⟩)
    exact ⟨hrest.1, hrest.2.trans (receive_score a event)⟩

end Arena

namespace Game

open Arena (Enemy Standing Spends scorePerHitPoint scorePerPickup)

variable {α : Type}

def slain (seen : List (Observation α)) : List (Enemy α) := Arena.slain (happenings seen)

def collected (seen : List (Observation α)) : List Char := Arena.collected (happenings seen)

variable [Scalar α]

structure Scored (g : Game α) (seen : List (Observation α)) : Prop where
  standing : Standing g.arena
  score_eq : g.arena.score =
    scorePerHitPoint * ((slain seen).map Enemy.initialHitPoints).sum +
      scorePerPickup * (collected seen).length
  slain_perm : ((slain seen).map Enemy.id).Perm ((beaten seen).map Prod.fst)

variable [Elementary α] {g g' : Game α} {seen observed : List (Observation α)}

theorem scored_report {dt : α} {turn : Arena.Turn α} {words : Words} (h : Scored g seen)
    (hturn : g.arena.step dt g.words = .ok (turn, words)) :
    Scored (g.report turn words) (seen ++ turn.happenings.map .happening) := by
  obtain ⟨-, -, hhappenings⟩ := seen_of_step turn.happenings
  rw [report, release_eq]
  rcases Arena.step_cases hturn with ⟨-, rfl⟩ | ⟨-, shots, rfl⟩
  · rw [List.map_nil, List.append_nil]
    exact ⟨h.standing, h.score_eq, h.slain_perm⟩
  · have hmoved := h.standing.moved dt shots
    obtain ⟨hscore, hperm⟩ := hmoved.scores dt
    refine ⟨hmoved.resolve dt, ?_, ?_⟩
    · rw [slain, collected, happenings_append, hhappenings, Arena.slain_append,
        Arena.collected_append, List.map_append, List.sum_append, List.length_append]
      refine hscore.trans ?_
      change g.arena.score + _ = _
      rw [h.score_eq, slain, collected]
      ring
    · rw [slain, beaten, happenings_append, hhappenings, Arena.slain_append, Arena.defeats_append,
        List.map_append, List.map_append]
      exact h.slain_perm.append hperm

theorem scored_run (h : Scored g seen) {actions : List (Action α)}
    (hrun : g.run actions = .ok (g', observed))
    (hasked : ∀ q ∈ asked (seen ++ observed), 0 < q.hitPoints) : Scored g' (seen ++ observed) := by
  refine run_induction (P := fun g seen => (∀ q ∈ asked seen, 0 < q.hitPoints) →
    Scored g seen) ?_ ?_ ?_ (fun _ => h) hrun hasked
  · intro g seen dt frame hscored _ hasked
    obtain ⟨-, hevents, hhappenings⟩ := seen_of_update frame.journal frame.events
    rw [asked, events_append, hevents, List.filterMap_append] at hasked
    have h := hscored fun q hq => hasked q (List.mem_append_left _ hq)
    obtain ⟨hstanding, hscore⟩ := h.standing.receiveAll fun q hq =>
      hasked q (List.mem_append_right _ hq)
    refine ⟨hstanding, hscore.trans ?_, ?_⟩
    · rw [slain, collected, happenings_append, hhappenings, List.append_nil]
      exact h.score_eq
    · rw [slain, beaten, happenings_append, hhappenings, List.append_nil]
      exact h.slain_perm
  · intro g seen dt turn words hscored hturn hasked
    obtain ⟨-, hevents, -⟩ := seen_of_step turn.happenings
    rw [asked, events_append, hevents, List.append_nil] at hasked
    exact scored_report (hscored hasked) hturn
  · intro g seen position shots hscored hasked
    have h := hscored hasked
    exact ⟨⟨h.standing.lives, h.standing.full⟩, h.score_eq, h.slain_perm⟩

theorem scored_of_run {script : List (Script.Instruction α)} {world : Vec α} {tempo grace : α}
    {levelWords arenaWords : Words} {actions : List (Action α)}
    (hrun : (start script world tempo grace levelWords arenaWords).run actions = .ok (g, seen)) :
    Scored g seen := by
  obtain ⟨calls, hcalls⟩ := level_run hrun
  have hasked : ∀ q ∈ asked seen, 0 < q.hitPoints := by
    intro q hq
    obtain ⟨event, hevent, hrequest⟩ := List.mem_filterMap.1 hq
    cases event with
    | spawn q' =>
      exact Option.some.inj hrequest ▸ (Level.honoured_run hcalls).ledger.dealt.hitPoints_pos hevent
    | _ => cases hrequest
  have hstart : Scored (start script world tempo grace levelWords arenaWords) [] :=
    ⟨⟨List.forall_mem_nil _, List.forall_mem_nil _⟩, rfl, .refl _⟩
  exact scored_run hstart hrun hasked

/-- However a game is played from its start, everybody has hit points left. Whether now or in the
next step, the shots of the player are resolved without a hit being lost or counted twice. The score
is what the enemies that were defeated and the pickups that were collected are worth. -/
theorem hits_are_conserved (script : List (Script.Instruction α)) (world : Vec α) (tempo grace : α)
    (levelWords arenaWords : Words) (actions : List (Action α))
    (hrun : (start script world tempo grace levelWords arenaWords).run actions = .ok (g, seen)) :
    (∀ e ∈ g.arena.enemies, 0 < e.hitPoints) ∧
    g.arena.Conserves ∧
    (∀ dt turn words, g.arena.step dt g.words = .ok (turn, words) → ¬ dt ≤ 0 →
      g.arena.status ≠ .gameOver →
      ∃ shots, turn = (g.arena.moved dt shots).resolve dt ∧ (g.arena.moved dt shots).Conserves) ∧
    g.arena.score = 100 * ((slain seen).map Enemy.initialHitPoints).sum +
      250 * (collected seen).length ∧
    ((slain seen).map Enemy.id).Perm ((beaten seen).map Prod.fst) := by
  have hscored : Scored g seen := scored_of_run hrun
  have hcensus : Census g seen :=
    census_run (census_start script world tempo grace levelWords arenaWords) hrun
  have hids : (g.arena.enemies.map Enemy.id).Nodup := hcensus.roster.nodup
  refine ⟨hscored.standing.lives, hscored.standing.conserves hids,
    fun dt turn words hturn hdt hplays => ?_, hscored.score_eq, hscored.slain_perm⟩
  rcases Arena.step_cases hturn with ⟨hidle, -⟩ | ⟨-, shots, rfl⟩
  · exact absurd hidle (not_or.2 ⟨hdt, hplays⟩)
  · refine ⟨shots, rfl, (hscored.standing.moved dt shots).conserves ?_⟩
    rw [Arena.moved_ids]
    exact hids

/-- Two enemies are shot at one place, and the second one leaves something to collect. -/
theorem couple_and_pickup_score :
    ∃ g seen, (start [.spawn couple] ⟨320, 180⟩ 120 0.5 (Words.cycle #[]) (Words.cycle #[])).run
        [.update 1, .fire, .fire, .step 0.9, .move ⟨1, 0⟩ 1.6, .step 0.05] = .ok (g, seen) ∧
      (slain seen).map Enemy.initialHitPoints = [1, 1] ∧ collected seen = ['p'] ∧
      g.arena.score = 100 * 2 + 250 * 1 := by
  have hview : ((start [.spawn couple] ⟨320, 180⟩ 120 0.5 (Words.cycle #[]) (Words.cycle #[])).run
      [.update 1, .fire, .fire, .step 0.9, .move ⟨1, 0⟩ 1.6, .step 0.05]).map (fun p =>
        ((slain p.2).map Enemy.initialHitPoints, collected p.2)) = .ok ([1, 1], ['p']) := by
    decide +kernel
  obtain ⟨⟨g, seen⟩, hrun, hview⟩ := ok_of_map hview
  simp only [Prod.mk.injEq] at hview
  obtain ⟨hslain, hcollected⟩ := hview
  obtain ⟨-, -, -, hscore, -⟩ := hits_are_conserved _ _ _ _ _ _ _ hrun
  rw [hslain, hcollected] at hscore
  exact ⟨g, seen, hrun, hslain, hcollected, hscore⟩

end Game

end Barrage
