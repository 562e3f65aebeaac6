import Barrage.Proofs.Arena.Roster
import Barrage.Proofs.Game.Run
import Barrage.Scalar.Single

/-! # The census of a game

The level counts living enemies by what it has asked for and what was reported to have gone, and
waits for the last one on the strength of this count. Here it is shown to be the number of enemies
in the arena, whatever is done with the game. -/

namespace Barrage.Game

open Arena (Enemy Roster)

variable {α : Type}

def Observation.request? : Observation α → Option (Level.SpawnRequest α)
  | event e => e.request?
  | _ => none

def Observation.departed? : Observation α → Option (Enemy α)
  | happening h => h.departed?
  | _ => none

def spawned (seen : List (Observation α)) : ℕ := seen.countP fun o => o.request?.isSome

def departed (seen : List (Observation α)) : List (Enemy α) := seen.filterMap Observation.departed?

theorem spawned_append (earlier later : List (Observation α)) :
    spawned (earlier ++ later) = spawned earlier + spawned later := List.countP_append

theorem departed_append (earlier later : List (Observation α)) :
    departed (earlier ++ later) = departed earlier ++ departed later := List.filterMap_append

theorem seen_in_update (journal : List (Level.Entry α)) (events : List (Level.Event α)) :
    spawned (journal.map .entry ++ events.map .event) = Level.requests events ∧
      departed (journal.map .entry ++ events.map .event) = [] := by
  constructor
  · have hjournal : spawned (journal.map Observation.entry) = 0 := by
      rw [spawned, List.countP_map]
      exact List.countP_eq_zero.2 fun _ _ => by simp [Observation.request?]
    rw [spawned_append, hjournal, zero_add, spawned, List.countP_map]
    rfl
  · rw [departed, List.filterMap_eq_nil_iff]
    intro o ho
    rcases List.mem_append.1 ho with ho | ho
    · obtain ⟨entry, -, rfl⟩ := List.mem_map.1 ho
      rfl
    · obtain ⟨event, -, rfl⟩ := List.mem_map.1 ho
      rfl

theorem seen_in_step (happenings : List (Arena.Happening α)) :
    spawned (happenings.map .happening) = 0 ∧
      departed (happenings.map .happening) = Arena.departed happenings := by
  constructor
  · rw [spawned, List.countP_map]
    exact List.countP_eq_zero.2 fun _ _ => by simp [Observation.request?]
  · rw [departed, List.filterMap_map]
    rfl

/-- The level and its arena agree on who lives and on the tempo. -/
structure Census (g : Game α) (seen : List (Observation α)) : Prop where
  live : g.level.live = g.arena.enemies.length
  issued : g.arena.nextId = spawned seen
  roster : Roster g.arena (departed seen)
  tempo : g.arena.tempo = g.level.tempo

variable [Scalar α] {g g' : Game α} {seen observed : List (Observation α)} {dt : α}

theorem census_start (script : List (Script.Instruction α)) (world : Vec α) (tempo grace : α)
    (levelWords arenaWords : Words) :
    Census (start script world tempo grace levelWords arenaWords) [] :=
  ⟨rfl, rfl, Arena.start_roster world tempo grace, rfl⟩

theorem census_hear {frame : Level.Frame α} (h : Census g seen)
    (hframe : g.level.update g.arena.world dt = .ok frame) :
    Census (g.hear frame) (seen ++ (frame.journal.map .entry ++ frame.events.map .event)) := by
  have htells := Level.tells_update hframe
  have hhears := Arena.receiveAll_hears g.arena frame.events
  obtain ⟨hspawned, hdeparted⟩ := seen_in_update frame.journal frame.events
  refine ⟨?_, ?_, ?_, ?_⟩
  · exact (htells.live_eq.trans (by rw [h.live])).trans hhears.length_eq.symm
  · rw [spawned_append, hspawned, ← h.issued]
    exact hhears.nextId_eq
  · rw [departed_append, hdeparted, List.append_nil]
    exact hhears.roster _ h.roster
  · exact (hhears.tempo_eq.trans (by rw [h.tempo])).trans htells.tempo_eq.symm

variable [Elementary α]

theorem census_report {turn : Arena.Turn α} {words : Words} (h : Census g seen)
    (hturn : g.arena.step dt g.words = .ok (turn, words)) :
    Census (g.report turn words) (seen ++ turn.happenings.map .happening) := by
  have hpasses := Arena.step_passes hturn
  have hroster := hpasses.roster _ h.roster
  obtain ⟨hspawned, hdeparted⟩ := seen_in_step turn.happenings
  -- both rosters number the same identities, so what has left the arena is what has departed
  have hbefore := h.roster.ids.length_eq
  have hafter := hroster.ids.length_eq
  simp only [List.length_append, List.length_map, List.length_range] at hbefore hafter
  rw [hpasses.nextId_eq] at hafter
  rw [report, release_eq, departures_eq]
  refine ⟨?_, ?_, ?_, ?_⟩
  · change g.level.live - (Arena.departed turn.happenings).length = turn.arena.enemies.length
    rw [h.live]
    omega
  · rw [spawned_append, hspawned, add_zero, ← h.issued]
    exact hpasses.nextId_eq
  · rw [departed_append, hdeparted]
    exact hroster
  · exact hpasses.tempo_eq.trans h.tempo

theorem census_run (h : Census g seen) {actions : List (Action α)}
    (hrun : g.run actions = .ok (g', observed)) : Census g' (seen ++ observed) :=
  run_induction (fun h hframe => census_hear h hframe) (fun h hturn => census_report h hturn)
    (fun _ _ h => ⟨h.live, h.issued, h.roster.of_eq rfl rfl, h.tempo⟩) h hrun

/-- However a game is played from its start, the level's count is the number of enemies in the
arena. Enemies bear distinct identities below the next one, which are never given again; each of
them is the one listener of its channel, and nobody listens on the channel of an enemy that has
departed. The tempo is common. -/
theorem living_enemies_are_counted (script : List (Script.Instruction α)) (world : Vec α)
    (tempo grace : α) (levelWords arenaWords : Words) (actions : List (Action α))
    (hrun : (start script world tempo grace levelWords arenaWords).run actions = .ok (g, seen)) :
    g.level.live = g.arena.enemies.length ∧
    (g.arena.enemies.map Enemy.id).Nodup ∧
    (∀ e ∈ g.arena.enemies, e.id < g.arena.nextId) ∧
    (g.arena.enemies.map Enemy.id ++ (departed seen).map Enemy.id).Perm
      (List.range (spawned seen)) ∧
    g.arena.nextId = spawned seen ∧
    (∀ e ∈ g.arena.enemies, e.flight.channel.listeners = [(e.id, ())]) ∧
    (∀ e ∈ departed seen, e.flight.channel.listeners = []) ∧
    g.arena.tempo = g.level.tempo := by
  have hcensus : Census g seen :=
    census_run (census_start script world tempo grace levelWords arenaWords) hrun
  have hids := hcensus.roster.ids
  refine ⟨hcensus.live, ?_, ?_, ?_, hcensus.issued, hcensus.roster.heard, hcensus.roster.retired,
    hcensus.tempo⟩
  · exact hcensus.roster.nodup
  · intro e he
    have hmem := hids.subset (List.mem_append_left _ (List.mem_map_of_mem he))
    exact List.mem_range.1 hmem
  · rw [← hcensus.issued]
    exact hids

def runaways : Script.Group Float32 :=
  { window := .literal 4, members := [⟨'A', .packed ⟨0⟩⟩, ⟨'C', .packed ⟨7⟩⟩],
    reward := ⟨'P', .never⟩, side := .left, factors := [],
    trajectory := [.linear .left (.literal 60)] }

/-- The first enemy leaves the screen before the second one comes. -/
theorem second_runaway_is_counted :
    ∃ g seen, (start [.spawn runaways] ⟨320, 180⟩ 120 0.5 (Words.cycle #[]) (Words.cycle #[])).run
        [.update 1, .fire, .step 1, .update 1.5] = .ok (g, seen) ∧
      g.arena.enemies.map Enemy.id = [1] ∧ (departed seen).map Enemy.id = [0] ∧ spawned seen = 2 ∧
      g.level.live = 1 ∧ (∀ e ∈ departed seen, e.flight.channel.listeners = []) ∧
      g.arena.tempo = g.level.tempo := by
  have hview : ((start [.spawn runaways] ⟨320, 180⟩ 120 0.5 (Words.cycle #[]) (Words.cycle #[])).run
      [.update 1, .fire, .step 1, .update 1.5]).map (fun p =>
        (p.1.arena.enemies.map Enemy.id, (departed p.2).map Enemy.id, spawned p.2)) =
      .ok ([1], [0], 2) := by
    decide +kernel
  obtain ⟨⟨g, seen⟩, hrun, hview⟩ := ok_of_map hview
  simp only [Prod.mk.injEq] at hview
  obtain ⟨hids, hgone, hspawned⟩ := hview
  obtain ⟨hlive, -, -, -, -, -, hretired, htempo⟩ := living_enemies_are_counted _ _ _ _ _ _ _ hrun
  have hlength := congrArg List.length hids
  rw [List.length_map, ← hlive] at hlength
  exact ⟨g, seen, hrun, hids, hgone, hspawned, hlength, hretired, htempo⟩

end Barrage.Game
