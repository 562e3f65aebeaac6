import Barrage.Game
import Barrage.Proofs.Arena.Parts
import Barrage.Proofs.Level.Run

/-! # Games, action by action

An update hands the events of the level to the arena, a step tells the level of everyone that has
departed, and what the player does touches shots and player only. A statement about games is carried
over these three. -/

namespace Barrage.Game

open Arena (Turn)

variable {α : Type}

theorem departures_eq (happenings : List (Arena.Happening α)) :
    departures happenings = (Arena.departed happenings).length := by
  rw [departures, Arena.departed, ← List.countP_eq_length_filter, List.length_filterMap_eq_countP]
  refine List.countP_congr fun h _ => ?_
  cases h <;> rfl

/-! ## What is seen -/

def Observation.entry? : Observation α → Option (Level.Entry α)
  | entry e => some e
  | _ => none

def Observation.event? : Observation α → Option (Level.Event α)
  | event e => some e
  | _ => none

def Observation.happening? : Observation α → Option (Arena.Happening α)
  | happening h => some h
  | _ => none

def journal (seen : List (Observation α)) : List (Level.Entry α) :=
  seen.filterMap Observation.entry?

def events (seen : List (Observation α)) : List (Level.Event α) := seen.filterMap Observation.event?

def happenings (seen : List (Observation α)) : List (Arena.Happening α) :=
  seen.filterMap Observation.happening?

theorem journal_append (earlier later : List (Observation α)) :
    journal (earlier ++ later) = journal earlier ++ journal later := List.filterMap_append

theorem events_append (earlier later : List (Observation α)) :
    events (earlier ++ later) = events earlier ++ events later := List.filterMap_append

theorem happenings_append (earlier later : List (Observation α)) :
    happenings (earlier ++ later) = happenings earlier ++ happenings later := List.filterMap_append

theorem seen_of_update (entries : List (Level.Entry α)) (told : List (Level.Event α)) :
    journal (entries.map .entry ++ told.map .event) = entries ∧
      events (entries.map .entry ++ told.map .event) = told ∧
      happenings (entries.map .entry ++ told.map .event) = [] := by
  refine ⟨?_, ?_, ?_⟩
  · simp [journal, List.filterMap_map, Function.comp_def, Observation.entry?]
  · simp [events, List.filterMap_map, Function.comp_def, Observation.event?]
  · simp [happenings, List.filterMap_map, Function.comp_def, Observation.happening?]

theorem seen_of_step (turned : List (Arena.Happening α)) :
    journal (turned.map .happening) = [] ∧ events (turned.map .happening) = [] ∧
      happenings (turned.map .happening) = turned := by
  refine ⟨?_, ?_, ?_⟩
  · simp [journal, List.filterMap_map, Function.comp_def, Observation.entry?]
  · simp [events, List.filterMap_map, Function.comp_def, Observation.event?]
  · simp [happenings, List.filterMap_map, Function.comp_def, Observation.happening?]

/-! ## Actions -/

variable [Scalar α]

omit [Scalar α] in
theorem release_eq (g : Game α) (n : ℕ) :
    g.release n = { g with level := { g.level with live := g.level.live - n } } := by
  induction n generalizing g with
  | zero => rfl
  | succ n ih =>
    rw [release, ih]
    simp [Level.release, Nat.sub_sub, Nat.add_comm 1 n]

def hear (g : Game α) (frame : Level.Frame α) : Game α :=
  { g with level := frame.level, arena := frame.events.foldl Arena.receive g.arena }

omit [Scalar α] in
def report (g : Game α) (turn : Turn α) (words : Words) : Game α :=
  { g with arena := turn.arena, words }.release (departures turn.happenings)

variable [Elementary α]

inductive Does (g : Game α) : Action α → Game α × List (Observation α) → Prop where
  | update {dt : α} {frame : Level.Frame α} : g.level.update g.arena.world dt = .ok frame →
      Does g (.update dt) (g.hear frame, frame.journal.map .entry ++ frame.events.map .event)
  | step {dt : α} {turn : Turn α} {words : Words} : g.arena.step dt g.words = .ok (turn, words) →
      Does g (.step dt) (g.report turn words, turn.happenings.map .happening)
  | player {action : Action α} (position : Vec α) (shots : List (Arena.Shot α)) :
      (∀ dt, action ≠ .step dt) →
      (∀ s ∈ shots, s ∈ g.arena.shots ∨ s = Arena.playerShot g.arena.player.position) →
      Does g action
        ({ g with arena := { g.arena with player := { g.arena.player with position }, shots } }, [])

theorem perform_does {g : Game α} {action : Action α} {result : Game α × List (Observation α)}
    (h : g.perform action = .ok result) : g.Does action result := by
  cases action with
  | update dt =>
    obtain ⟨frame, hframe, h⟩ := parts_of_ok h
    obtain rfl := Except.ok.inj h
    exact .update hframe
  | step dt =>
    obtain ⟨⟨turn, words⟩, hturn, h⟩ := parts_of_ok h
    obtain rfl := Except.ok.inj h
    exact .step hturn
  | move direction dt =>
    obtain rfl := Except.ok.inj h
    exact .player _ g.arena.shots nofun fun s hs => .inl hs
  | fire =>
    obtain rfl := Except.ok.inj h
    unfold Arena.fire
    split
    · exact .player g.arena.player.position g.arena.shots nofun fun s hs => .inl hs
    · refine .player g.arena.player.position (g.arena.shots ++ [_]) nofun fun s hs => ?_
      exact (List.mem_append.1 hs).imp_right List.mem_singleton.1

/-- What is kept by updates, by steps and by the player is kept by a run. -/
theorem run_induction {P : Game α → List (Observation α) → Prop}
    (update : ∀ {g seen dt frame}, P g seen → g.level.update g.arena.world dt = .ok frame →
      P (g.hear frame) (seen ++ (frame.journal.map .entry ++ frame.events.map .event)))
    (step : ∀ {g seen dt turn words}, P g seen → g.arena.step dt g.words = .ok (turn, words) →
      P (g.report turn words) (seen ++ turn.happenings.map .happening))
    (player : ∀ {g seen} position shots, P g seen →
      P { g with arena := { g.arena with player := { g.arena.player with position }, shots } } seen)
    {g g' : Game α} {seen observed : List (Observation α)} {actions : List (Action α)}
    (h : P g seen) (hrun : g.run actions = .ok (g', observed)) : P g' (seen ++ observed) := by
  induction actions generalizing g seen observed with
  | nil =>
    obtain ⟨rfl, rfl⟩ := Prod.mk.inj (Except.ok.inj hrun)
    rwa [List.append_nil]
  | cons action rest ih =>
    obtain ⟨⟨g₁, first⟩, hfirst, hrun⟩ := parts_of_ok hrun
    obtain ⟨⟨g₂, later⟩, hlater, hrun⟩ := parts_of_ok hrun
    obtain ⟨rfl, rfl⟩ := Prod.mk.inj (Except.ok.inj hrun)
    rw [← List.append_assoc]
    refine ih ?_ hlater
    cases perform_does hfirst with
    | update hframe => exact update h hframe
    | step hturn => exact step h hturn
    | player position shots =>
      rw [List.append_nil]
      exact player position shots h

/-! ## The level of a game -/

omit [Elementary α] in
theorem run_releases (l : Level α) (n : ℕ) :
    l.run (List.replicate n .release) = .ok ⟨{ l with live := l.live - n }, [], []⟩ := by
  induction n generalizing l with
  | zero => rfl
  | succ n ih =>
    have hlive : l.live - 1 - n = l.live - (n + 1) := by omega
    rw [List.replicate_succ, Level.run]
    change (Level.run l.release _ >>= fun f => .ok (f.behind [] [])) = _
    rw [ih]
    simp [bind, Except.bind, Level.Frame.behind, Level.release, hlive]

/-- A game leads its level through a history, and journal and events of the history are what was
seen of them. -/
theorem level_run {g g' : Game α} {seen : List (Observation α)} {actions : List (Action α)}
    (hrun : g.run actions = .ok (g', seen)) :
    ∃ calls, g.level.run calls = .ok ⟨g'.level, journal seen, events seen⟩ := by
  have hlater : ∀ {calls more : List (Level.Call α)} {first later : Level.Frame α},
      g.level.run calls = .ok first →
      first.level.run more = .ok later →
      g.level.run (calls ++ more) = .ok (later.behind first.journal first.events) := by
    intro calls more first later hcalls hmore
    rw [Level.run_append, hcalls]
    change (first.level.run more >>= fun f => .ok (f.behind first.journal first.events)) = _
    rw [hmore]
    rfl
  have hstart : ∃ calls, g.level.run calls = .ok ⟨g.level, journal [], events []⟩ := ⟨[], rfl⟩
  refine run_induction
    (P := fun g' seen => ∃ calls, g.level.run calls = .ok ⟨g'.level, journal seen, events seen⟩)
    ?_ ?_ ?_ hstart hrun
  · intro g₁ seen dt frame ⟨calls, hcalls⟩ hframe
    obtain ⟨hjournal, hevents, -⟩ := seen_of_update frame.journal frame.events
    have hmore : g₁.level.run [.update g₁.arena.world dt] = .ok frame := by
      rw [Level.run, Level.call, hframe]
      simp [bind, Except.bind, pure, Except.pure, Level.run, Level.Frame.behind]
    refine ⟨_, (hlater hcalls hmore).trans ?_⟩
    rw [journal_append, events_append, hjournal, hevents]
    rfl
  · intro g₁ seen dt turn words ⟨calls, hcalls⟩ _
    obtain ⟨hjournal, hevents, -⟩ := seen_of_step turn.happenings
    refine ⟨_, (hlater hcalls (run_releases g₁.level (departures turn.happenings))).trans ?_⟩
    rw [report, release_eq, journal_append, events_append, hjournal, hevents]
    rfl
  · exact fun _ _ h => h

end Barrage.Game
