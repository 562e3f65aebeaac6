import Barrage.Proofs.Game.Run
import Barrage.Proofs.Level.Path
import Barrage.Scalar.Exact

/-! # The end of a game

Two things put an end to a game: the loss of the last life, and a script that has come to its end.
The later of them decides what the arena says. So a lost game stays lost for as long as the script
does not end, and for ever if there is no more script. But an end of the script that comes after the
last life was lost sets the arena going again. -/

namespace Barrage

namespace Arena

variable {α : Type}

def Happening.isLoss : Happening α → Bool
  | lifeLost => true
  | hit .. | collected _ | departed .. => false

def losses (happenings : List (Happening α)) : ℕ := happenings.countP Happening.isLoss

theorem losses_append (earlier later : List (Happening α)) :
    losses (earlier ++ later) = losses earlier + losses later := List.countP_append

structure Harms (a : Arena α) (happenings : List (Happening α)) (b : Arena α) : Prop where
  lives_eq : b.player.lives = a.player.lives - losses happenings
  status_eq : b.status = if 0 < losses happenings ∧ b.player.lives = 0 then .gameOver else a.status

namespace Harms

variable {a b c : Arena α} {earlier later : List (Happening α)}

theorem of_unharmed (hlives : b.player.lives = a.player.lives) (hstatus : b.status = a.status)
    (hnone : losses later = 0) : Harms a later b := by
  constructor
  · rw [hlives, hnone, Nat.sub_zero]
  · rw [hstatus, hnone]
    simp

theorem trans (h : Harms a earlier b) (k : Harms b later c) : Harms a (earlier ++ later) c := by
  obtain ⟨hlives, hstatus⟩ := h
  obtain ⟨klives, kstatus⟩ := k
  constructor
  · rw [klives, hlives, losses_append, Nat.sub_sub]
  · rw [kstatus, hstatus, losses_append]
    split_ifs <;> first | rfl | omega

end Harms

/-! ## One step -/

variable [Scalar α]

theorem dropOffscreen_harms (a : Arena α) (dt : α) :
    Harms a (a.dropOffscreen dt).happenings (a.dropOffscreen dt).arena := by
  refine .of_unharmed rfl rfl (List.countP_eq_zero.2 fun o ho => ?_)
  obtain ⟨e, -, rfl⟩ := List.mem_map.1 ho
  exact Bool.false_ne_true

variable [Elementary α]

theorem resolveShots_harms (shots : List (Shot α)) (a : Arena α) :
    Harms a (resolveShots shots a).happenings (resolveShots shots a).arena := by
  have hnone : Harms a ([] : List (Happening α)) a := .of_unharmed rfl rfl rfl
  refine resolveShots_induction (M := fun b seen => Harms a seen b) ?_ ?_ shots hnone
  · intro b seen shots h
    exact ⟨h.lives_eq, h.status_eq⟩
  · intro b seen position outcome target enemies bounties h _
    exact h.trans (.of_unharmed rfl rfl rfl)

theorem resolvePlayerShots_harms (a : Arena α) :
    Harms a a.resolvePlayerShots.happenings a.resolvePlayerShots.arena := by
  refine (resolveShots_harms a.shots a).trans
    (.of_unharmed rfl rfl (List.countP_eq_zero.2 fun o ho => ?_))
  obtain ⟨e, -, rfl⟩ := List.mem_map.1 ho
  exact Bool.false_ne_true

theorem resolveEnemyShots_harms (a : Arena α) :
    Harms a a.resolveEnemyShots.happenings a.resolveEnemyShots.arena := by
  unfold resolveEnemyShots
  dsimp only
  split
  · exact .of_unharmed rfl rfl rfl
  · exact ⟨rfl, by simp [losses, Happening.isLoss]⟩

theorem stepPickups_harms (a : Arena α) (dt : α) :
    Harms a (a.stepPickups dt).happenings (a.stepPickups dt).arena := by
  refine .of_unharmed rfl rfl (List.countP_eq_zero.2 fun o ho => ?_)
  obtain ⟨p, -, rfl⟩ := List.mem_map.1 ho
  exact Bool.false_ne_true

theorem step_harms {a : Arena α} {dt : α} {turn : Turn α} {w w' : Words}
    (h : a.step dt w = .ok (turn, w')) : Harms a turn.happenings turn.arena := by
  rcases step_cases h with ⟨-, rfl⟩ | ⟨-, shots, rfl⟩
  · exact .of_unharmed rfl rfl rfl
  · have hmoved : Harms a ([] : List (Happening α)) (a.moved dt shots) := .of_unharmed rfl rfl rfl
    exact (((hmoved.trans (resolvePlayerShots_harms _)).trans (resolveEnemyShots_harms _)).trans
      (stepPickups_harms _ dt)).trans (dropOffscreen_harms _ dt)

end Arena

namespace Level.Event

variable {α : Type}

def isFinish : Event α → Bool
  | finish => true
  | _ => false

end Level.Event

namespace Arena

variable {α : Type} [Scalar α]

theorem receiveAll_status (a : Arena α) (events : List (Level.Event α)) :
    (events.foldl receive a).player = a.player ∧ (events.foldl receive a).score = a.score ∧
    (events.foldl receive a).pickups = a.pickups ∧
    (events.foldl receive a).status = if events.any Level.Event.isFinish then .ended else
      a.status := by
  induction events generalizing a with
  | nil => exact ⟨rfl, rfl, rfl, rfl⟩
  | cons event rest ih =>
    obtain ⟨hplayer, hscore, hpickups, hstatus⟩ := ih (a.receive event)
    rw [List.foldl_cons, hplayer, hscore, hpickups, hstatus, List.any_cons]
    cases event <;> simp [receive, Level.Event.isFinish]

end Arena

namespace Game

variable {α : Type}

/-! ## The verdict -/

def Observation.isLoss : Observation α → Bool
  | happening h => h.isLoss
  | entry _ | event _ => false

def Observation.isFinish : Observation α → Bool
  | event e => e.isFinish
  | entry _ | happening _ => false

def losses (seen : List (Observation α)) : ℕ := seen.countP Observation.isLoss

def finishes (seen : List (Observation α)) : Bool := seen.any Observation.isFinish

/-- All that was seen after the last loss of a life. -/
def sinceLoss (seen : List (Observation α)) : List (Observation α) :=
  seen.rtakeWhile fun o => !o.isLoss

/-- The state of an arena by what was seen of its game: the game is over when all three lives are
lost and the script has not ended since. -/
def verdict (seen : List (Observation α)) : Arena.Status :=
  if 3 ≤ losses seen ∧ finishes (sinceLoss seen) = false then .gameOver
  else if finishes seen then .ended
  else .playing

variable {seen later : List (Observation α)}

theorem losses_append (earlier later : List (Observation α)) :
    losses (earlier ++ later) = losses earlier + losses later := List.countP_append

theorem finishes_append (earlier later : List (Observation α)) :
    finishes (earlier ++ later) = (finishes earlier || finishes later) := List.any_append

theorem sinceLoss_append_of_no_loss (h : losses later = 0) :
    sinceLoss (seen ++ later) = sinceLoss seen ++ later := by
  have hall : ∀ o ∈ later.reverse, (!o.isLoss) = true := by
    intro o ho
    simpa using List.countP_eq_zero.1 h o (List.mem_reverse.1 ho)
  rw [sinceLoss, List.rtakeWhile, List.reverse_append, List.takeWhile_append_of_pos hall,
    List.reverse_append, List.reverse_reverse]
  rfl

theorem sinceLoss_append_of_loss (h : 0 < losses later) :
    sinceLoss (seen ++ later) = sinceLoss later := by
  obtain ⟨o, ho, hloss⟩ := List.countP_pos_iff.1 h
  have hstops : (later.reverse.takeWhile fun o => !o.isLoss).length ≠ later.reverse.length := by
    intro hlength
    have hall := List.takeWhile_eq_self_iff.1 ((List.takeWhile_prefix _).eq_of_length hlength)
    simpa [hloss] using hall o (List.mem_reverse.2 ho)
  rw [sinceLoss, List.rtakeWhile, List.reverse_append, List.takeWhile_append, if_neg hstops]
  rfl

theorem finishes_sinceLoss (h : finishes (sinceLoss seen) = true) : finishes seen = true := by
  obtain ⟨o, ho, hfinish⟩ := List.any_eq_true.1 h
  exact List.any_eq_true.2 ⟨o, (List.rtakeWhile_suffix _ _).subset ho, hfinish⟩

/-- The end of a script outweighs what was seen before, unless it came with a loss. -/
theorem verdict_of_no_loss (h : losses later = 0) :
    verdict (seen ++ later) = if finishes later then .ended else verdict seen := by
  unfold verdict
  rw [losses_append, h, add_zero, sinceLoss_append_of_no_loss h, finishes_append, finishes_append]
  cases finishes later <;> simp

/-- A loss outweighs what was seen before if it was the last. -/
theorem verdict_of_no_finish (h : finishes later = false) :
    verdict (seen ++ later) = if 0 < losses later ∧ 3 ≤ losses (seen ++ later) then .gameOver else
      verdict seen := by
  by_cases hloss : 0 < losses later
  · have hlater : finishes (sinceLoss later) = false := by
      by_contra hne
      rw [finishes_sinceLoss (by simpa using hne)] at h
      cases h
    have hbefore : losses seen ≤ losses (seen ++ later) := by
      rw [losses_append]
      exact Nat.le_add_right _ _
    unfold verdict
    rw [sinceLoss_append_of_loss hloss, hlater, finishes_append, h, Bool.or_false]
    by_cases hall : 3 ≤ losses (seen ++ later)
    · rw [if_pos ⟨hall, rfl⟩, if_pos ⟨hloss, hall⟩]
    · have hfew : ¬ 3 ≤ losses seen := fun h => hall (h.trans hbefore)
      simp [hall, hfew]
  · have hnone : losses later = 0 := Nat.eq_zero_of_not_pos hloss
    rw [verdict_of_no_loss hnone, h, hnone]
    simp

/-! ## Runs -/

theorem seen_since_update (journal : List (Level.Entry α)) (events : List (Level.Event α)) :
    losses (journal.map .entry ++ events.map .event) = 0 ∧
      finishes (journal.map .entry ++ events.map .event) = events.any Level.Event.isFinish := by
  constructor
  · refine List.countP_eq_zero.2 fun o ho => ?_
    rcases List.mem_append.1 ho with ho | ho <;> obtain ⟨_, -, rfl⟩ :=
      List.mem_map.1 ho <;> exact Bool.false_ne_true
  · have hjournal : finishes (journal.map Observation.entry) = false := by
      simp [finishes, Observation.isFinish]
    rw [finishes_append, hjournal, Bool.false_or, finishes, List.any_map]
    rfl

theorem seen_since_step (happenings : List (Arena.Happening α)) :
    losses (happenings.map .happening) = Arena.losses happenings ∧
      finishes (happenings.map .happening) = false := by
  constructor
  · rw [losses, List.countP_map]
    rfl
  · simp [finishes, Observation.isFinish]

theorem finishes_events (seen : List (Observation α)) :
    finishes seen = (events seen).any Level.Event.isFinish := by
  induction seen with
  | nil => rfl
  | cons o rest ih =>
    rw [finishes, List.any_cons]
    cases o <;> simp_all [finishes, events, Observation.isFinish, Observation.event?]

variable [Scalar α] {g g' : Game α} {dt : α}

/-- Lives and state of a game follow from what was seen of it. -/
structure Judged (g : Game α) (seen : List (Observation α)) : Prop where
  lives_eq : g.arena.player.lives = 3 - losses seen
  status_eq : g.arena.status = verdict seen

theorem judged_hear {frame : Level.Frame α} (h : Judged g seen) :
    Judged (g.hear frame) (seen ++ (frame.journal.map .entry ++ frame.events.map .event)) := by
  obtain ⟨hplayer, -, -, hstatus⟩ := Arena.receiveAll_status g.arena frame.events
  obtain ⟨hlosses, hfinishes⟩ := seen_since_update frame.journal frame.events
  constructor
  · rw [losses_append, hlosses, add_zero, ← h.lives_eq]
    exact congrArg Arena.Player.lives hplayer
  · rw [verdict_of_no_loss hlosses, hfinishes, ← h.status_eq]
    exact hstatus

variable [Elementary α]

theorem judged_report {turn : Arena.Turn α} {words : Words} (h : Judged g seen)
    (hturn : g.arena.step dt g.words = .ok (turn, words)) :
    Judged (g.report turn words) (seen ++ turn.happenings.map .happening) := by
  obtain ⟨hlives, hstatus⟩ := Arena.step_harms hturn
  obtain ⟨hlosses, hfinishes⟩ := seen_since_step turn.happenings
  have htotal : turn.arena.player.lives = 3 - losses (seen ++ turn.happenings.map .happening) := by
    rw [hlives, h.lives_eq, losses_append, hlosses, Nat.sub_sub]
  rw [report, release_eq]
  refine ⟨htotal, ?_⟩
  have hlast : turn.arena.player.lives = 0 ↔
      3 ≤ losses (seen ++ turn.happenings.map .happening) := by
    rw [htotal, Nat.sub_eq_zero_iff_le]
  rw [verdict_of_no_finish hfinishes, hlosses, ← h.status_eq]
  exact hstatus.trans (if_congr (and_congr_right fun _ => hlast) rfl rfl)

theorem judged_run (h : Judged g seen) {actions : List (Action α)}
    (hrun : g.run actions = .ok (g', later)) : Judged g' (seen ++ later) :=
  run_induction (fun h _ => judged_hear h) (fun h hturn => judged_report h hturn)
    (fun _ _ h => ⟨h.lives_eq, h.status_eq⟩) h hrun

structure Lost (score : ℕ) (pickups : List (Arena.Pickup α)) (g : Game α) : Prop where
  status_eq : g.arena.status = .gameOver
  score_eq : g.arena.score = score
  pickups_eq : g.arena.pickups = pickups

theorem Lost.step {score : ℕ} {pickups : List (Arena.Pickup α)}
    (h : Lost score pickups g) (dt : α) : g.step dt = .ok (g, []) := by
  unfold Game.step
  change (g.arena.step dt g.words >>= _) = _
  rw [Arena.step_idle (.inr h.status_eq)]
  rfl

theorem lost_run {score : ℕ} {pickups : List (Arena.Pickup α)} (h : Lost score pickups g)
    {actions : List (Action α)} (hrun : g.run actions = .ok (g', later))
    (hend : finishes later = false) : Lost score pickups g' ∧ losses later = 0 := by
  have hstart : finishes ([] : List (Observation α)) = false →
      Lost score pickups g ∧ losses ([] : List (Observation α)) = 0 := fun _ => ⟨h, rfl⟩
  refine run_induction
    (P := fun g seen => finishes seen = false → Lost score pickups g ∧ losses seen = 0)
    ?_ ?_ ?_ hstart hrun hend
  · intro g seen dt frame h _ hend
    rw [finishes_append, Bool.or_eq_false_iff] at hend
    obtain ⟨⟨hstatus, hscore, hpickups⟩, hnone⟩ := h hend.1
    obtain ⟨-, hscores, hpicks, hstays⟩ := Arena.receiveAll_status g.arena frame.events
    obtain ⟨hlosses, hfinishes⟩ := seen_since_update frame.journal frame.events
    rw [← hfinishes, hend.2] at hstays
    refine ⟨⟨hstays.trans hstatus, hscores.trans hscore, hpicks.trans hpickups⟩, ?_⟩
    rw [losses_append, hnone, hlosses]
  · intro g seen dt turn words h hturn hend
    rw [finishes_append, Bool.or_eq_false_iff] at hend
    obtain ⟨hlost, hnone⟩ := h hend.1
    rw [Arena.step_idle (.inr hlost.status_eq)] at hturn
    obtain ⟨rfl, rfl⟩ := Prod.mk.inj (Except.ok.inj hturn)
    rw [report, release_eq]
    exact ⟨⟨hlost.status_eq, hlost.score_eq, hlost.pickups_eq⟩, by simpa using hnone⟩
  · intro g seen position shots h hend
    obtain ⟨⟨hstatus, hscore, hpickups⟩, hnone⟩ := h hend
    exact ⟨⟨hstatus, hscore, hpickups⟩, hnone⟩

theorem finishes_of_finished (h : g.level.isFinished = true) {actions : List (Action α)}
    (hrun : g.run actions = .ok (g', later)) : finishes later = false := by
  obtain ⟨calls, hcalls⟩ := level_run hrun
  obtain ⟨l, hsilent, -⟩ := Level.finished_run h calls
  rw [hsilent] at hcalls
  obtain ⟨-, -, hevents⟩ := Level.Frame.mk.inj (Except.ok.inj hcalls)
  rw [finishes_events, ← hevents]
  rfl

/-- However a game is played from its start, losses and the end of the script decide on its state,
the later one over the earlier. From a lost game on, a step changes nothing and no life, score or
pickup is touched until the script ends; a game that is lost after its script stays lost. -/
theorem game_over_lasts_until_the_script_ends (script : List (Script.Instruction α)) (world : Vec α)
    (tempo grace : α) (levelWords arenaWords : Words) (actions : List (Action α))
    (hrun : (start script world tempo grace levelWords arenaWords).run actions = .ok (g, seen)) :
    g.arena.player.lives = 3 - losses seen ∧ g.arena.status = verdict seen ∧
    (g.arena.status = .gameOver → g.arena.player.lives = 0) ∧
    (g.arena.player.lives = 0 → finishes (sinceLoss seen) = false → g.arena.status = .gameOver) ∧
    (g.arena.status = .gameOver → ∀ more g' later, g.run more = .ok (g', later) →
      finishes later = false ∨ g.level.isFinished = true →
      g'.arena.status = .gameOver ∧ g'.arena.player.lives = 0 ∧ g'.arena.score = g.arena.score ∧
        g'.arena.pickups = g.arena.pickups ∧ ∀ dt, g'.step dt = .ok (g', [])) := by
  have hstart : Judged (start script world tempo grace levelWords arenaWords) [] := ⟨rfl, rfl⟩
  have hjudged : Judged g seen := judged_run hstart hrun
  have hover : g.arena.status = .gameOver → g.arena.player.lives = 0 := by
    intro hstatus
    rw [hjudged.status_eq, verdict] at hstatus
    rw [hjudged.lives_eq, Nat.sub_eq_zero_iff_le]
    by_contra hfew
    rw [if_neg fun h => hfew h.1] at hstatus
    split at hstatus <;> cases hstatus
  refine ⟨hjudged.lives_eq, hjudged.status_eq, hover, ?_, ?_⟩
  · intro hlives hend
    rw [hjudged.lives_eq, Nat.sub_eq_zero_iff_le] at hlives
    rw [hjudged.status_eq, verdict, if_pos ⟨hlives, hend⟩]
  · intro hstatus more g' later hmore hend
    have hquiet : finishes later = false := hend.elim id fun h => finishes_of_finished h hmore
    obtain ⟨hlost, hnone⟩ := lost_run ⟨hstatus, rfl, rfl⟩ hmore hquiet
    have hlives : g'.arena.player.lives = 0 := by
      have htotal := (judged_run hjudged hmore).lives_eq
      rw [losses_append, hnone, add_zero, ← hjudged.lives_eq, hover hstatus] at htotal
      exact htotal
    exact ⟨hlost.status_eq, hlives, hlost.score_eq, hlost.pickups_eq, hlost.step⟩

section

/-- All that happens below lies on one horizontal line, where roots are taken of squares and nothing
turns. -/
local instance aligned : Elementary Exact where
  sqrt
    | .finite q => .finite q.sqrt
    | x => x
  sin _ := 0
  cos _ := 1
  atan2 _ _ := 0

def sentries : Script.Group Exact :=
  { window := .literal 0, members := [⟨'A', .packed ⟨9100000601⟩⟩], reward := ⟨'P', .never⟩,
    side := .left, factors := []
    trajectory := [.lasting (.literal 0), .move (.literal (.finite (5 / 32)))
      (.literal (.finite (1 / 2)))] }

/-- A sentry goes to its place beside the player at once and fires. After five seconds the script
ends. -/
def guarded : Game Exact :=
  start [.spawn sentries, .wait (.literal 5), .finish] ⟨320, 180⟩ 120 (.finite (1 / 2))
    (Words.cycle #[]) (Words.cycle #[])

def threeHits : List (Action Exact) :=
  [.update 1, .step (.finite (1 / 4)), .step 2, .step (.finite (1 / 4)), .step 2,
    .step (.finite (1 / 4))]

theorem guarded_game_stays_lost :
    ∃ g seen g' later, guarded.run threeHits = .ok (g, seen) ∧ losses seen = 3 ∧
      g.arena.status = .gameOver ∧
      g.run [.update 2, .fire, .step 2] = .ok (g', later) ∧ finishes later = false ∧
      g'.arena.status = .gameOver ∧ g'.arena.player.lives = 0 ∧
      ∀ dt, g'.step dt = .ok (g', []) := by
  have hview : (guarded.run threeHits).map (fun p =>
      (losses p.2, p.1.arena.status, (p.1.run [.update 2, .fire, .step 2]).map
        fun q => finishes q.2)) =
      .ok (3, .gameOver, .ok false) := by
    decide +kernel
  obtain ⟨⟨g, seen⟩, hrun, hview⟩ := ok_of_map hview
  simp only [Prod.mk.injEq] at hview
  obtain ⟨hlosses, hstatus, hmore⟩ := hview
  obtain ⟨⟨g', later⟩, hmore, hquiet⟩ := ok_of_map hmore
  obtain ⟨-, -, -, -, hlasts⟩ := game_over_lasts_until_the_script_ends _ _ _ _ _ _ _ hrun
  obtain ⟨hstill, hlives, -, -, hsteps⟩ := hlasts hstatus _ g' later hmore (Or.inl hquiet)
  exact ⟨g, seen, g', later, hrun, hlosses, hstatus, hmore, hquiet, hstill, hlives, hsteps⟩

/-- When the script ends, the sentry fires again at a player without lives. -/
theorem end_of_script_reopens_lost_game :
    ∃ g seen g' later g'' more, guarded.run threeHits = .ok (g, seen) ∧ g.arena.status = .gameOver ∧
      g.run [.update 4] = .ok (g', later) ∧ g'.arena.status = .ended ∧ g'.arena.player.lives = 0 ∧
      g'.step 2 = .ok (g'', more) ∧ g'.arena.shots.length < g''.arena.shots.length := by
  have hview : (guarded.run threeHits).map
      (fun p => (p.1.arena.status, (p.1.run [.update 4]).map fun q =>
      (q.1.arena.status, q.1.arena.player.lives, q.1.arena.shots.length))) =
      .ok (.gameOver, .ok (.ended, 0, 16)) := by
    decide +kernel
  have hfires : (guarded.run threeHits).map (fun p => (p.1.run [.update 4]).map fun q =>
      (q.1.step 2).map fun r => r.1.arena.shots.length) = .ok (.ok (.ok 24)) := by
    decide +kernel
  obtain ⟨⟨g, seen⟩, hrun, hview⟩ := ok_of_map hview
  obtain ⟨hstatus, hmore⟩ := Prod.mk.inj hview
  obtain ⟨⟨g', later⟩, hmore, hview⟩ := ok_of_map hmore
  simp only [Prod.mk.injEq] at hview
  obtain ⟨hended, hlives, hbefore⟩ := hview
  rw [hrun] at hfires
  have hfires : (g.run [.update 4]).map (fun q => (q.1.step 2).map
    fun r => r.1.arena.shots.length) = .ok (.ok 24) :=
    Except.ok.inj hfires
  rw [hmore] at hfires
  obtain ⟨⟨g'', more⟩, hstep, hafter⟩ := ok_of_map (Except.ok.inj hfires)
  refine ⟨g, seen, g', later, g'', more, hrun, hstatus, hmore, hended, hlives, hstep, ?_⟩
  rw [hbefore, hafter]
  decide

end

end Game

end Barrage
