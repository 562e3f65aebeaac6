import Barrage.Proofs.Arena.Parts
import Barrage.Scalar.Single

/-! # Blow by blow

An enemy is beaten stage by stage. Blows come at moments of their own: in between, its protection
may run out or be renewed, and the countdown of its group may go on with the defeats of others.
Whatever happens there, the blows that are not absorbed take the enemy through one and the same
course. -/

namespace Barrage.Arena

open Level (Bounties)
open Trajectory (Stage)

structure Blow (α : Type) where
  /-- For how long the enemy is protected now, if something else has decided on that. -/
  protection : Option α
  /-- The countdowns as the blow finds them. -/
  bounties : Bounties

variable {α : Type}

/-- The enemy as a blow finds it. -/
def Enemy.facing (e : Enemy α) (x : Blow α) : Enemy α :=
  { e with invincibleFor := x.protection.getD e.invincibleFor }

/-- From `points` hit points on, through these stages; a stage begins with `full` hit points. -/
def course (full points : ℕ) (reward : Option Char) : List (Stage α) → List HitOutcome
  | s :: t :: rest =>
    List.replicate (points - 1) .hurt ++ .stageCleared s.reward ::
      course full full reward (t :: rest)
  | _ => List.replicate (points - 1) .hurt ++ [.defeated reward]

/-- The whole course: every stage but the last is cleared by its last blow, and in the last stage
that is the defeat. -/
theorem course_eq (full : ℕ) (reward : Option Char) :
    ∀ stages : List (Stage α), course full full reward stages =
    (stages.dropLast.flatMap fun s => List.replicate (full - 1) .hurt ++
      [.stageCleared s.reward]) ++ List.replicate (full - 1) .hurt ++ [.defeated reward]
  | [] => rfl
  | [_] => rfl
  | s :: t :: rest => by
    rw [course, course_eq full reward (t :: rest), List.dropLast_cons_cons, List.flatMap_cons]
    simp only [List.append_assoc, List.cons_append, List.nil_append]

def Enemy.ahead (e : Enemy α) (reward : Option Char) : List HitOutcome :=
  if e.hitPoints = 0 then []
  else course e.initialHitPoints e.hitPoints reward (e.flight.program.stages.drop e.flight.stage)

variable [Scalar α]

def Enemy.suffer (e : Enemy α) (x : Blow α) : HitOutcome × Enemy α × Bounties :=
  (e.facing x).hit 1 x.bounties

def Enemy.after (e : Enemy α) : List (Blow α) → Enemy α
  | [] => e
  | x :: rest => (e.suffer x).2.1.after rest

def Enemy.outcomes (e : Enemy α) : List (Blow α) → List HitOutcome
  | [] => []
  | x :: rest => (e.suffer x).1 :: (e.suffer x).2.1.outcomes rest

/-! ## One blow -/

structure Enemy.Sustains (e e' : Enemy α) : Prop where
  group_eq : e'.group = e.group
  initial_eq : e'.initialHitPoints = e.initialHitPoints
  program_eq : e'.flight.program = e.flight.program
  stage_le : e'.flight.stage ≤ max e.flight.stage (e.flight.program.stages.length - 1)

omit [Scalar α] in
theorem Enemy.Sustains.trans {e e' e'' : Enemy α} (h : e.Sustains e') (k : e'.Sustains e'') :
    e.Sustains e'' := by
  refine ⟨k.group_eq.trans h.group_eq, k.initial_eq.trans h.initial_eq,
    k.program_eq.trans h.program_eq, ?_⟩
  have hle := k.stage_le
  rw [h.program_eq] at hle
  exact hle.trans (max_le h.stage_le (le_max_right _ _))

/-- A blow is absorbed, or it is the next thing ahead of the enemy; the defeat is the last one. -/
inductive Enemy.Suffers (e : Enemy α) (x : Blow α) : HitOutcome × Enemy α × Bounties → Prop where
  | absorbed : 0 < (e.facing x).invincibleFor ∨ e.hitPoints = 0 →
      Suffers e x (.absorbed, e.facing x, x.bounties)
  | advances {outcome : HitOutcome} {e' : Enemy α} : ¬ 0 < (e.facing x).invincibleFor →
      e.hitPoints ≠ 0 →
      outcome ≠ .absorbed → (∀ reward, outcome ≠ .defeated reward) → e.Sustains e' →
      (0 < e.initialHitPoints →
        e'.hitPoints ≠ 0 ∧ ∀ reward, e.ahead reward = outcome :: e'.ahead reward) →
      Suffers e x (outcome, e', x.bounties)
  | beaten : ¬ 0 < (e.facing x).invincibleFor → e.hitPoints ≠ 0 →
      (∀ reward, e.ahead reward = [.defeated reward]) →
      Suffers e x (.defeated (x.bounties.defeat e.group).1, { e.facing x with hitPoints := 0 },
        (x.bounties.defeat e.group).2)

theorem suffer_suffers (e : Enemy α) (x : Blow α) : e.Suffers x (e.suffer x) := by
  have hstruck := hit_struck (e.facing x) 1 x.bounties
  change e.Suffers x ((e.facing x).hit 1 x.bounties)
  generalize (e.facing x).hit 1 x.bounties = result at hstruck
  have hpoints : (e.facing x).hitPoints = e.hitPoints := rfl
  have hflight : (e.facing x).flight = e.flight := rfl
  cases hstruck with
  | absorbed habsorbs => exact .absorbed habsorbs
  | hurt hopen hmore =>
    rw [hpoints] at hmore
    refine .advances hopen (by omega) nofun nofun ⟨rfl, rfl, rfl, le_max_left _ _⟩ fun _ =>
      ⟨?_, fun reward => ?_⟩
    · exact Nat.sub_ne_zero_of_lt hmore
    · obtain ⟨points, hsome⟩ := Nat.exists_eq_add_of_lt hmore
      have hfirst : e.hitPoints = points + 2 := by omega
      unfold Enemy.ahead
      rw [if_neg (by omega)]
      change _ = HitOutcome.hurt :: if e.hitPoints - 1 = 0 then [] else
        course e.initialHitPoints (e.hitPoints - 1) reward
          (e.flight.program.stages.drop e.flight.stage)
      rw [if_neg (by omega), hfirst]
      match e.flight.program.stages.drop e.flight.stage with
      | [] => rfl
      | [s] => rfl
      | s :: t :: rest => rfl
  | stageCleared hopen hlives hlast hmore =>
    rw [hpoints] at hlives hlast
    rw [hflight] at hmore ⊢
    have hnext : e.flight.stage + 1 < e.flight.program.stages.length := by
      simpa [Trajectory.Flight.isLastStage] using hmore
    have hcompleted : e.flight.completeStage =
        ((e.flight.program.stages[e.flight.stage]?).bind Stage.reward,
        { e.flight with stage := e.flight.stage + 1, latches := e.flight.program.cleared }) := by
      unfold Trajectory.Flight.completeStage
      rw [if_neg (by simp [hmore])]
    rw [hcompleted]
    refine .advances hopen hlives nofun nofun ⟨rfl, rfl, rfl, ?_⟩ fun hfull =>
      ⟨hfull.ne', fun reward => ?_⟩
    · exact le_max_of_le_right (by change e.flight.stage + 1 ≤ _; omega)
    · -- what is ahead is this blow and behind it the whole of the next stage
      have hstages : e.flight.program.stages.drop e.flight.stage =
          e.flight.program.stages[e.flight.stage] :: e.flight.program.stages[e.flight.stage + 1] ::
            e.flight.program.stages.drop (e.flight.stage + 2) := by
        rw [List.drop_eq_getElem_cons (by omega), List.drop_eq_getElem_cons hnext]
      have hlater : e.flight.program.stages.drop (e.flight.stage + 1) =
          e.flight.program.stages[e.flight.stage + 1] ::
            e.flight.program.stages.drop (e.flight.stage + 2) :=
        List.drop_eq_getElem_cons hnext
      have hone : e.hitPoints = 1 := by omega
      unfold Enemy.ahead
      rw [if_neg hlives, hone, hstages, List.getElem?_eq_getElem (by omega)]
      change _ = HitOutcome.stageCleared _ :: if e.initialHitPoints = 0 then [] else
        course e.initialHitPoints e.initialHitPoints reward
          (e.flight.program.stages.drop (e.flight.stage + 1))
      rw [if_neg hfull.ne', hlater]
      rfl
  | defeated hopen hlives hlast hover =>
    rw [hpoints] at hlives hlast
    rw [hflight] at hover
    refine .beaten hopen hlives fun reward => ?_
    -- no stage is behind the last one, and a program may have none at all
    have hfew : (e.flight.program.stages.drop e.flight.stage).length ≤ 1 := by
      have hlength : e.flight.program.stages.length ≤ e.flight.stage + 1 := by
        simpa [Trajectory.Flight.isLastStage] using hover
      rw [List.length_drop]
      omega
    have hone : e.hitPoints = 1 := by omega
    unfold Enemy.ahead
    rw [if_neg hlives, hone]
    match e.flight.program.stages.drop e.flight.stage, hfew with
    | [], _ => rfl
    | [s], _ => rfl

/-! ## Many blows -/

variable {e : Enemy α} {x : Blow α}

theorem suffer_sustains (e : Enemy α) (x : Blow α) : e.Sustains (e.suffer x).2.1 := by
  have hsuffers := suffer_suffers e x
  generalize e.suffer x = result at hsuffers
  cases hsuffers with
  | advances _ _ _ _ hsustains => exact hsustains
  | _ => exact ⟨rfl, rfl, rfl, le_max_left _ _⟩

theorem after_sustains (e : Enemy α) (blows : List (Blow α)) : e.Sustains (e.after blows) := by
  induction blows generalizing e with
  | nil => exact ⟨rfl, rfl, rfl, le_max_left _ _⟩
  | cons x rest ih => exact (suffer_sustains e x).trans (ih _)

theorem outcomes_of_beaten (hbeaten : e.hitPoints = 0) (blows : List (Blow α)) :
    (e.outcomes blows).filter (· ≠ .absorbed) = [] ∧ (e.after blows).hitPoints = 0 := by
  induction blows generalizing e with
  | nil => exact ⟨rfl, hbeaten⟩
  | cons x rest ih =>
    have hsuffers := suffer_suffers e x
    rw [Enemy.outcomes, Enemy.after]
    generalize e.suffer x = result at hsuffers
    cases hsuffers with
    | absorbed =>
      rw [List.filter_cons_of_neg (by simp)]
      exact ih hbeaten
    | advances _ hlives => exact absurd hbeaten hlives
    | beaten _ hlives => exact absurd hbeaten hlives

/-- Blows that are not absorbed are what was ahead of the enemy, one after the other. -/
theorem outcomes_ahead (hfull : 0 < e.initialHitPoints) (blows : List (Blow α)) :
    ∃ reward, (e.outcomes blows).filter (· ≠ .absorbed) <+: e.ahead reward := by
  induction blows generalizing e with
  | nil => exact ⟨none, List.nil_prefix⟩
  | cons x rest ih =>
    have hsuffers := suffer_suffers e x
    have hsustains := suffer_sustains e x
    rw [Enemy.outcomes]
    generalize e.suffer x = result at hsuffers hsustains
    obtain ⟨reward, hrest⟩ := ih (e := result.2.1) (hsustains.initial_eq ▸ hfull)
    cases hsuffers with
    | absorbed =>
      rw [List.filter_cons_of_neg (by simp)]
      exact ⟨reward, hrest⟩
    | advances _ _ hopen _ _ hahead =>
      rw [List.filter_cons_of_pos (by simpa using hopen)]
      refine ⟨reward, ?_⟩
      rw [(hahead hfull).2 reward]
      exact (List.prefix_cons_inj _).2 hrest
    | beaten _ _ hahead =>
      rw [List.filter_cons_of_pos (by simp), (outcomes_of_beaten rfl rest).1]
      refine ⟨(x.bounties.defeat e.group).1, ?_⟩
      rw [hahead]

theorem beaten_iff_defeated (hfull : 0 < e.initialHitPoints) (hlives : e.hitPoints ≠ 0)
    (blows : List (Blow α)) :
    (e.after blows).hitPoints = 0 ↔ ∃ reward, .defeated reward ∈ e.outcomes blows := by
  induction blows generalizing e with
  | nil => simp [Enemy.after, Enemy.outcomes, hlives]
  | cons x rest ih =>
    have hsuffers := suffer_suffers e x
    have hsustains := suffer_sustains e x
    rw [Enemy.outcomes, Enemy.after]
    generalize e.suffer x = result at hsuffers hsustains
    have hlater := ih (e := result.2.1) (hsustains.initial_eq ▸ hfull)
    cases hsuffers with
    | absorbed =>
      rw [hlater hlives]
      simp
    | advances _ _ _ hstays _ hahead =>
      rw [hlater (hahead hfull).1]
      refine exists_congr fun reward => ?_
      rw [List.mem_cons, or_iff_right (hstays reward).symm]
    | beaten =>
      refine iff_of_true (outcomes_of_beaten rfl rest).2 ⟨_, List.mem_cons_self⟩

/-- Through whatever list of blows, those that are not absorbed take a fresh enemy along its course:
each stage costs it its hit points and is cleared for its reward, and the last one ends in its
defeat. The next blow is absorbed when the enemy is protected or defeated, and only then; an
absorbed blow changes nothing, and no blow but the one that defeats the enemy touches the countdown
of its group. -/
theorem enemies_are_beaten_stage_by_stage (e : Enemy α) (hfull : 0 < e.initialHitPoints)
    (hfresh : e.hitPoints = e.initialHitPoints) (hfirst : e.flight.stage = 0)
    (blows : List (Blow α)) :
    (∃ reward, (e.outcomes blows).filter (· ≠ .absorbed) <+:
      (e.flight.program.stages.dropLast.flatMap fun s =>
        List.replicate (e.initialHitPoints - 1) .hurt ++ [.stageCleared s.reward]) ++
      List.replicate (e.initialHitPoints - 1) .hurt ++ [.defeated reward]) ∧
    ((e.after blows).hitPoints = 0 ↔ ∃ reward, .defeated reward ∈ e.outcomes blows) ∧
    (e.after blows).flight.stage ≤ e.flight.program.stages.length - 1 ∧
    ∀ x outcome e' bounties, (e.after blows).suffer x = (outcome, e', bounties) →
      (outcome = .absorbed ↔
        0 < ((e.after blows).facing x).invincibleFor ∨
          ∃ reward, .defeated reward ∈ e.outcomes blows) ∧
      (outcome = .absorbed → e' = (e.after blows).facing x) ∧
      (∀ reward, outcome = .defeated reward → (reward, bounties) = x.bounties.defeat e.group) ∧
      ((∀ reward, outcome ≠ .defeated reward) → bounties = x.bounties) := by
  have hlives : e.hitPoints ≠ 0 := hfresh ▸ hfull.ne'
  have hbeaten := beaten_iff_defeated hfull hlives blows
  have hsustains := after_sustains e blows
  refine ⟨?_, hbeaten, ?_, fun x outcome e' bounties hblow => ?_⟩
  · obtain ⟨reward, hcourse⟩ := outcomes_ahead hfull blows
    rw [Enemy.ahead, if_neg hlives, hfirst, List.drop_zero, hfresh, course_eq] at hcourse
    exact ⟨reward, hcourse⟩
  · have hstage := hsustains.stage_le
    rwa [hfirst, Nat.zero_max] at hstage
  · have hsuffers := suffer_suffers (e.after blows) x
    rw [hblow] at hsuffers
    rw [← hbeaten]
    cases hsuffers with
    | absorbed habsorbs => exact ⟨iff_of_true rfl habsorbs, fun _ => rfl, nofun, fun _ => rfl⟩
    | advances hopen halive hstruck hstays =>
      exact ⟨iff_of_false hstruck (not_or.2 ⟨hopen, halive⟩), fun h => absurd h hstruck,
        fun reward h => absurd h (hstays reward), fun _ => rfl⟩
    | beaten hopen halive =>
      refine ⟨iff_of_false nofun (not_or.2 ⟨hopen, halive⟩), nofun, fun reward h => ?_,
        fun h => absurd rfl (h _)⟩
      rw [← HitOutcome.defeated.inj h, hsustains.group_eq]

/-- Two hit points, and a second stage behind the first. -/
def twoFaced : Enemy Float32 :=
  .spawn 0 ⟨320, 180⟩ 120
    { group := ⟨0, 0⟩, member := 0, groupSize := 1, enemyType := 2, side := .right,
      sideFactor := 0.5, hitPoints := 2
      invincibility := 1, program := ⟨[⟨[], some 'S'⟩, ⟨[], none⟩], false, 0⟩, pattern := ⟨0⟩,
        reward := ⟨'p', .each⟩ }

def Blow.later : Blow Float32 := ⟨some 0, ⟨[(⟨0, 0⟩, ⟨'p', true, 1⟩)]⟩⟩

def Blow.atOnce : Blow Float32 := ⟨none, ⟨[(⟨0, 0⟩, ⟨'p', true, 1⟩)]⟩⟩

/-- The protection that a blow leaves behind stops the next one, unless it has run out meanwhile. -/
theorem two_faced_enemy_is_beaten_twice :
    twoFaced.outcomes [.atOnce, .atOnce, .later, .atOnce, .later, .later] =
      [.hurt, .absorbed, .stageCleared (some 'S'), .absorbed, .hurt, .defeated (some 'p')] ∧
    (∃ reward, (twoFaced.outcomes [.atOnce, .atOnce, .later, .atOnce, .later, .later]).filter
      (· ≠ .absorbed) <+: [.hurt, .stageCleared (some 'S'), .hurt, .defeated reward]) ∧
    ((twoFaced.after [.atOnce, .atOnce, .later, .atOnce, .later, .later]).suffer .later).1 =
      .absorbed := by
  have houtcomes : twoFaced.outcomes [.atOnce, .atOnce, .later, .atOnce, .later, .later] =
      [.hurt, .absorbed, .stageCleared (some 'S'), .absorbed, .hurt, .defeated (some 'p')] := by
    decide +kernel
  obtain ⟨hcourse, -, -, hnext⟩ := enemies_are_beaten_stage_by_stage twoFaced (by decide) rfl rfl
    [.atOnce, .atOnce, .later, .atOnce, .later, .later]
  obtain ⟨habsorbs, -⟩ := hnext .later _ _ _ rfl
  refine ⟨houtcomes, hcourse, habsorbs.2 (.inr ⟨some 'p', ?_⟩)⟩
  rw [houtcomes]
  decide

end Barrage.Arena
