import Barrage.Proofs.Arena.Orbits
import Barrage.Proofs.Game.Run
import Barrage.Scalar.Single

/-! # Orphaned shots

However an enemy has left a game, what circled it is gone after the next step, and nobody who comes
later is taken for it. Enemies leave by defeat or by staying away, but they can also be removed by
hand; so the games looked at here are those that any use of a game leads to. -/

namespace Barrage.Game

open Arena (Enemy Succeeds)
open Pattern (circlingOffset)

variable {α : Type} [Scalar α] [Elementary α]

/-- One game leads to another by actions and by what is done to enemies from outside. -/
inductive Reaches (g : Game α) : Game α → Prop where
  | refl : Reaches g g
  | perform {h k : Game α} {action : Action α} {seen : List (Observation α)} :
      Reaches g h → h.perform action = .ok (k, seen) → Reaches g k
  | remove {h : Game α} (i : ℕ) : Reaches g h → Reaches g (h.remove i)
  | clear {h : Game α} : Reaches g h → Reaches g h.clear
  | hit {h k : Game α} {i damage : ℕ} {outcome : Arena.HitOutcome} :
      Reaches g h → h.hit i damage = some (outcome, k) → Reaches g k
  | publish {h k : Game α} {i : ℕ} {pattern : Pattern.Packed} {changed : Bool} :
      Reaches g h → h.publish i pattern = some (changed, k) → Reaches g k

theorem Reaches.run {g h k : Game α} {actions : List (Action α)} {seen : List (Observation α)}
    (hreach : Reaches g h) (hrun : h.run actions = .ok (k, seen)) : Reaches g k := by
  induction actions generalizing h seen with
  | nil =>
    obtain ⟨rfl, -⟩ := Prod.mk.inj (Except.ok.inj hrun)
    exact hreach
  | cons action rest ih =>
    obtain ⟨⟨first, observed⟩, hfirst, hrun⟩ := parts_of_ok hrun
    obtain ⟨⟨last, later⟩, hlast, hrun⟩ := parts_of_ok hrun
    obtain ⟨rfl, -⟩ := Prod.mk.inj (Except.ok.inj hrun)
    exact ih (hreach.perform hfirst) hlast

variable {g h k : Game α}

theorem perform_succeeds {action : Action α} {seen : List (Observation α)}
    (hperform : g.perform action = .ok (k, seen)) : Succeeds g.arena k.arena := by
  cases perform_does hperform with
  | @update _ frame => exact Arena.receiveAll_succeeds g.arena frame.events
  | step hturn =>
    rw [report, release_eq]
    exact Arena.step_succeeds hturn
  | player position shots _ hshots => exact Arena.player_succeeds position hshots

omit [Scalar α] [Elementary α] in
theorem setEnemy_succeeds {i : ℕ} {e e' : Enemy α} (hget : g.arena.enemies[i]? = some e)
    (hid : e'.id = e.id) (bounties : Level.Bounties) :
    Succeeds g.arena { (g.setEnemy i e').arena with bounties } :=
  .of_sublist ((Arena.ids_set hget hid).symm ▸ .refl _) rfl fun h => h.orbits

theorem Reaches.succeeds (hreach : Reaches g h) : Succeeds g.arena h.arena := by
  induction hreach with
  | refl => exact .refl _
  | perform _ hperform ih => exact ih.trans (perform_succeeds hperform)
  | @remove h i _ ih =>
    refine ih.trans ?_
    unfold Game.remove
    split
    · rw [release_eq]
      exact .of_sublist ((List.eraseIdx_sublist _ i).map _) rfl fun h => h.orbits
    · exact .refl _
  | @clear h _ ih =>
    refine ih.trans ?_
    rw [Game.clear, release_eq]
    exact .of_sublist (List.nil_sublist _) rfl fun h => h.orbits
  | @hit h k i damage outcome _ hhit ih =>
    obtain ⟨e, hget, hhit⟩ := Option.bind_eq_some_iff.1 hhit
    obtain ⟨-, rfl⟩ := Prod.mk.inj (Option.some.inj hhit)
    exact ih.trans (setEnemy_succeeds hget (Arena.hit_keeps e damage h.arena.bounties).1 _)
  | @publish h k i pattern changed _ hpublish ih =>
    obtain ⟨e, hget, hpublish⟩ := Option.bind_eq_some_iff.1 hpublish
    obtain ⟨-, rfl⟩ := Prod.mk.inj (Option.some.inj hpublish)
    have hid : (e.publish pattern).2.id = e.id := rfl
    exact ih.trans (setEnemy_succeeds hget hid h.arena.bounties)

/-- The shots in orbit after a step are with enemies that were there before it, each with the one
that has fired it. -/
def Orbits (g : Game α) : Prop :=
  ∀ dt turn words, g.arena.step dt g.words = .ok (turn, words) → ¬ dt ≤ 0 →
    g.arena.status ≠ .gameOver →
    ∀ s ∈ turn.arena.shots, ∀ id phase reach, s.motion = .circling id .emitter phase reach →
      ∃ e ∈ g.arena.enemies, e.id = id ∧
        s.position = (e.moved g.arena.world g.arena.tempo dt).position +
          circlingOffset s.age phase reach ∧
        ∃ before : Arena.Shot α, before.motion = s.motion ∧
          (before ∈ g.arena.shots ∨ g.arena.Fires dt e before)

theorem parked_is_outside (world : Vec Float32) :
    Arena.within Arena.parkingPosition world = false := by
  have hleft : decide (-Arena.margin ≤ (Arena.parkingPosition : Vec Float32).x) = false := by
    decide +kernel
  unfold Arena.within
  rw [hleft]
  rfl

/-- Wherever a game has got to, shots in orbit go with the enemies that have fired them. Identities
differ, and each shot in orbit goes by one that was given before. An enemy that is not there any
more never comes back, nor does anybody else come under its identity, and from the next step on
nothing circles it. -/
theorem orphans_vanish [Elementary Float32] (script : List (Script.Instruction Float32))
    (world : Vec Float32) (tempo grace : Float32) (levelWords arenaWords : Words) {g : Game Float32}
    (hreach : Reaches (start script world tempo grace levelWords arenaWords) g) :
    (g.arena.enemies.map Enemy.id).Nodup ∧
    (∀ e ∈ g.arena.enemies, e.id < g.arena.nextId) ∧
    (∀ s ∈ g.arena.shots, ∀ id, s.emitter? = some id → id < g.arena.nextId) ∧
    g.Orbits ∧
    ∀ id < g.arena.nextId, (∀ e ∈ g.arena.enemies, e.id ≠ id) → ∀ g', Reaches g g' →
      (∀ e ∈ g'.arena.enemies, e.id ≠ id) ∧
      ∀ dt turn words, g'.arena.step dt g'.words = .ok (turn, words) → ¬ dt ≤ 0 →
        g'.arena.status ≠ .gameOver →
        ∀ s ∈ turn.arena.shots, s.emitter? ≠ some id := by
  have hregistered : Arena.Registered g.arena :=
    hreach.succeeds.registered (Arena.start_registered world tempo grace)
  have horbits : ∀ g' : Game Float32, Arena.Registered g'.arena → g'.Orbits :=
    fun g' hregistered dt turn words hturn hdt hplays s hs id phase reach hmotion =>
      Arena.step_orbits parked_is_outside hregistered.ids hturn hdt hplays hs hmotion
  refine ⟨hregistered.ids, hregistered.issued, hregistered.orbits, horbits g hregistered, ?_⟩
  intro id hid hgone g' hlater
  have hnobody : ∀ e ∈ g'.arena.enemies, e.id ≠ id := by
    rintro e he rfl
    obtain ⟨e', he', heq⟩ := List.mem_map.1 (hlater.succeeds.known e he hid)
    exact hgone e' he' heq
  refine ⟨hnobody, fun dt turn words hturn hdt hplays s hs hcircles => ?_⟩
  obtain ⟨phase, reach, hmotion⟩ := Arena.Shot.emitter?_eq_some.1 hcircles
  obtain ⟨e, he, heq, -⟩ :=
    horbits g' (hlater.succeeds.registered hregistered) dt turn words hturn hdt hplays s hs id phase
      reach hmotion
  exact hnobody e he heq

section

local instance straight : Elementary Float32 where
  sqrt := Float32.sqrt
  sin _ := 0
  cos _ := 1
  atan2 _ _ := 0

def satellite : Script.Group Float32 :=
  { window := .literal 0, members := [⟨'A', .mnemonic "BZ"⟩], reward := ⟨'p', .never⟩,
    side := .right, factors := [.literal 0.5], trajectory := [] }

def launched : Game Float32 :=
  start [.spawn satellite] ⟨320, 180⟩ 120 0.5 (Words.cycle #[]) (Words.cycle #[])

/-- An enemy is removed by hand, and the next step takes the shot that has circled it. -/
theorem satellite_goes_with_its_enemy :
    ∃ (g : Game Float32) (turn : Arena.Turn Float32) (words : Words), Reaches launched g ∧
      g.arena.enemies = [] ∧ g.arena.shots.map Arena.Shot.emitter? = [some 0] ∧
      g.arena.step 0.01 g.words = .ok (turn, words) ∧
      ∀ s ∈ turn.arena.shots, s.emitter? ≠ some 0 := by
  have hview : (launched.run [.update 1, .step 0.3]).map (fun p =>
      (p.1.arena.shots.map Arena.Shot.emitter?, p.1.arena.nextId, p.1.arena.status,
        (p.1.clear.arena.step 0.01 p.1.clear.words).map fun q => q.1.arena.frame)) =
      .ok ([some 0], 1, .playing, .ok 2) := by
    decide +kernel
  obtain ⟨⟨g, seen⟩, hrun, hview⟩ := ok_of_map hview
  simp only [Prod.mk.injEq] at hview
  obtain ⟨hshots, hnext, hstatus, hstep⟩ := hview
  obtain ⟨⟨turn, words⟩, hturn, -⟩ := ok_of_map hstep
  have hreach : Reaches launched g.clear := (Reaches.refl.run hrun).clear
  have hcleared : g.clear.arena.enemies = [] ∧ g.clear.arena.shots = g.arena.shots ∧
      g.clear.arena.nextId = g.arena.nextId ∧ g.clear.arena.status = g.arena.status := by
    rw [Game.clear, release_eq]
    exact ⟨rfl, rfl, rfl, rfl⟩
  obtain ⟨henemies, hkept, hissued, hsame⟩ := hcleared
  obtain ⟨-, -, -, -, horphans⟩ := orphans_vanish _ _ _ _ _ _ hreach
  have hzero : 0 < g.clear.arena.nextId := by
    rw [hissued, hnext]
    decide
  have hnobody : ∀ e ∈ g.clear.arena.enemies, e.id ≠ 0 := by
    rw [henemies]
    exact List.forall_mem_nil _
  have hplays : g.clear.arena.status ≠ .gameOver := by
    rw [hsame, hstatus]
    decide
  refine ⟨g.clear, turn, words, hreach, henemies, hkept ▸ hshots, hturn, ?_⟩
  exact (horphans 0 hzero hnobody _ .refl).2 _ _ _ hturn (by decide +kernel) hplays

end

end Barrage.Game
