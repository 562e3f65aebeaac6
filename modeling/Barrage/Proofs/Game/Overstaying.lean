import Barrage.Proofs.Arena.Orbits
import Barrage.Proofs.Game.Score
import Barrage.Proofs.Game.Strides

/-! # Overstaying

An enemy may stay off the screen for a grace. Its timer says for how long it has been there without
a break, and the strides of the game say the same; so it can be told from them who leaves. -/

namespace Barrage

namespace Game

open Arena (Enemy)

variable {α : Type} [Scalar α]

/-- The enemies as they are at the end of a stride, with those that have departed in it. -/
def Stride.enemies (s : Stride α) : List (Enemy α) :=
  s.turn.arena.enemies ++ Arena.departed s.turn.happenings

def Stride.isOff (s : Stride α) (id : ℕ) : Bool :=
  s.enemies.any fun e => decide (e.id = id) && !Arena.within e.position s.turn.arena.world

/-- The time that an enemy has been off the screen: the length of the last strides at whose ends it
was. -/
def timeOff (id : ℕ) (strides : List (Stride α)) : α :=
  (strides.rtakeWhile fun s => s.isOff id).foldl (fun time s => time + s.dt) 0

theorem timeOff_snoc (id : ℕ) (strides : List (Stride α)) (s : Stride α) :
    timeOff id (strides ++ [s]) = if s.isOff id then timeOff id strides + s.dt else 0 := by
  unfold timeOff
  rw [List.rtakeWhile_concat]
  split
  · rw [List.foldl_append]
    rfl
  · rfl

theorem timeOff_of_unseen {id : ℕ} {strides : List (Stride α)}
    (h : ∀ s ∈ strides, s.isOff id = false) : timeOff id strides = 0 := by
  rcases List.eq_nil_or_concat strides with rfl | ⟨earlier, s, rfl⟩
  · rfl
  · rw [List.concat_eq_append] at h ⊢
    rw [timeOff_snoc, h s (by simp), if_neg Bool.false_ne_true]

end Game

namespace Arena

open Game (Stride timeOff)

variable {α : Type} [Scalar α] {a : Arena α} {dt : α}

/-- The timers of enemies go by the strides of the game. -/
structure Watched (grace : α) (a : Arena α) (strides : List (Stride α)) : Prop where
  grace_eq : a.grace = grace
  registered : Registered a
  timers : ∀ e ∈ a.enemies, e.offscreenFor = timeOff e.id strides
  past : ∀ s ∈ strides, ∀ e ∈ s.enemies, e.id < a.nextId

variable {grace : α} {strides : List (Stride α)}

theorem Watched.receive (h : Watched grace a strides) (event : Level.Event α) :
    Watched grace (a.receive event) strides := by
  have hregistered := (receive_succeeds a event).registered h.registered
  cases event with
  | spawn request =>
    have hunseen : ∀ s ∈ strides, s.isOff a.nextId = false := by
      intro s hs
      refine List.any_eq_false.2 fun e he => ?_
      simp [(h.past s hs e he).ne]
    refine ⟨h.grace_eq, hregistered, fun e he => ?_, fun s hs e he => ?_⟩
    · rcases List.mem_append.1 he with he | he
      · exact h.timers e he
      · rw [List.mem_singleton.1 he]
        exact (Game.timeOff_of_unseen hunseen).symm
    · exact (h.past s hs e he).trans (Nat.lt_succ_self _)
  | _ => exact ⟨h.grace_eq, hregistered, h.timers, h.past⟩

theorem Watched.receiveAll (h : Watched grace a strides) (events : List (Level.Event α)) :
    Watched grace (events.foldl Arena.receive a) strides := by
  induction events generalizing a with
  | nil => exact h
  | cons event rest ih => exact ih (h.receive event)

variable [Elementary α]

omit [Elementary α] in
theorem place_lasting : Lasting fun e : Enemy α => (e.id, e.position) := by
  refine ⟨fun e damage bounties => ?_, fun _ _ _ => rfl, fun _ => rfl⟩
  exact congrArg (fun sighting => (sighting.1, sighting.2.1)) (hit_sighting e damage bounties)

section

variable {turn : Turn α} {w w' : Words}

/-- At the end of a stride everybody is where it has moved, also who has departed. -/
theorem places_of_stride (hturn : a.step dt w = .ok (turn, w')) (hdt : ¬ dt ≤ 0)
    (hplays : a.status ≠ .gameOver) :
    (((⟨dt, turn⟩ : Stride α).enemies).map fun e => (e.id, e.position)).Perm
      (a.enemies.map fun e => (e.id, (e.moved a.world a.tempo dt).position)) := by
  rcases step_cases hturn with ⟨hidle, -⟩ | ⟨-, shots, rfl⟩
  · exact absurd hidle (not_or.2 ⟨hdt, hplays⟩)
  · have hmoved : (a.moved dt shots).enemies.map (fun e => (e.id, e.position)) =
        a.enemies.map fun e => (e.id, (e.moved a.world a.tempo dt).position) := by
      change (a.enemies.map (Enemy.moved · a.world a.tempo dt)).map _ = _
      rw [List.map_map]
      exact List.map_congr_left fun e _ => Prod.ext (moved_follows e a.world a.tempo dt).id_eq rfl
    exact hmoved ▸ place_lasting.resolve (a.moved dt shots) dt

theorem isOff_of_stride (hids : (a.enemies.map Enemy.id).Nodup)
    (hturn : a.step dt w = .ok (turn, w')) (hdt : ¬ dt ≤ 0) (hplays : a.status ≠ .gameOver)
    {e : Enemy α} (he : e ∈ a.enemies) :
    (⟨dt, turn⟩ : Stride α).isOff e.id = !within (e.moved a.world a.tempo dt).position a.world := by
  have hplaces := places_of_stride hturn hdt hplays
  have hworld : turn.arena.world = a.world := by
    rcases step_cases hturn with ⟨-, rfl⟩ | ⟨-, shots, rfl⟩
    · rfl
    · exact (resolve_bounds _ dt).1
  rw [Bool.eq_iff_iff, Stride.isOff, List.any_eq_true, hworld]
  constructor
  · rintro ⟨e', he', hoff⟩
    obtain ⟨hid, hoff⟩ := Bool.and_eq_true_iff.1 hoff
    obtain ⟨before, hbefore, hsame⟩ := List.mem_map.1 (hplaces.subset (List.mem_map_of_mem he'))
    obtain ⟨hsameId, hposition⟩ := Prod.mk.inj hsame
    obtain rfl := List.inj_on_of_nodup_map hids hbefore he (hsameId.trans (of_decide_eq_true hid))
    rwa [hposition]
  · intro hoff
    have hmem : (e.id, (e.moved a.world a.tempo dt).position) ∈
        (⟨dt, turn⟩ : Stride α).enemies.map fun e => (e.id, e.position) :=
      hplaces.symm.subset (List.mem_map_of_mem (f := fun e =>
        (e.id, (e.moved a.world a.tempo dt).position)) he)
    obtain ⟨e', he', hsame⟩ := List.mem_map.1 hmem
    obtain ⟨hid, hposition⟩ := Prod.mk.inj hsame
    exact ⟨e', he', Bool.and_eq_true_iff.2 ⟨decide_eq_true hid, hposition ▸ hoff⟩⟩

theorem Watched.timer (h : Watched grace a strides) (hturn : a.step dt w = .ok (turn, w'))
    (hdt : ¬ dt ≤ 0) (hplays : a.status ≠ .gameOver) {e : Enemy α} (he : e ∈ a.enemies) :
    ((e.moved a.world a.tempo dt).watch a.world dt).offscreenFor =
      timeOff e.id (strides ++ [⟨dt, turn⟩]) := by
  obtain ⟨_, _, _, _, _, _, _, _, hmoved⟩ := moved_frame e a.world a.tempo dt
  have hbefore : (e.moved a.world a.tempo dt).offscreenFor = e.offscreenFor := by rw [hmoved]
  rw [Game.timeOff_snoc, isOff_of_stride h.registered.ids hturn hdt hplays he,
    ← h.timers e he, ← hbefore]
  change (if within _ a.world = true then _ else _) = _
  cases within (e.moved a.world a.tempo dt).position a.world <;> rfl

theorem Watched.stride (h : Watched grace a strides) (hturn : a.step dt w = .ok (turn, w'))
    (hdt : ¬ dt ≤ 0) (hplays : a.status ≠ .gameOver) :
    Watched grace turn.arena (strides ++ [⟨dt, turn⟩]) := by
  have hnext : turn.arena.nextId = a.nextId := (step_passes hturn).nextId_eq
  have hplaces := places_of_stride hturn hdt hplays
  have htimer : ∀ e ∈ a.enemies, _ := fun e he => h.timer hturn hdt hplays he
  refine ⟨?_, (step_succeeds hturn).registered h.registered, fun e he => ?_, fun s hs e he => ?_⟩
  · rcases step_cases hturn with ⟨-, rfl⟩ | ⟨-, shots, rfl⟩
    · exact h.grace_eq
    · exact (resolve_bounds _ dt).2.trans h.grace_eq
  · rcases step_cases hturn with ⟨hidle, -⟩ | ⟨-, shots, rfl⟩
    · exact absurd hidle (not_or.2 ⟨hdt, hplays⟩)
    · obtain ⟨_, hmoved, hid, hwatched⟩ := stays_watched he
      obtain ⟨before, hbefore, rfl⟩ := List.mem_map.1 hmoved
      rw [hid, (moved_follows before a.world a.tempo dt).id_eq]
      exact hwatched.trans (htimer before hbefore)
  · rw [hnext]
    rcases List.mem_append.1 hs with hs | hs
    · exact h.past s hs e he
    · obtain rfl := List.mem_singleton.1 hs
      obtain ⟨before, hbefore, hsame⟩ := List.mem_map.1 (hplaces.subset (List.mem_map_of_mem he))
      obtain ⟨hid, -⟩ := Prod.mk.inj hsame
      rw [← hid]
      exact h.registered.issued before hbefore

/-- Who leaves in a stride was defeated or has overstayed by the strides so far. -/
theorem Watched.leaves_iff (h : Watched grace a strides) (hstanding : Standing a)
    (hturn : a.step dt w = .ok (turn, w')) (hdt : ¬ dt ≤ 0) (hplays : a.status ≠ .gameOver)
    {e : Enemy α} (he : e ∈ a.enemies) :
    e.id ∉ turn.arena.enemies.map Enemy.id ↔
      (∃ reward, .hit e.id (.defeated reward) ∈ turn.happenings) ∨
        ¬ timeOff e.id (strides ++ [⟨dt, turn⟩]) ≤ grace := by
  rw [← h.timer hturn hdt hplays he, ← h.grace_eq]
  rcases step_cases hturn with ⟨hidle, -⟩ | ⟨-, shots, rfl⟩
  · exact absurd hidle (not_or.2 ⟨hdt, hplays⟩)
  · have hids : ((a.moved dt shots).enemies.map Enemy.id).Nodup := by
      rw [moved_ids]
      exact h.registered.ids
    have hleaves := (hstanding.moved dt shots).leaves_iff hids (List.mem_map_of_mem he) dt
    rwa [(moved_follows e a.world a.tempo dt).id_eq] at hleaves

end

end Arena

namespace Game

open Arena (Enemy Watched)

variable {α : Type} [Scalar α] [Elementary α]

theorem watched_run {script : List (Script.Instruction α)} {world : Vec α} {tempo grace : α}
    {levelWords arenaWords : Words} {actions : List (Action α)} {g : Game α}
    {seen : List (Observation α)}
    (hrun : (start script world tempo grace levelWords arenaWords).run actions = .ok (g, seen)) :
    Watched grace g.arena
      ((start script world tempo grace levelWords arenaWords).strides actions) := by
  have hstart : Watched grace (start script world tempo grace levelWords arenaWords).arena [] :=
    ⟨rfl, Arena.start_registered world tempo grace, List.forall_mem_nil _, List.forall_mem_nil _⟩
  refine strides_induction (P := fun g strides => Watched grace g.arena strides)
    ?_ ?_ ?_ hstart hrun
  · intro g strides dt frame h _
    exact h.receiveAll frame.events
  · intro g strides dt turn words h hturn hdt hplays
    rw [report, release_eq]
    exact h.stride hturn hdt hplays
  · intro g strides position shots h hshots
    exact ⟨h.grace_eq, (Arena.player_succeeds position hshots).registered h.registered,
      h.timers, h.past⟩

theorem perform_keeps {g h : Game α} {action : Action α} {seen : List (Observation α)}
    (hperform : g.perform action = .ok (h, seen))
    (hidle : ∀ dt, action = .step dt → dt ≤ 0 ∨ g.arena.status = .gameOver) :
    g.arena.enemies <+: h.arena.enemies := by
  cases perform_does hperform with
  | @update _ frame => exact Arena.receiveAll_keeps g.arena frame.events
  | @step dt turn words hturn =>
    have hsame := (Arena.step_idle (hidle dt rfl) g.words).symm.trans hturn
    obtain ⟨rfl, rfl⟩ := Prod.mk.inj (Except.ok.inj hsame)
    exact List.prefix_refl _
  | player => exact List.prefix_refl _

end Game

namespace Exact

theorem zero_le_add {a b : Exact} (ha : 0 ≤ a) (hb : 0 < b) : 0 ≤ a + b := by
  change ble (finite 0) a = true at ha
  change blt (finite 0) b = true at hb
  change ble (finite 0) (add a b) = true
  cases a <;> cases b <;> simp_all [ble, blt, add]
  positivity

end Exact

namespace Game

open Arena (Enemy)

theorem zero_le_timeOff (id : ℕ) {strides : List (Stride Exact)} (h : ∀ s ∈ strides, 0 < s.dt) :
    0 ≤ timeOff id strides := by
  induction strides using List.reverseRecOn with
  | nil => exact Scalar.Ordered.zero_defined
  | append_singleton earlier s ih =>
    rw [timeOff_snoc]
    split
    · exact Exact.zero_le_add (ih fun s hs => h s (List.mem_append_left _ hs)) (h s (by simp))
    · exact Scalar.Ordered.zero_defined

/-- However a game is played from its start, with steps that have defined lengths, the next step
takes exactly those enemies that are defeated in it and those that, at its end, will have been off
the screen for longer than the grace without a break. So whoever is on the screen at its end leaves
in defeat or not at all. Nothing else takes anybody. -/
theorem enemies_leave_in_defeat_or_overstay [Elementary Exact]
    (script : List (Script.Instruction Exact)) (world : Vec Exact) (tempo grace : Exact)
    (levelWords arenaWords : Words) (actions : List (Action Exact))
    {g : Game Exact} {seen : List (Observation Exact)} (hgrace : 0 ≤ grace)
    (hsteps : ∀ dt, .step dt ∈ actions → Scalar.Defined dt)
    (hrun : (start script world tempo grace levelWords arenaWords).run actions = .ok (g, seen)) :
    (∀ dt turn words, g.arena.step dt g.words = .ok (turn, words) → 0 < dt →
      g.arena.status ≠ .gameOver →
      (∀ e ∈ g.arena.enemies, e.id ∉ turn.arena.enemies.map Enemy.id ↔
        (∃ reward, .hit e.id (.defeated reward) ∈ turn.happenings) ∨
          grace < timeOff e.id
            ((start script world tempo grace levelWords arenaWords).strides actions ++
              [⟨dt, turn⟩])) ∧
      (∀ e ∈ g.arena.enemies, (⟨dt, turn⟩ : Stride Exact).isOff e.id = false →
        (e.id ∉ turn.arena.enemies.map Enemy.id ↔
          ∃ reward, .hit e.id (.defeated reward) ∈ turn.happenings)) ∧
      ((⟨dt, turn⟩ : Stride Exact).enemies.map Enemy.id).Perm (g.arena.enemies.map Enemy.id)) ∧
    ∀ action h later, g.perform action = .ok (h, later) →
      (∀ dt, action = .step dt → dt ≤ 0 ∨ g.arena.status = .gameOver) →
        g.arena.enemies <+: h.arena.enemies := by
  have hwatched := watched_run hrun
  have hstanding := (scored_of_run hrun).standing
  refine ⟨fun dt turn words hturn hdt hplays => ?_, fun action h later hperform =>
    perform_keeps hperform⟩
  have hmoves : ¬ dt ≤ 0 := Scalar.Strict.not_le_of_lt hdt
  have hleaves : ∀ e ∈ g.arena.enemies, _ := fun e he =>
      hwatched.leaves_iff hstanding hturn hmoves hplays he
  have hlengths : ∀ s ∈ (start script world tempo grace levelWords arenaWords).strides actions ++
      [⟨dt, turn⟩], 0 < s.dt := by
    intro s hs
    rcases List.mem_append.1 hs with hs | hs
    · obtain ⟨hasked, hlength⟩ := strides_asked hs
      by_contra hnot
      exact hlength (Scalar.Ordered.le_of_not_lt (hsteps _ hasked) Scalar.Ordered.zero_defined hnot)
    · exact List.mem_singleton.1 hs ▸ hdt
  have hdefined : Scalar.Defined grace := (Scalar.Ordered.defined_of_le hgrace).2
  refine ⟨fun e he => ?_, fun e he hon => ?_, ?_⟩
  · have htime := (Scalar.Ordered.defined_of_le (zero_le_timeOff e.id hlengths)).2
    rw [hleaves e he, ← Scalar.not_lt_iff htime hdefined, not_not]
  · rw [hleaves e he, timeOff_snoc, hon, if_neg Bool.false_ne_true, or_iff_left (not_not.2 hgrace)]
  · have hids := (Arena.places_of_stride hturn hmoves hplays).map Prod.fst
    rwa [List.map_map, List.map_map] at hids

section

local instance flat : Elementary Exact where
  sqrt q := q
  sin _ := 0
  cos _ := 1
  atan2 _ _ := 0

def straggler : Script.Group Exact :=
  { window := .literal 0, members := [⟨'A', .packed ⟨0⟩⟩], reward := ⟨'p', .never⟩, side := .left,
    factors := []
    trajectory := [.linear .left (.literal 60)] }

def abandoned : Game Exact :=
  start [.spawn straggler] ⟨320, 180⟩ 120 (.finite (1 / 2)) (Words.cycle #[]) (Words.cycle #[])

/-- An enemy is just within its grace at the end of one stride, and beyond it at the end of the
next. -/
theorem straggler_overstays :
    ∃ g seen turn words, abandoned.run [.update 1, .step (.finite (1 / 2))] = .ok (g, seen) ∧
      g.arena.enemies.map Enemy.id = [0] ∧
      g.arena.step (.finite (1 / 4)) g.words = .ok (turn, words) ∧
      timeOff 0 (abandoned.strides [.update 1, .step (.finite (1 / 2))] ++
        [⟨.finite (1 / 4), turn⟩]) = .finite (3 / 4) ∧
      0 ∉ turn.arena.enemies.map Enemy.id := by
  have hview : (abandoned.run [.update 1, .step (.finite (1 / 2))]).map (fun p =>
      (p.1.arena.enemies.map Enemy.id, p.1.arena.status,
        (p.1.arena.step (.finite (1 / 4)) p.1.words).map fun q =>
          timeOff 0 (abandoned.strides [.update 1, .step (.finite (1 / 2))] ++
            [⟨.finite (1 / 4), q.1⟩]))) =
      .ok ([0], .playing, .ok (.finite (3 / 4))) := by
    decide +kernel
  obtain ⟨⟨g, seen⟩, hrun, hview⟩ := ok_of_map hview
  simp only [Prod.mk.injEq] at hview
  obtain ⟨hids, hstatus, hstep⟩ := hview
  obtain ⟨⟨turn, words⟩, hturn, htime⟩ := ok_of_map hstep
  have hplays : g.arena.status ≠ .gameOver := by
    rw [hstatus]
    decide
  have hsteps : ∀ dt, Action.step dt ∈ [Action.update 1, .step (.finite (1 / 2))] →
      Scalar.Defined (dt : Exact) := by
    intro dt hdt
    obtain rfl : dt = .finite (1 / 2) := by simpa using hdt
    exact Exact.defined_iff.2 nofun
  obtain ⟨hleaves, -⟩ := enemies_leave_in_defeat_or_overstay _ _ _ _ _ _ _
    (by decide +kernel) hsteps hrun
  obtain ⟨e, he, hid⟩ : ∃ e ∈ g.arena.enemies, e.id = 0 := List.mem_map.1 (by simp [hids])
  obtain ⟨hiff, -⟩ := hleaves _ _ _ hturn (by decide +kernel) hplays
  have hgone := (hiff e he).2 (.inr ?_)
  · exact ⟨g, seen, turn, words, hrun, hids, hturn, htime, hid ▸ hgone⟩
  · rw [hid]
    exact htime ▸ by decide +kernel

end

end Game

end Barrage
