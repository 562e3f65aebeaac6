import Barrage.Proofs.Arena.Salvo

/-! # What a step comes to

After the shots of the player a step has to do with the player, with pickups and with the edges of
the screen. So it scores for whoever was slain and for what was collected, and it takes enemies in
two ways: in defeat, or because they have been off the screen for too long. -/

namespace Barrage.Arena

variable {α : Type}

def Happening.slain? : Happening α → Option (Enemy α)
  | departed e .defeated => some e
  | _ => none

def Happening.collected? : Happening α → Option Char
  | collected kind => some kind
  | _ => none

def slain (happenings : List (Happening α)) : List (Enemy α) :=
  happenings.filterMap Happening.slain?

def collected (happenings : List (Happening α)) : List Char :=
  happenings.filterMap Happening.collected?

def Enemy.sighting (e : Enemy α) : ℕ × Vec α × α := (e.id, e.position, e.offscreenFor)

theorem slain_append (earlier later : List (Happening α)) :
    slain (earlier ++ later) = slain earlier ++ slain later :=
  List.filterMap_append

theorem collected_append (earlier later : List (Happening α)) :
    collected (earlier ++ later) = collected earlier ++ collected later := List.filterMap_append

theorem slain_departed (enemies : List (Enemy α)) :
    (slain (enemies.map fun e => .departed e.retire .defeated)) = enemies.map Enemy.retire ∧
      slain (enemies.map fun e => .departed e.retire .overstayed) = [] ∧
      ∀ cause, collected (enemies.map fun e => .departed e.retire cause) = [] ∧
        defeats (enemies.map fun e => .departed e.retire cause) = [] := by
  refine ⟨?_, ?_, fun cause => ⟨?_, ?_⟩⟩
  · rw [slain, List.filterMap_map]
    exact congrFun (List.filterMap_eq_map (f := Enemy.retire)) _
  all_goals
    refine List.filterMap_eq_nil_iff.2 fun o ho => ?_
    obtain ⟨e, -, rfl⟩ := List.mem_map.1 ho
    rfl

theorem slain_strikes (strikes : List (Strike α)) :
    slain (strikes.map Strike.happening) = [] ∧ collected (strikes.map Strike.happening) = [] := by
  constructor
  all_goals
    refine List.filterMap_eq_nil_iff.2 fun o ho => ?_
    obtain ⟨x, -, rfl⟩ := List.mem_map.1 ho
    rfl

theorem slain_of_quiet {happenings : List (Happening α)} (h : ∀ o ∈ happenings, o.Quiet) :
    slain happenings = [] := by
  refine List.filterMap_eq_nil_iff.2 fun o ho => ?_
  cases o with
  | departed => exact (h _ ho).elim
  | _ => rfl

theorem mem_defeats {happenings : List (Happening α)} {id : ℕ} :
    id ∈ (defeats happenings).map Prod.fst ↔ ∃ reward, .hit id (.defeated reward) ∈ happenings := by
  constructor
  · intro h
    obtain ⟨x, hx, rfl⟩ := List.mem_map.1 h
    obtain ⟨o, ho, hdefeat⟩ := List.mem_filterMap.1 hx
    cases o with
    | hit target outcome =>
      cases outcome with
      | defeated reward =>
        cases hdefeat
        exact ⟨reward, ho⟩
      | _ => cases hdefeat
    | _ => cases hdefeat
  · rintro ⟨reward, h⟩
    exact List.mem_map.2 ⟨(id, reward), List.mem_filterMap.2 ⟨_, h, rfl⟩, rfl⟩

variable [Scalar α]

/-- What the level tells takes nobody away. -/
theorem receiveAll_keeps (a : Arena α) (events : List (Level.Event α)) :
    a.enemies <+: (events.foldl receive a).enemies := by
  induction events generalizing a with
  | nil => exact List.prefix_refl _
  | cons event rest ih =>
    have hfirst : a.enemies <+: (a.receive event).enemies := by
      cases event with
      | spawn request => exact List.prefix_append _ _
      | _ => exact List.prefix_refl _
    exact hfirst.trans (ih _)

variable [Elementary α]

/-! ## Part by part -/

theorem collected_loss (a : Arena α) : collected a.resolveEnemyShots.happenings = [] := by
  unfold resolveEnemyShots
  dsimp only
  split <;> rfl

theorem stepPickups_collects (a : Arena α) (dt : α) :
    (a.stepPickups dt).arena.score =
      a.score + scorePerPickup * (collected (a.stepPickups dt).happenings).length := by
  have hkinds : ∀ pickups : List (Pickup α),
      collected (pickups.map fun p => (.collected p.kind : Happening α)) =
        pickups.map Pickup.kind := by
    intro pickups
    rw [collected, List.filterMap_map]
    exact congrFun (List.filterMap_eq_map (f := Pickup.kind)) _
  rw [stepPickups, hkinds, List.length_map, Nat.mul_comm]

/-- Shots of the player are a matter of enemies, shots, pickups, score and bounties. -/
theorem resolvePlayerShots_frame (a : Arena α) :
    ∃ shots enemies bounties pickups score, a.resolvePlayerShots.arena =
        { a with shots, enemies, bounties, pickups, score } ∧
      collected a.resolvePlayerShots.happenings = [] := by
  obtain ⟨_, strikes, left, _, -, hshots⟩ := exists_salvo a.shots a
  unfold resolvePlayerShots
  rw [hshots]
  refine ⟨_, _, _, _, _, rfl, ?_⟩
  rw [collected_append, (slain_strikes strikes).2, List.nil_append]
  exact ((slain_departed _).2.2 .defeated).1

/-- What follows in a step leaves the enemies as they are, but for those that have been off the
screen for too long. -/
theorem resolve_enemies (a : Arena α) (dt : α) :
    (a.resolve dt).arena.enemies =
      (a.resolvePlayerShots.arena.enemies.map (Enemy.watch · a.world dt)).filter fun e =>
        decide (e.offscreenFor ≤ a.grace) := by
  obtain ⟨_, _, _, _, _, hfirst, -⟩ := resolvePlayerShots_frame a
  obtain ⟨_, _, _, _, hloss, -, -⟩ := resolveEnemyShots_frame a.resolvePlayerShots.arena
  have hworld : a.resolvePlayerShots.arena.world = a.world := by rw [hfirst]
  have hgrace : a.resolvePlayerShots.arena.grace = a.grace := by rw [hfirst]
  simp only [resolve, Turn.andThen, hloss, stepPickups, dropOffscreen, dismiss, Bool.not_not,
    hworld, hgrace]

/-- After the shots of the player nothing happens to enemies but that some have been off the screen
for too long, and only pickups score. -/
theorem resolve_happenings (a : Arena α) (dt : α) :
    ∃ (later : List (Happening α)) (leaving : List (Enemy α)),
      (a.resolve dt).happenings = a.resolvePlayerShots.happenings ++ later ++
          leaving.map (fun e => .departed e.retire .overstayed) ∧
        (∀ o ∈ later, o.Quiet) ∧
        (a.resolve dt).arena.score =
          a.resolvePlayerShots.arena.score + scorePerPickup * (collected later).length := by
  obtain ⟨_, _, _, lost, hloss, -, hquiet⟩ := resolveEnemyShots_frame a.resolvePlayerShots.arena
  obtain ⟨_, _, picked, hpickups, hcollected⟩ :=
    stepPickups_frame a.resolvePlayerShots.arena.resolveEnemyShots.arena dt
  have hscore := stepPickups_collects a.resolvePlayerShots.arena.resolveEnemyShots.arena dt
  have hlost := collected_loss a.resolvePlayerShots.arena
  have hparts : ∃ leaving : List (Enemy α), (a.resolve dt).happenings =
      a.resolvePlayerShots.happenings ++ a.resolvePlayerShots.arena.resolveEnemyShots.happenings ++
        (a.resolvePlayerShots.arena.resolveEnemyShots.arena.stepPickups dt).happenings ++
        leaving.map fun e => .departed e.retire .overstayed := ⟨_, rfl⟩
  obtain ⟨leaving, hparts⟩ := hparts
  refine ⟨a.resolvePlayerShots.arena.resolveEnemyShots.happenings ++
    (a.resolvePlayerShots.arena.resolveEnemyShots.arena.stepPickups dt).happenings, leaving, ?_,
      fun o ho => ?_, ?_⟩
  · rw [hparts, ← List.append_assoc]
  · rw [hpickups, hloss] at ho
    exact (List.mem_append.1 ho).elim (hquiet o) (hcollected o)
  · rw [collected_append, hlost, List.nil_append]
    refine hscore.trans ?_
    rw [hloss]

theorem resolve_score (a : Arena α) (dt : α) :
    (a.resolve dt).arena.score = a.resolvePlayerShots.arena.score +
        scorePerPickup * (collected (a.resolve dt).happenings).length ∧
      slain (a.resolve dt).happenings = slain a.resolvePlayerShots.happenings ∧
      defeats (a.resolve dt).happenings = defeats a.resolvePlayerShots.happenings := by
  obtain ⟨_, _, _, _, _, -, hnone⟩ := resolvePlayerShots_frame a
  obtain ⟨later, leaving, hhappenings, hquiet, hscore⟩ := resolve_happenings a dt
  obtain ⟨-, hslain, hothers⟩ := slain_departed leaving
  obtain ⟨hcollected, hdefeats⟩ := hothers .overstayed
  rw [hhappenings, collected_append, collected_append, slain_append, slain_append, defeats_append,
    defeats_append, hnone, hcollected, hslain, hdefeats, slain_of_quiet hquiet,
    (defeats_of_quiet hquiet).1, hscore]
  simp only [List.append_nil, List.nil_append, and_self]

theorem resolve_bounds (a : Arena α) (dt : α) :
    (a.resolve dt).arena.world = a.world ∧ (a.resolve dt).arena.grace = a.grace := by
  obtain ⟨_, _, _, _, _, hfirst, -⟩ := resolvePlayerShots_frame a
  obtain ⟨_, _, _, _, hloss, -, -⟩ := resolveEnemyShots_frame a.resolvePlayerShots.arena
  have hworld : (a.resolve dt).arena.world =
    a.resolvePlayerShots.arena.resolveEnemyShots.arena.world := rfl
  have hgrace : (a.resolve dt).arena.grace =
      a.resolvePlayerShots.arena.resolveEnemyShots.arena.grace := rfl
  rw [hworld, hgrace, hloss, hfirst]
  exact ⟨rfl, rfl⟩

theorem resolve_ids (a : Arena α) (dt : α) :
    ((a.resolve dt).arena.enemies.map Enemy.id).Sublist (a.enemies.map Enemy.id) := by
  obtain ⟨_, strikes, left, _, hsalvo, hshots⟩ := exists_salvo a.shots a
  have hplaces : left.map Enemy.id = a.enemies.map Enemy.id :=
    hsalvo.map_eq fun e bounties => (hit_keeps e 1 bounties).1
  have hstay : (a.resolvePlayerShots.arena.enemies.map Enemy.id).Sublist
      (a.enemies.map Enemy.id) := by
    rw [← hplaces, resolvePlayerShots, hshots]
    exact List.filter_sublist.map _
  have hwatched : (a.resolvePlayerShots.arena.enemies.map (Enemy.watch · a.world dt)).map Enemy.id =
      a.resolvePlayerShots.arena.enemies.map Enemy.id := by
    rw [List.map_map]
    rfl
  rw [resolve_enemies]
  exact (List.filter_sublist.map _).trans (hwatched ▸ hstay)

theorem resolve_shots (a : Arena α) (dt : α) : (a.resolve dt).arena.shots.Sublist a.shots := by
  obtain ⟨kept, _, _, _, hsalvo, hshots⟩ := exists_salvo a.shots a
  have hfirst : a.resolvePlayerShots.arena.shots = kept := by
    rw [resolvePlayerShots, hshots]
    rfl
  have hloss : ∀ b : Arena α, b.resolveEnemyShots.arena.shots.Sublist b.shots := by
    intro b
    unfold resolveEnemyShots
    dsimp only
    split
    · exact .refl _
    · exact List.eraseP_sublist
  have hkept : kept.Sublist a.shots := hsalvo.shots_kept.1
  rw [← hfirst] at hkept
  exact (hloss _).trans hkept

/-! ## Who stands and what is scored -/

theorem moved_ids (a : Arena α) (dt : α) (shots : List (Shot α)) :
    (a.moved dt shots).enemies.map Enemy.id = a.enemies.map Enemy.id := by
  change (a.enemies.map (Enemy.moved · a.world a.tempo dt)).map Enemy.id = _
  rw [List.map_map]
  refine List.map_congr_left fun e _ => ?_
  obtain ⟨_, _, _, _, _, _, _, _, hmoved⟩ := moved_frame e a.world a.tempo dt
  rw [Function.comp_apply, hmoved]

theorem Standing.moved {a : Arena α} (h : Standing a) (dt : α) (shots : List (Shot α)) :
    Standing (a.moved dt shots) := by
  refine ⟨fun e he => ?_, fun e he => ?_⟩
  all_goals
    obtain ⟨before, hbefore, rfl⟩ := List.mem_map.1 he
    obtain ⟨_, _, _, _, _, _, _, _, hmoved⟩ := moved_frame before a.world a.tempo dt
    rw [hmoved]
  · exact h.lives before hbefore
  · exact h.full before hbefore

theorem Standing.resolve {a : Arena α} (h : Standing a) (dt : α) :
    Standing (a.resolve dt).arena := by
  obtain ⟨_, _, _, hspends⟩ := h.spends
  have hafter := hspends.standing h
  refine ⟨fun e he => ?_, fun e he => ?_⟩
  all_goals
    rw [resolve_enemies] at he
    obtain ⟨before, hbefore, rfl⟩ := List.mem_map.1 (List.mem_of_mem_filter he)
  · exact hafter.lives before hbefore
  · exact hafter.full before hbefore

theorem Spends.defeats {a : Arena α} {kept : List (Shot α)} {strikes : List (Strike α)}
    {left : List (Enemy α)} (h : Spends a kept strikes left a.resolvePlayerShots) (dt : α) :
    (Arena.defeats (a.resolve dt).happenings).map Prod.fst = (fallen strikes).map Enemy.id := by
  obtain ⟨-, -, hdefeats⟩ := resolve_score a dt
  rw [hdefeats, h.happenings_eq, defeats_append, ((slain_departed _).2.2 _).2, List.append_nil,
    ← fallen_ids]

/-- A step scores for the enemies that are slain in it and for what is collected, and slain are
those that were defeated. -/
theorem Standing.scores {a : Arena α} (h : Standing a) (dt : α) :
    (a.resolve dt).arena.score = a.score +
        (scorePerHitPoint * ((slain (a.resolve dt).happenings).map Enemy.initialHitPoints).sum +
          scorePerPickup * (collected (a.resolve dt).happenings).length) ∧
      ((slain (a.resolve dt).happenings).map Enemy.id).Perm
        ((defeats (a.resolve dt).happenings).map Prod.fst) := by
  obtain ⟨_, strikes, left, hspends⟩ := h.spends
  obtain ⟨hscore, hslain, -⟩ := resolve_score a dt
  have hleft : slain a.resolvePlayerShots.happenings = (left.filter Enemy.isDown).map
      Enemy.retire := by
    rw [hspends.happenings_eq, slain_append, (slain_strikes strikes).1, (slain_departed _).1,
      List.nil_append]
  constructor
  · rw [hscore, hspends.arena_eq, hslain, hleft, List.map_map, Nat.add_assoc]
    rfl
  · rw [hslain, hleft, hspends.defeats dt, List.map_map]
    exact hspends.removed

/-! ## Who leaves -/

omit [Elementary α] in
theorem hit_sighting (e : Enemy α) (damage : ℕ) (bounties : Level.Bounties) :
    (e.hit damage bounties).2.1.sighting = e.sighting := by
  obtain ⟨_, _, _, _, hhit, -⟩ := hit_frame e damage bounties
  rw [hhit]
  rfl

omit [Elementary α] in
theorem watch_congr {e e' : Enemy α} (h : e'.sighting = e.sighting) (world : Vec α) (dt : α) :
    (e'.watch world dt).offscreenFor = (e.watch world dt).offscreenFor := by
  simp only [Enemy.sighting, Prod.mk.injEq] at h
  simp only [Enemy.watch, h.2.1, h.2.2]

variable {a : Arena α}

theorem sightings_after_shots (a : Arena α) :
    ∀ e ∈ a.resolvePlayerShots.arena.enemies, e.sighting ∈ a.enemies.map Enemy.sighting := by
  obtain ⟨_, _, left, _, hsalvo, hshots⟩ := exists_salvo a.shots a
  have hsightings : left.map Enemy.sighting = a.enemies.map Enemy.sighting :=
    hsalvo.map_eq fun e bounties => hit_sighting e 1 bounties
  intro e he
  rw [resolvePlayerShots, hshots] at he
  exact hsightings ▸ List.mem_map_of_mem (List.mem_of_mem_filter he)

theorem stays_watched {e : Enemy α} {dt : α} (he : e ∈ (a.resolve dt).arena.enemies) :
    ∃ before ∈ a.enemies, e.id = before.id ∧ e.offscreenFor =
      (before.watch a.world dt).offscreenFor := by
  rw [resolve_enemies] at he
  obtain ⟨left, hleft, rfl⟩ := List.mem_map.1 (List.mem_of_mem_filter he)
  obtain ⟨before, hbefore, hsame⟩ := List.mem_map.1 (sightings_after_shots a left hleft)
  exact ⟨before, hbefore, (congrArg Prod.fst hsame).symm, watch_congr hsame.symm a.world dt⟩

/-- Who is there when everything has moved leaves in defeat or for having been off the screen for
too long. -/
theorem Standing.leaves_iff (h : Standing a) (hids : (a.enemies.map Enemy.id).Nodup) {e : Enemy α}
    (he : e ∈ a.enemies) (dt : α) : e.id ∉ (a.resolve dt).arena.enemies.map Enemy.id ↔
      (∃ reward, .hit e.id (.defeated reward) ∈ (a.resolve dt).happenings) ∨
        ¬ (e.watch a.world dt).offscreenFor ≤ a.grace := by
  obtain ⟨kept, strikes, left, hspends⟩ := h.spends
  have hleft := hspends.stays hids
  rw [← mem_defeats, hspends.defeats dt]
  by_cases hfallen : e.id ∈ (fallen strikes).map Enemy.id
  · refine iff_of_true (fun hmem => ?_) (.inl hfallen)
    obtain ⟨e', he', hid⟩ := List.mem_map.1 hmem
    rw [resolve_enemies] at he'
    obtain ⟨before, hbefore, rfl⟩ := List.mem_map.1 (List.mem_of_mem_filter he')
    have hstays := List.mem_map_of_mem (f := Enemy.id) hbefore
    rw [hleft] at hstays
    have hspared := of_decide_eq_true (List.mem_filter.1 hstays).2
    exact hspared (hid ▸ hfallen)
  · rw [or_iff_right hfallen, not_iff_not]
    have hstays : e.id ∈ a.resolvePlayerShots.arena.enemies.map Enemy.id := by
      rw [hleft]
      exact List.mem_filter.2 ⟨List.mem_map_of_mem he, decide_eq_true hfallen⟩
    -- a hit does not move anybody, so what bears the identity is where the enemy was
    have hunique : ∀ e' ∈ a.resolvePlayerShots.arena.enemies, e'.id = e.id →
        (e'.watch a.world dt).offscreenFor = (e.watch a.world dt).offscreenFor := by
      intro e' he' hid
      obtain ⟨before, hbefore, hsame⟩ := List.mem_map.1 (sightings_after_shots a e' he')
      obtain rfl := List.inj_on_of_nodup_map hids hbefore he ((congrArg Prod.fst hsame).trans hid)
      exact watch_congr hsame.symm a.world dt
    rw [resolve_enemies]
    constructor
    · intro hmem
      obtain ⟨e', he', hid⟩ := List.mem_map.1 hmem
      obtain ⟨hwatched, hgrace⟩ := List.mem_filter.1 he'
      obtain ⟨before, hbefore, rfl⟩ := List.mem_map.1 hwatched
      exact hunique before hbefore hid ▸ of_decide_eq_true hgrace
    · intro hgrace
      obtain ⟨e', he', hid⟩ := List.mem_map.1 hstays
      refine List.mem_map.2 ⟨e'.watch a.world dt, List.mem_filter.2 ⟨List.mem_map_of_mem he', ?_⟩,
        hid⟩
      rw [hunique e' he' hid]
      exact decide_eq_true hgrace

end Barrage.Arena
