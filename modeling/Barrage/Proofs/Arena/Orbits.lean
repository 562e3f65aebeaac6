import Barrage.Proofs.Arena.Aftermath
import Barrage.Proofs.Arena.Roster
import Barrage.Proofs.Pattern.Course

/-! # Shots in orbit

A shot that circles the enemy that fired it knows this enemy by its identity alone. Where nobody
bears the identity, the shot is parked outside of every world and does not stay there. Since
identities are given once, it never finds somebody else. -/

namespace Barrage.Arena

open Pattern (ShotMotion Volley circlingOffset)

variable {α : Type}

def Shot.emitter? (s : Shot α) : Option ℕ :=
  match s.motion with
  | .circling id .emitter _ _ => some id
  | _ => none

theorem Shot.emitter?_eq_some {s : Shot α} {id : ℕ} :
    s.emitter? = some id ↔ ∃ phase reach, s.motion = .circling id .emitter phase reach := by
  unfold Shot.emitter?
  constructor
  · intro h
    split at h
    · next emitter phase reach hmotion => exact ⟨phase, reach, Option.some.inj h ▸ hmotion⟩
    · cases h
  · rintro ⟨phase, reach, hmotion⟩
    rw [hmotion]

section

variable [Scalar α] [Elementary α] {a : Arena α} {dt : α} {s s' : Shot α} {id : ℕ} {phase reach : α}

theorem Shot.step_motion (h : s.step a dt = .ok s') : s'.motion = s.motion := by
  obtain ⟨owner, position, velocity, origin, age, timeToLive, texture, alpha, motion⟩ := s
  unfold Shot.step at h
  cases motion with
  | homing maxAngularSpeed start stop =>
    dsimp only at h
    split at h
    · obtain ⟨steered, -, h⟩ := parts_of_ok h
      obtain rfl := Except.ok.inj h
      rfl
    · obtain rfl := Except.ok.inj h
      rfl
  | circling emitter pivot phase reach =>
    obtain rfl := Except.ok.inj h
    rfl

theorem Shot.step_emitter? (h : s.step a dt = .ok s') : s'.emitter? = s.emitter? := by
  unfold Shot.emitter?
  rw [Shot.step_motion h]

theorem Shot.step_circling (h : s.step a dt = .ok s')
    (hmotion : s.motion = .circling id .emitter phase reach) :
    s'.position = match a.emitterPosition? id with
      | some centre => centre + circlingOffset s'.age phase reach
      | none => parkingPosition := by
  unfold Shot.step at h
  rw [hmotion] at h
  obtain rfl := Except.ok.inj h
  rfl

/-! ## Firing into orbit -/

/-- What a volley sends into orbit around an enemy goes around the one that fires it. -/
theorem shoot_circling {v : Volley α} {emitter : Pattern.Emitter α} {target : Vec α} {index : ℕ}
    {p : Pattern.Projectile α} {w w' : Words}
    (h : v.shoot emitter target index w = .ok (some p, w'))
    (hmotion : p.motion = .circling id .emitter phase reach) : id = emitter.id := by
  have hsends := Pattern.sends_of_shoot h
  by_cases hemitter : v.texture = Pattern.circlingEmitterTexture
  · rw [hsends.emitter_orbit hemitter] at hmotion
    cases hmotion
    rfl
  · by_cases hspawn : v.texture = Pattern.circlingSpawnTexture
    · rw [hsends.spawn_orbit hspawn] at hmotion
      cases hmotion
    · rw [(hsends.flight hemitter hspawn).1] at hmotion
      cases hmotion

theorem Fires.emitter {e : Enemy α} (h : a.Fires dt e s) (hcircles : s.emitter? = some id) :
    id = e.id := by
  obtain ⟨phase, reach, hmotion⟩ := Shot.emitter?_eq_some.1 hcircles
  obtain ⟨w, w', later, shots, hstep, hs⟩ := h
  obtain ⟨projectiles, w₁, hprojectiles, hstep⟩ := draws_of_ok hstep
  obtain ⟨hpair, -⟩ := Prod.mk.inj (Except.ok.inj hstep)
  obtain ⟨-, rfl⟩ := Prod.mk.inj hpair
  obtain ⟨p, hp, rfl⟩ := List.mem_map.1 hs
  obtain ⟨shot, hshot, hp⟩ := List.mem_filterMap.1 hp
  obtain rfl : shot = some p := hp
  have hemitters := draws_mapM (R := fun (_ : Firing α) (shot : Option (Pattern.Projectile α)) =>
      ∀ p, shot = some p → p.motion = .circling id .emitter phase reach →
        id = (e.armed a.world a.tempo dt).id)
    (fun firing shot w w' hshoot p hp hmotion => shoot_circling (hp ▸ hshoot) hmotion) hprojectiles
  obtain ⟨_, -, hemitter⟩ := exists_partner hemitters hshot
  exact (hemitter p rfl hmotion).trans (moved_follows e a.world a.tempo dt).id_eq

/-! ## A step -/

/-- In a step every shot in orbit is where its enemy is, and it was either there before or has just
been fired by this enemy. -/
theorem step_orbits {turn : Turn α} {w w' : Words}
    (hparks : ∀ world : Vec α, within parkingPosition world = false)
    (hids : (a.enemies.map Enemy.id).Nodup) (h : a.step dt w = .ok (turn, w')) (hdt : ¬ dt ≤ 0)
    (hplays : a.status ≠ .gameOver) (hs : s ∈ turn.arena.shots)
    (hmotion : s.motion = .circling id .emitter phase reach) : ∃ e ∈ a.enemies, e.id = id ∧
      s.position = (e.moved a.world a.tempo dt).position + circlingOffset s.age phase reach ∧
      ∃ before : Shot α, before.motion = s.motion ∧ (before ∈ a.shots ∨ a.Fires dt e before) := by
  rcases step_flies h with ⟨hidle, -⟩ | ⟨-, shots, rfl, hflies⟩
  · exact absurd hidle (not_or.2 ⟨hdt, hplays⟩)
  · obtain ⟨before, hbefore, hstep, hwithin⟩ := hflies s ((resolve_shots _ dt).subset hs)
    have hsame : before.motion = s.motion := (Shot.step_motion hstep).symm
    have hposition := Shot.step_circling hstep (hsame.trans hmotion)
    cases hcentre : (a.moved dt []).emitterPosition? id with
    | none =>
      rw [hcentre] at hposition
      rw [hposition, hparks] at hwithin
      cases hwithin
    | some centre =>
      rw [hcentre] at hposition
      obtain ⟨e', hfound, rfl⟩ := Option.map_eq_some_iff.1 hcentre
      obtain ⟨e, he, rfl⟩ := List.mem_map.1 (List.mem_of_find?_eq_some hfound)
      have hid : (e.moved a.world a.tempo dt).id = id := by simpa using List.find?_some hfound
      rw [(moved_follows e a.world a.tempo dt).id_eq] at hid
      refine ⟨e, he, hid, hposition, before, hsame, hbefore.imp_right ?_⟩
      rintro ⟨firing, hmem, hfires⟩
      have hfiring : id = firing.id :=
        hfires.emitter (Shot.emitter?_eq_some.2 ⟨phase, reach, hsame.trans hmotion⟩)
      rwa [← List.inj_on_of_nodup_map hids hmem he (hfiring.symm.trans hid.symm)]

end

/-! ## Identities -/

/-- Enemies bear different identities that have been given, and every shot in orbit goes by one that
has been. -/
structure Registered (a : Arena α) : Prop where
  ids : (a.enemies.map Enemy.id).Nodup
  issued : ∀ e ∈ a.enemies, e.id < a.nextId
  orbits : ∀ s ∈ a.shots, ∀ id, s.emitter? = some id → id < a.nextId

/-- Comes later than an arena: whoever bears an identity that had been given bore it before. -/
structure Succeeds (a b : Arena α) : Prop where
  nextId_le : a.nextId ≤ b.nextId
  known : ∀ e ∈ b.enemies, e.id < a.nextId → e.id ∈ a.enemies.map Enemy.id
  registered : Registered a → Registered b

variable {a b c : Arena α}

theorem Succeeds.refl (a : Arena α) : Succeeds a a :=
  ⟨le_rfl, fun _ he _ => List.mem_map_of_mem he, fun h => h⟩

theorem Succeeds.trans (h : Succeeds a b) (k : Succeeds b c) : Succeeds a c := by
  refine ⟨h.nextId_le.trans k.nextId_le, fun e he hid => ?_,
    fun hregistered => k.registered (h.registered hregistered)⟩
  obtain ⟨e', he', heq⟩ := List.mem_map.1 (k.known e he (hid.trans_le h.nextId_le))
  rw [← heq] at hid ⊢
  exact h.known e' he' hid

/-- Enemies may leave, and shots may come that circle nobody unknown. -/
theorem Succeeds.of_sublist (hids : (b.enemies.map Enemy.id).Sublist (a.enemies.map Enemy.id))
    (hnext : b.nextId = a.nextId)
    (hshots : Registered a → ∀ s ∈ b.shots, ∀ id, s.emitter? = some id → id < a.nextId) :
    Succeeds a b := by
  refine ⟨hnext.ge, fun e he _ => hids.subset (List.mem_map_of_mem he),
    fun h => ⟨h.ids.sublist hids, ?_, ?_⟩⟩
  · intro e he
    obtain ⟨e', he', heq⟩ := List.mem_map.1 (hids.subset (List.mem_map_of_mem he))
    rw [hnext, ← heq]
    exact h.issued e' he'
  · rw [hnext]
    exact hshots h

theorem ids_set {enemies : List (Enemy α)} {i : ℕ} {e e' : Enemy α} (hget : enemies[i]? = some e)
    (hid : e'.id = e.id) : (enemies.set i e').map Enemy.id = enemies.map Enemy.id := by
  obtain ⟨hi, rfl⟩ := List.getElem?_eq_some_iff.1 hget
  have hmap : i < (enemies.map Enemy.id).length := by rwa [List.length_map]
  have hself := List.set_getElem_self hmap
  rw [List.getElem_map] at hself
  rw [List.map_set, hid, hself]

section

variable [Scalar α]

theorem start_registered (world : Vec α) (tempo grace : α) : Registered (start world tempo grace) :=
  ⟨.nil, List.forall_mem_nil _, List.forall_mem_nil _⟩

theorem receive_succeeds (a : Arena α) (event : Level.Event α) : Succeeds a (a.receive event) := by
  cases event with
  | spawn request =>
    have hsplit : ∀ e ∈ (a.receive (.spawn request)).enemies, e ∈ a.enemies ∨ e.id = a.nextId := by
      intro e he
      rcases List.mem_append.1 he with he | he
      · exact .inl he
      · exact .inr (List.mem_singleton.1 he ▸ rfl)
    refine ⟨Nat.le_succ _, fun e he hid => ?_, fun h =>
      ⟨?_, fun e he => ?_, fun s hs id hcircles => ?_⟩⟩
    · rcases hsplit e he with he | hnew
      · exact List.mem_map_of_mem he
      · exact absurd hid (hnew ▸ lt_irrefl _)
    · have hids : (a.receive (.spawn request)).enemies.map Enemy.id = a.enemies.map Enemy.id ++
          [a.nextId] := by
        rw [receive, List.map_append]
        rfl
      rw [hids]
      refine List.nodup_append'.2 ⟨h.ids, List.nodup_singleton _, fun id hid hnew => ?_⟩
      obtain ⟨e, he, rfl⟩ := List.mem_map.1 hid
      exact (h.issued e he).ne (List.mem_singleton.1 hnew)
    · rcases hsplit e he with he | hnew
      · exact (h.issued e he).trans (Nat.lt_succ_self _)
      · exact hnew ▸ Nat.lt_succ_self _
    · exact (h.orbits s hs id hcircles).trans (Nat.lt_succ_self _)
  | _ => exact .of_sublist (.refl _) rfl fun h => h.orbits

theorem receiveAll_succeeds (a : Arena α) (events : List (Level.Event α)) :
    Succeeds a (events.foldl Arena.receive a) := by
  induction events generalizing a with
  | nil => exact .refl a
  | cons event rest ih => exact (receive_succeeds a event).trans (ih _)

theorem player_succeeds (position : Vec α) {shots : List (Shot α)}
    (hshots : ∀ s ∈ shots, s ∈ a.shots ∨ s = playerShot a.player.position) :
    Succeeds a { a with player := { a.player with position }, shots } := by
  refine .of_sublist (.refl _) rfl fun h s hs id hcircles => ?_
  rcases hshots s hs with hs | rfl
  · exact h.orbits s hs id hcircles
  · cases hcircles

theorem step_succeeds [Elementary α] {dt : α} {turn : Turn α} {w w' : Words}
    (h : a.step dt w = .ok (turn, w')) : Succeeds a turn.arena := by
  have hnext : turn.arena.nextId = a.nextId := (step_passes h).nextId_eq
  rcases step_flies h with ⟨-, rfl⟩ | ⟨-, shots, rfl, hflies⟩
  · exact .refl a
  · refine .of_sublist ?_ hnext fun hregistered s hs id hcircles => ?_
    · rw [← moved_ids a dt shots]
      exact resolve_ids _ dt
    · obtain ⟨before, hbefore, hstep, -⟩ := hflies s ((resolve_shots _ dt).subset hs)
      have horbit : before.emitter? = some id := (Shot.step_emitter? hstep).symm.trans hcircles
      rcases hbefore with hbefore | ⟨e, he, hfires⟩
      · exact hregistered.orbits before hbefore id horbit
      · rw [hfires.emitter horbit]
        exact hregistered.issued e he

end

end Barrage.Arena
