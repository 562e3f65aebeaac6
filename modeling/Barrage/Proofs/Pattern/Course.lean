import Barrage.Pattern.Projectile
import Barrage.Proofs.Chance

/-! # Courses of shots

A shot leaves its emitter along the course of its volley, turned by its own offset. A shot that
homes in turns while it flies, unless it stands still or has come to its target. -/

namespace Barrage

variable {α : Type} [Scalar α] [Elementary α]

/-- The second vector is the first, turned counterclockwise by an angle in degrees. -/
def Vec.Turned (u : Vec α) (degrees : α) (v : Vec α) : Prop :=
  v.x = Elementary.cos (Scalar.radians degrees) * u.x -
    Elementary.sin (Scalar.radians degrees) * u.y ∧
  v.y = Elementary.sin (Scalar.radians degrees) * u.x +
    Elementary.cos (Scalar.radians degrees) * u.y

theorem Vec.turned_iff {u v : Vec α} {degrees : α} :
    u.Turned degrees v ↔ v = u.rotate degrees := by
  obtain ⟨x, y⟩ := v
  exact (Vec.mk.injEq ..).symm.to_iff

namespace Pattern

/-! ## Firing -/

/-- Toward the target for a volley that homes in, and else where the emitter is moving. -/
def Volley.bearing (v : Volley α) (emitter : Emitter α) (target : Vec α) : Vec α :=
  if v.homingDeclared then target - emitter.position
  else emitter.position - emitter.previous

/-- A shot that leaves its emitter with an offset, in degrees: from the course of its volley, or
around the pivot that it circles. An emitter at rest may send it anywhere. -/
structure Volley.Sends (v : Volley α) (emitter : Emitter α) (target : Vec α) (offset : α)
    (p : Projectile α) : Prop where
  position_eq : p.position = emitter.position
  emitter_orbit : v.texture = circlingEmitterTexture →
    p.motion = .circling emitter.id .emitter offset (emitter.width * (3 / 2))
  spawn_orbit : v.texture = circlingSpawnTexture →
    p.motion = .circling emitter.id .spawnPoint offset 10000
  flight : v.texture ≠ circlingEmitterTexture → v.texture ≠ circlingSpawnTexture →
    p.motion = .homing v.angularSpeed v.homingFrom v.homingTo ∧
    ∃ course : Vec α, (course.unit.scale v.speed).Turned offset p.velocity ∧
      (Scalar.isZero (v.bearing emitter target).lengthSquared = false →
        course = v.bearing emitter target)

variable {v : Volley α}

omit [Elementary α] in
theorem exists_aim (v : Volley α) (emitter : Emitter α) (target : Vec α) (w : Words) :
    ∃ course w', v.aim emitter target w = .ok (course, w') ∧
      (Scalar.isZero (v.bearing emitter target).lengthSquared = false →
        course = v.bearing emitter target) := by
  unfold Volley.aim
  change ∃ course w', (if Scalar.isZero (v.bearing emitter target).lengthSquared = true then _
    else _ : Chance (Vec α)) w = _ ∧ _
  by_cases hrest : Scalar.isZero (v.bearing emitter target).lengthSquared = true
  · rw [if_pos hrest]
    refine ⟨_, _, rfl, fun hmoves => ?_⟩
    rw [hrest] at hmoves
    cases hmoves
  · rw [if_neg hrest]
    exact ⟨_, _, rfl, fun _ => rfl⟩

theorem shoot_sends (hfires : 0 < v.shots) (emitter : Emitter α) (target : Vec α) (index : ℕ)
    (w : Words) :
    ∃ p w', v.shoot emitter target index w = .ok (some p, w') ∧
      v.Sends emitter target (v.spreadOffset index) p := by
  unfold Volley.shoot
  rw [if_neg hfires.ne']
  by_cases hemitter : v.texture = circlingEmitterTexture
  · rw [if_pos hemitter]
    refine ⟨_, _, rfl, rfl, fun _ => rfl, fun hspawn => ?_, fun hother => absurd hemitter hother⟩
    rw [hemitter] at hspawn
    cases hspawn
  · rw [if_neg hemitter]
    by_cases hspawn : v.texture = circlingSpawnTexture
    · rw [if_pos hspawn]
      refine ⟨_, _, rfl, rfl, fun hother => absurd hother hemitter, fun _ => rfl, ?_⟩
      exact fun _ hother => absurd hspawn hother
    · rw [if_neg hspawn]
      obtain ⟨course, w', haim, hcourse⟩ := exists_aim v emitter target w
      rw [bind_of_draws haim]
      refine ⟨_, _, rfl, rfl, fun hother => absurd hother hemitter,
        fun hother => absurd hother hspawn, fun _ _ => ⟨rfl, course, ?_, hcourse⟩⟩
      exact Vec.turned_iff.2 rfl

theorem sends_of_shoot {emitter : Emitter α} {target : Vec α} {index : ℕ} {p : Projectile α}
    {w w' : Words} (h : v.shoot emitter target index w = .ok (some p, w')) :
    v.Sends emitter target (v.spreadOffset index) p := by
  rcases Nat.eq_zero_or_pos v.shots with hnone | hfires
  · unfold Volley.shoot at h
    rw [if_pos hnone] at h
    cases h
  · obtain ⟨p', w₁, hshoot, hsends⟩ := shoot_sends hfires emitter target index w
    rw [hshoot] at h
    cases h
    exact hsends

/-! ## Steering -/

/-- What becomes of a velocity when a shot steers for a while: it turns from its heading toward the
target, unless the shot stands still or is on its target. -/
inductive Steered (velocity position target : Vec α) (maxSpeed dt : α) : Vec α → Prop where
  | kept : Scalar.isZero velocity.lengthSquared = true ∨
      Scalar.isZero (target - position).lengthSquared = true →
      Steered velocity position target maxSpeed dt velocity
  | turned {turn : α} {velocity' : Vec α} : Scalar.isZero velocity.lengthSquared = false →
      Scalar.isZero (target - position).lengthSquared = false →
      homingTurn velocity.heading (target - position).heading maxSpeed dt = .ok turn →
      velocity.Turned turn velocity' → Steered velocity position target maxSpeed dt velocity'

theorem steer_eq_ok_iff {velocity position target velocity' : Vec α} {maxSpeed dt : α} :
    steer velocity position target maxSpeed dt = .ok velocity' ↔
      Steered velocity position target maxSpeed dt velocity' := by
  unfold steer
  dsimp only
  by_cases hstill : (Scalar.isZero velocity.lengthSquared ||
      Scalar.isZero (target - position).lengthSquared) = true
  · rw [if_pos hstill]
    constructor
    · rintro ⟨⟩
      exact .kept (Bool.or_eq_true_iff.1 hstill)
    · rintro (_ | ⟨hmoves, haway, -, -⟩)
      · rfl
      · rw [hmoves, haway] at hstill
        cases hstill
  · rw [if_neg hstill]
    rw [Bool.not_eq_true, Bool.or_eq_false_iff] at hstill
    obtain ⟨hmoves, haway⟩ := hstill
    constructor
    · intro h
      obtain ⟨turn, hturn, h⟩ := parts_of_ok h
      exact .turned hmoves haway hturn (Vec.turned_iff.2 (Except.ok.inj h).symm)
    · rintro (hkept | ⟨-, -, hturn, hturned⟩)
      · rw [hmoves, haway] at hkept
        simp at hkept
      · rw [hturn, Vec.turned_iff.1 hturned]
        rfl

end Pattern

end Barrage
