import Barrage.Proofs.Game.Ending
import Barrage.Proofs.Pattern.Course
import Barrage.Proofs.Pattern.Homing

/-! # Shots that home in

A shot turns toward the player while its age lies in a window. The window opens when the shot has
covered a distance, and it stays open for a frame at least, so no run of frames that are not longer
can step over it. -/

namespace Barrage

namespace Pattern

variable {start : ℚ} {stop : Exact}

/-- From when to when a shot homes in: for a frame at least, or for ever. -/
structure Window (start : ℚ) (stop : Exact) : Prop where
  nonneg : 0 ≤ start
  lasts : Exact.finite (start + 1 / 25) ≤ stop

namespace Window

theorem lt (h : Window start stop) : Exact.finite start < stop := by
  have hlasts := h.lasts
  cases stop with
  | finite q =>
    rw [Exact.finite_le] at hlasts
    rw [Exact.finite_lt]
    linarith
  | infinite negative => exact hlasts
  | undefined => cases hlasts

theorem le_of_frame (h : Window start stop) {age : ℚ} (hage : age ≤ start + 1 / 25) :
    Exact.finite age ≤ stop := by
  have hlasts := h.lasts
  cases stop with
  | finite q =>
    rw [Exact.finite_le] at hlasts ⊢
    linarith
  | infinite negative => exact hlasts
  | undefined => cases hlasts

end Window

theorem past_of_le {age later : ℚ} (hpast : ¬ Exact.finite age ≤ stop) (hle : age ≤ later) :
    ¬ Exact.finite later ≤ stop := by
  cases stop with
  | finite q =>
    rw [Exact.finite_le] at hpast ⊢
    linarith
  | infinite negative => exact hpast
  | undefined => exact hpast

theorem isHomingAt_iff {maxSpeed : Exact} {age : ℚ} :
    (ShotMotion.homing maxSpeed (Exact.finite start) stop).isHomingAt (.finite age) = true ↔
      start < age ∧ Exact.finite age ≤ stop := by
  rw [ShotMotion.isHomingAt, Bool.and_eq_true, decide_eq_true_iff, decide_eq_true_iff,
    Exact.finite_lt]

theorem frame_eq : (4 / 100 : Exact) = .finite (1 / 25) := by
  rw [Exact.literal_eq, Exact.literal_eq, Exact.finite_div _ (by norm_num)]
  norm_num

namespace Volley

theorem between_finite (digit : ℕ) {steps : ℕ} (hsteps : steps ≠ 0) (lower upper : ℚ) :
    between digit steps (Exact.finite lower) (.finite upper) =
      .finite (lower + digit * (upper - lower) / steps) := by
  have hcast : (steps : ℚ) ≠ 0 := by exact_mod_cast hsteps
  rw [between, Exact.ofNat_eq, Exact.ofNat_eq, Exact.finite_sub, Exact.finite_mul,
    Exact.finite_div _ hcast, Exact.finite_add]

theorem speedOf_pos (digit : ℕ) : ∃ v : ℚ, (speedOf digit : Exact) = .finite v ∧ 0 < v := by
  unfold speedOf
  split_ifs
  · exact ⟨400, rfl, by norm_num⟩
  · refine ⟨_, between_finite digit (by decide) 10 200, ?_⟩
    positivity

theorem homingTime_ge (digit : ℕ) :
    ∃ t : ℚ, (homingTime digit : Exact) = .finite t ∧ 1 / 25 ≤ t := by
  refine ⟨1 / 25 + (digit - 1 : ℕ) * (10 - 1 / 25) / (8 : ℕ), ?_, ?_⟩
  · rw [homingTime, frame_eq]
    exact between_finite (digit - 1) (by decide) (1 / 25) 10
  · have hmore : (0 : ℚ) ≤ (digit - 1 : ℕ) * (10 - 1 / 25) / (8 : ℕ) := by positivity
    linarith

/-- Whatever is packed, the window of its shots opens at some time and stays open for a frame, or
for ever. -/
theorem decode_window (packed : Packed) (width tempo : Exact) :
    ∃ maxSpeed start : ℚ, (decode packed width tempo).angularSpeed = .finite maxSpeed ∧
      (decode packed width tempo).homingFrom = .finite start ∧
      Window start (decode packed width tempo).homingTo ∧
      ((decode packed width tempo).homingTo = .infinite false ↔
        (Fields.unpack packed).digit .homingDuration = 0) := by
  obtain ⟨v, hv, hpos⟩ := speedOf_pos ((Fields.unpack packed).digit .speed).val
  obtain ⟨t, ht, hleast⟩ := homingTime_ge ((Fields.unpack packed).digit .homingDuration).val
  have hturn : (decode packed width tempo).angularSpeed =
      between ((Fields.unpack packed).digit .homingSpeed).val 9 0 360 := rfl
  have hfrom : (decode packed width tempo).homingFrom =
      between ((Fields.unpack packed).digit .homingStart).val 9 0 40 /
        speedOf ((Fields.unpack packed).digit .speed).val := rfl
  have hto : (decode packed width tempo).homingTo =
      if ((Fields.unpack packed).digit .homingDuration).val = 0 then Scalar.infinity
      else (decode packed width tempo).homingFrom +
        homingTime ((Fields.unpack packed).digit .homingDuration).val := rfl
  have hdistance := between_finite ((Fields.unpack packed).digit .homingStart).val
    (by decide : 9 ≠ 0) 0 40
  rw [hv, show between _ 9 (0 : Exact) 40 = _ from hdistance, Exact.finite_div _ hpos.ne'] at hfrom
  rw [hfrom, ht, Exact.finite_add] at hto
  refine ⟨_, _, hturn.trans (between_finite _ (by decide) 0 360), hfrom, ⟨by positivity, ?_⟩, ?_⟩
  · rw [hto]
    split_ifs
    · rfl
    · rw [Exact.finite_le]
      linarith
  · rw [hto, Fin.ext_iff]
    split_ifs with hdigit
    · exact iff_of_true rfl hdigit
    · exact iff_of_false nofun hdigit

end Volley

end Pattern

namespace Arena

open Pattern (Packed Fields Volley ShotMotion Window Steered)

/-- A step of one shot: what it was, in which arena and for how long it flew, and what it became. -/
structure Leg (α : Type) where
  before : Shot α
  arena : Arena α
  dt : α
  after : Shot α

section

variable {α : Type} [Scalar α] [Elementary α]

def Shot.legs (s : Shot α) : List (Arena α × α) → Except Fault (List (Leg α))
  | [] => return []
  | (a, dt) :: rest => do
    let after ← s.step a dt
    return ⟨s, a, dt, after⟩ :: (← after.legs rest)

structure Leg.Flies (x : Leg α) : Prop where
  age_eq : x.after.age = x.before.age + x.dt
  position_eq : x.after.position = x.before.position + x.after.velocity.scale x.dt
  motion_eq : x.after.motion = x.before.motion

/-- The step finds the shot homing and steers it toward the player. -/
structure Leg.Steers (x : Leg α) : Prop extends Leg.Flies x where
  homing : x.after.motion.isHomingAt x.after.age = true
  steered : ∃ maxSpeed start stop, x.before.motion = .homing maxSpeed start stop ∧
    Steered x.before.velocity x.before.position x.arena.player.position maxSpeed x.dt
      x.after.velocity

structure Leg.Coasts (x : Leg α) : Prop extends Leg.Flies x where
  idle : x.after.motion.isHomingAt x.after.age = false
  straight : x.after.velocity = x.before.velocity

theorem legs_steps {s : Shot α} {steps : List (Arena α × α)} {legs : List (Leg α)}
    (h : s.legs steps = .ok legs) : legs.map (fun x => (x.arena, x.dt)) = steps := by
  induction steps generalizing s legs with
  | nil =>
    cases h
    rfl
  | cons step rest ih =>
    obtain ⟨after, -, h⟩ := parts_of_ok h
    obtain ⟨later, hlater, h⟩ := parts_of_ok h
    cases h
    rw [List.map_cons, ih hlater]

theorem legs_cons {s s' : Shot α} {a : Arena α} {dt : α} {rest : List (Arena α × α)}
    {legs : List (Leg α)} (hstep : s.step a dt = .ok s') (hlegs : s'.legs rest = .ok legs) :
    s.legs ((a, dt) :: rest) = .ok (⟨s, a, dt, s'⟩ :: legs) := by
  rw [Shot.legs, hstep]
  change (s'.legs rest >>= fun legs => .ok (⟨s, a, dt, s'⟩ :: legs)) = _
  rw [hlegs]
  rfl

theorem Shot.step_homing {s : Shot α} {maxSpeed start stop : α} (howner : s.owner = .enemy)
    (hmotion : s.motion = .homing maxSpeed start stop) (a : Arena α) (dt : α) :
    s.step a dt =
      (if s.motion.isHomingAt (s.age + dt) = true then
          Pattern.steer s.velocity s.position a.player.position maxSpeed dt
        else .ok s.velocity).map fun velocity =>
      { s with age := s.age + dt, velocity, position := s.position + velocity.scale dt } := by
  obtain ⟨owner, position, velocity, origin, age, timeToLive, texture, alpha, motion⟩ := s
  obtain rfl : owner = .enemy := howner
  obtain rfl : motion = .homing maxSpeed start stop := hmotion
  unfold Shot.step
  dsimp only
  rw [decide_eq_true rfl, Bool.true_and]
  split_ifs
  · cases Pattern.steer velocity position a.player.position maxSpeed dt <;> rfl
  · rfl

end

/-! ## One step -/

structure Pursues (s : Shot Exact) (maxSpeed start : ℚ) (stop : Exact) (age : ℚ) : Prop where
  owner_eq : s.owner = .enemy
  motion_eq : s.motion = .homing (.finite maxSpeed) (.finite start) stop
  age_eq : s.age = .finite age

section

variable [Elementary Exact] {s : Shot Exact} {maxSpeed start age : ℚ} {stop : Exact}

omit [Elementary Exact] in
theorem Pursues.started_iff (h : Pursues s maxSpeed start stop age) :
    Exact.finite start < s.age ↔ start < age := by
  rw [h.age_eq, Exact.finite_lt]

/-- Steering has a result, since its limit is a finite number. -/
theorem steer_ok (velocity position target : Vec Exact) (maxSpeed dt : ℚ) :
    ∃ v, Pattern.steer velocity position target (.finite maxSpeed) (.finite dt) = .ok v := by
  have hlimits : -Exact.finite |maxSpeed * dt| ≤ .finite |maxSpeed * dt| := by
    rw [Exact.finite_neg, Exact.finite_le]
    linarith [abs_nonneg (maxSpeed * dt)]
  have hturn : ∀ heading bearing : Exact,
      ∃ turn, Pattern.homingTurn heading bearing (.finite maxSpeed) (.finite dt) = .ok turn := by
    intro heading bearing
    exact ⟨_, if_pos hlimits⟩
  obtain ⟨turn, hturn⟩ := hturn velocity.heading (target - position).heading
  unfold Pattern.steer
  dsimp only
  split_ifs
  · exact ⟨_, rfl⟩
  · rw [hturn]
    exact ⟨_, rfl⟩

theorem Pursues.step (h : Pursues s maxSpeed start stop age) (a : Arena Exact) (dt : ℚ) :
    ∃ s', s.step a (.finite dt) = .ok s' ∧ Pursues s' maxSpeed start stop (age + dt) ∧
      (start < age + dt ∧ Exact.finite (age + dt) ≤ stop → Leg.Steers ⟨s, a, .finite dt, s'⟩) ∧
      (¬ (start < age + dt ∧ Exact.finite (age + dt) ≤ stop) →
        Leg.Coasts ⟨s, a, .finite dt, s'⟩) := by
  obtain ⟨howner, hmotion, hage⟩ := h
  obtain ⟨velocity, hvelocity⟩ := steer_ok s.velocity s.position a.player.position maxSpeed dt
  have hstep := s.step_homing howner hmotion a (.finite dt)
  have hhoming : s.motion.isHomingAt (.finite (age + dt)) = true ↔
      start < age + dt ∧ Exact.finite (age + dt) ≤ stop := by
    rw [hmotion]
    exact Pattern.isHomingAt_iff
  rw [hage, Exact.finite_add] at hstep
  by_cases hopen : start < age + dt ∧ Exact.finite (age + dt) ≤ stop
  · rw [if_pos (hhoming.2 hopen), hvelocity] at hstep
    refine ⟨_, hstep, ⟨howner, hmotion, rfl⟩, fun _ => ?_, fun hclosed => absurd hopen hclosed⟩
    refine ⟨⟨?_, rfl, rfl⟩, hhoming.2 hopen, _, _, _, hmotion, Pattern.steer_eq_ok_iff.1 hvelocity⟩
    rw [hage, Exact.finite_add]
  · rw [if_neg (hopen ∘ hhoming.1)] at hstep
    refine ⟨_, hstep, ⟨howner, hmotion, rfl⟩, fun h => absurd h hopen, fun _ => ?_⟩
    refine ⟨⟨?_, rfl, rfl⟩, Bool.eq_false_iff.2 (hopen ∘ hhoming.1), rfl⟩
    rw [hage, Exact.finite_add]

/-! ## The legs of a flight -/

/-- Steps that have a length, and one that is a frame at most. -/
def Frames (steps : List (Arena Exact × Exact)) : Prop :=
  ∀ x ∈ steps, ∃ dt : ℚ, x.2 = .finite dt ∧ 0 < dt ∧ dt ≤ 1 / 25

variable {steps : List (Arena Exact × Exact)}

omit [Elementary Exact] in
theorem frames_of_le (h : ∀ x ∈ steps, 0 < x.2 ∧ x.2 ≤ 4 / 100) : Frames steps := by
  intro x hx
  obtain ⟨hpos, hle⟩ := h x hx
  rw [Pattern.frame_eq] at hle
  obtain ⟨a, dt⟩ := x
  cases dt with
  | finite dt => exact ⟨dt, rfl, (Exact.finite_lt _ _).1 hpos, (Exact.finite_le _ _).1 hle⟩
  | infinite negative =>
    cases negative
    · cases hle
    · cases hpos
  | undefined => cases hle

theorem Pursues.passed (h : Pursues s maxSpeed start stop age) (hopen : start ≤ age)
    (hpast : ¬ Exact.finite age ≤ stop) (hsteps : Frames steps) :
    ∃ legs, s.legs steps = .ok legs ∧ ∀ x ∈ legs, Exact.finite start < x.after.age ∧ x.Coasts := by
  induction steps generalizing s age with
  | nil => exact ⟨[], rfl, List.forall_mem_nil _⟩
  | cons step rest ih =>
    obtain ⟨a, time⟩ := step
    obtain ⟨⟨dt, hdt, hpos, -⟩, hrest⟩ := List.forall_mem_cons.1 hsteps
    obtain rfl : time = .finite dt := hdt
    obtain ⟨s', hstep, hnext, -, hcoasts⟩ := h.step a dt
    have hpast' := Pattern.past_of_le hpast (show age ≤ age + dt by linarith)
    have hlt : start < age + dt := by linarith
    obtain ⟨legs, hlegs, hall⟩ := ih hnext hlt.le hpast' hrest
    exact ⟨_, legs_cons hstep hlegs,
      List.forall_mem_cons.2 ⟨⟨hnext.started_iff.2 hlt, hcoasts fun hhoming => hpast' hhoming.2⟩,
        hall⟩⟩

theorem Pursues.opened (h : Pursues s maxSpeed start stop age) (hopen : start ≤ age)
    (hsteps : Frames steps) : ∃ steering later, s.legs steps = .ok (steering ++ later) ∧
      (∀ x ∈ steering, Exact.finite start < x.after.age ∧ x.Steers) ∧
      (∀ x ∈ later, Exact.finite start < x.after.age ∧ x.Coasts) ∧
        (stop = .infinite false → later = []) := by
  induction steps generalizing s age with
  | nil => exact ⟨[], [], rfl, List.forall_mem_nil _, List.forall_mem_nil _, fun _ => rfl⟩
  | cons step rest ih =>
    obtain ⟨a, time⟩ := step
    obtain ⟨⟨dt, hdt, hpos, -⟩, hrest⟩ := List.forall_mem_cons.1 hsteps
    obtain rfl : time = .finite dt := hdt
    obtain ⟨s', hstep, hnext, hsteers, hcoasts⟩ := h.step a dt
    have hlt : start < age + dt := by linarith
    by_cases hends : Exact.finite (age + dt) ≤ stop
    · obtain ⟨steering, later, hlegs, hsteering, hlater, hendless⟩ := ih hnext hlt.le hrest
      exact ⟨_ :: steering, later, legs_cons hstep hlegs,
        List.forall_mem_cons.2 ⟨⟨hnext.started_iff.2 hlt, hsteers ⟨hlt, hends⟩⟩, hsteering⟩,
          hlater, hendless⟩
    · obtain ⟨later, hlegs, hlater⟩ := hnext.passed hlt.le hends hrest
      refine ⟨[], _ :: later, legs_cons hstep hlegs, List.forall_mem_nil _,
        List.forall_mem_cons.2 ⟨⟨hnext.started_iff.2 hlt, ?_⟩, hlater⟩, fun hendless => ?_⟩
      · exact hcoasts fun hhoming => hends hhoming.2
      · rw [hendless] at hends
        exact absurd rfl hends

/-- A shot flies straight on, then steers, then flies straight on again. No frame is long enough to
carry it from one side of its window to the other. -/
theorem Pursues.flies (h : Pursues s maxSpeed start stop age) (hwindow : Window start stop)
    (hage : age ≤ start) (hsteps : Frames steps) :
    ∃ earlier steering later, s.legs steps = .ok (earlier ++ (steering ++ later)) ∧
      (∀ x ∈ earlier, ¬ Exact.finite start < x.after.age ∧ x.Coasts) ∧
      (∀ x ∈ steering, Exact.finite start < x.after.age ∧ x.Steers) ∧
      (∀ x ∈ later, Exact.finite start < x.after.age ∧ x.Coasts) ∧ (steering = [] → later = []) ∧
      (stop = .infinite false → later = []) := by
  induction steps generalizing s age with
  | nil =>
    exact ⟨[], [], [], rfl, List.forall_mem_nil _, List.forall_mem_nil _, List.forall_mem_nil _,
      fun _ => rfl, fun _ => rfl⟩
  | cons step rest ih =>
    obtain ⟨a, time⟩ := step
    obtain ⟨⟨dt, hdt, hpos, hframe⟩, hrest⟩ := List.forall_mem_cons.1 hsteps
    obtain rfl : time = .finite dt := hdt
    obtain ⟨s', hstep, hnext, hsteers, hcoasts⟩ := h.step a dt
    rcases le_or_gt (age + dt) start with hle | hlt
    · obtain ⟨earlier, steering, later, hlegs, hearlier, hsteering, hlater, hnone, hendless⟩ :=
        ih hnext hle hrest
      have hbefore : ¬ start < age + dt := not_lt.2 hle
      exact ⟨_ :: earlier, steering, later, legs_cons hstep hlegs,
        List.forall_mem_cons.2 ⟨⟨hbefore ∘ hnext.started_iff.1,
        hcoasts fun hhoming => hbefore hhoming.1⟩, hearlier⟩, hsteering, hlater, hnone, hendless⟩
    · obtain ⟨steering, later, hlegs, hsteering, hlater, hendless⟩ := hnext.opened hlt.le hrest
      -- the frame that opens the window ends before the window does
      have hends := hwindow.le_of_frame (show age + dt ≤ start + 1 / 25 by linarith)
      exact ⟨[], _ :: steering, later, legs_cons hstep hlegs, List.forall_mem_nil _,
        List.forall_mem_cons.2 ⟨⟨hnext.started_iff.2 hlt, hsteers ⟨hlt, hends⟩⟩, hsteering⟩, hlater,
          nofun, hendless⟩

/-! ## Shots as they are fired -/

omit [Elementary Exact] in
/-- A volley that does not send its shots into orbit sends them homing with its own window. -/
theorem shoot_homing {α : Type} [Scalar α] [Elementary α] {v : Volley α}
    {emitter : Pattern.Emitter α} {target : Vec α} {index : ℕ} {p : Pattern.Projectile α}
    {w w' : Words} {maxSpeed start stop : α} (h : v.shoot emitter target index w = .ok (some p, w'))
    (hmotion : p.motion = .homing maxSpeed start stop) :
    maxSpeed = v.angularSpeed ∧ start = v.homingFrom ∧ stop = v.homingTo := by
  have hsends := Pattern.sends_of_shoot h
  by_cases hemitter : v.texture = Pattern.circlingEmitterTexture
  · rw [hsends.emitter_orbit hemitter] at hmotion
    cases hmotion
  · by_cases hspawn : v.texture = Pattern.circlingSpawnTexture
    · rw [hsends.spawn_orbit hspawn] at hmotion
      cases hmotion
    · rw [(hsends.flight hemitter hspawn).1] at hmotion
      cases hmotion
      exact ⟨rfl, rfl, rfl⟩

/-- Whatever a pattern, the world and the tempo are, a shot that homes in begins to do so at some
age and goes on for a while, or for ever if its pattern gives no duration. In steps of a frame at
most, wherever they lead it, it flies straight on until that age, then steers in steps that follow
each other, and then flies straight on again. If it has come past that age, it has steered; and if
it homes in for ever, it steers from then on. To steer is to turn from one's heading toward the
player, as far as the step allows. -/
theorem homing_lasts_a_frame (packed : Packed) (width tempo : Exact)
    {emitter : Pattern.Emitter Exact} {target : Vec Exact} {index : ℕ} {w w' : Words}
    {p : Pattern.Projectile Exact} {maxSpeed start stop : Exact}
    (hshot : (Volley.decode packed width tempo).shoot emitter target index w = .ok (some p, w'))
    (hmotion : p.motion = .homing maxSpeed start stop) :
    0 ≤ start ∧ start < stop ∧
    (stop = Scalar.infinity ↔ (Fields.unpack packed).digit .homingDuration = 0) ∧
    ∀ steps : List (Arena Exact × Exact), (∀ x ∈ steps, 0 < x.2 ∧ x.2 ≤ 4 / 100) →
      ∃ earlier steering later,
        (Shot.ofProjectile p).legs steps = .ok (earlier ++ (steering ++ later)) ∧
        (earlier ++ (steering ++ later)).map (fun x => (x.arena, x.dt)) = steps ∧
        (∀ x ∈ earlier, ¬ start < x.after.age ∧ x.Coasts) ∧
        (∀ x ∈ steering, start < x.after.age ∧ x.Steers) ∧
        (∀ x ∈ later, start < x.after.age ∧ x.Coasts) ∧
        ((∃ x ∈ earlier ++ (steering ++ later), start < x.after.age) → steering ≠ []) ∧
        ((Fields.unpack packed).digit .homingDuration = 0 → later = []) := by
  obtain ⟨rfl, rfl, rfl⟩ := shoot_homing hshot hmotion
  obtain ⟨maxSpeed, start, hturn, hfrom, hwindow, hendless⟩ :=
    Volley.decode_window packed width tempo
  rw [hturn, hfrom] at hmotion
  rw [hfrom]
  refine ⟨(Exact.finite_le 0 start).2 hwindow.nonneg, hwindow.lt, hendless, fun steps hsteps => ?_⟩
  have hpursues : Pursues (Shot.ofProjectile p) maxSpeed start _ 0 := ⟨rfl, hmotion, rfl⟩
  obtain ⟨earlier, steering, later, hlegs, hearlier, hsteering, hlater, hnone, hforever⟩ :=
    hpursues.flies hwindow hwindow.nonneg (frames_of_le hsteps)
  refine ⟨earlier, steering, later, hlegs, legs_steps hlegs, hearlier, hsteering, hlater, ?_,
    fun h => hforever (hendless.2 h)⟩
  rintro ⟨x, hx, hpassed⟩ hempty
  rw [hempty, hnone hempty, List.append_nil, List.append_nil] at hx
  exact (hearlier x hx).1 hpassed

end

section

attribute [local instance] Game.aligned

/-- A shot toward a player to the right that homes in for the shortest time. -/
def briefly : Volley Exact := .decode ⟨9119001001⟩ 320 120

def range : Arena Exact := start ⟨320, 180⟩ 120 (.finite (1 / 2))

theorem short_window_is_met_by_a_step :
    ∃ p w', briefly.shoot ⟨0, ⟨20, 90⟩, ⟨20, 90⟩, 16⟩ range.player.position 0 (Words.cycle #[]) =
      .ok (some p, w') ∧
      p.motion = .homing 360 (.finite (1 / 7)) (.finite (32 / 175)) ∧
      ∃ earlier steering later,
        (Shot.ofProjectile p).legs (.replicate 8 (range, .finite (1 / 32))) =
          .ok (earlier ++ (steering ++ later)) ∧
        (∀ x ∈ steering, x.Steers) ∧ steering ≠ [] := by
  have hview :
      (briefly.shoot ⟨0, ⟨20, 90⟩, ⟨20, 90⟩, 16⟩ range.player.position 0 (Words.cycle #[])).map
        (fun s => s.1.map fun p =>
          (p.motion, ((Shot.ofProjectile p).legs (.replicate 8 (range, .finite (1 / 32)))).map
            (List.map fun x => x.after.age))) =
      .ok (some (.homing 360 (.finite (1 / 7)) (.finite (32 / 175)), .ok
        [.finite (1 / 32), .finite (1 / 16), .finite (3 / 32), .finite (1 / 8), .finite (5 / 32),
          .finite (3 / 16), .finite (7 / 32), .finite (1 / 4)])) := by
    decide +kernel
  obtain ⟨⟨p?, w'⟩, hshot, hview⟩ := ok_of_map hview
  obtain ⟨p, hp, hflown⟩ := Option.map_eq_some_iff.1 hview
  obtain rfl : p? = some p := hp
  obtain ⟨hmotion, hages⟩ := Prod.mk.inj hflown
  obtain ⟨-, -, -, hflight⟩ := homing_lasts_a_frame ⟨9119001001⟩ 320 120 hshot hmotion
  have hframes : ∀ x ∈ List.replicate 8 (range, Exact.finite (1 / 32)),
      0 < x.2 ∧ x.2 ≤ 4 / 100 := by
    intro x hx
    obtain rfl := List.eq_of_mem_replicate hx
    decide +kernel
  obtain ⟨earlier, steering, later, hlegs, -, -, hsteering, -, hpassed, -⟩ := hflight _ hframes
  rw [hlegs] at hages
  refine ⟨p, w', hshot, hmotion, earlier, steering, later, hlegs,
    fun x hx => (hsteering x hx).2, hpassed ?_⟩
  obtain ⟨x, hx, hage⟩ : ∃ x ∈ earlier ++ (steering ++ later), x.after.age = .finite (1 / 4) := by
    rw [← List.mem_map, Except.ok.inj hages]
    decide +kernel
  refine ⟨x, hx, ?_⟩
  rw [hage]
  decide +kernel

end

end Arena

end Barrage
