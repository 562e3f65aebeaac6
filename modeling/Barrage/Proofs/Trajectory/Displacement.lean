import Barrage.Proofs.Trajectory.Independence
import Barrage.Proofs.Trajectory.Sound

/-! # Displacement

In exact numbers, and with any sines and cosines, a stage maps the plane of spawn points to the
plane of positions without a turn: it shrinks the plane by one factor and shifts it. Only motions to
a point shrink it, because a motion to a point takes an actor a part of its way. So the members of a
group come no farther apart than they were spawned, and where no motion leads to a point, all that a
stage does is to add up what its effects do by themselves. -/

namespace Barrage

open Exact (point coordinates)

/-! ## Contractions -/

/-- The map shrinks the rational plane by one factor and shifts it. Where it is steady, it only
shifts it. -/
def Contracts (steady : Prop) (f : Vec Exact → Vec Exact) : Prop :=
  ∃ (a : ℚ) (b : ℚ × ℚ), 0 ≤ a ∧ a ≤ 1 ∧ (steady → a = 1) ∧ ∀ v, f (point v) = point (a • v + b)

def Shifts (f : Vec Exact → Vec Exact) (b : ℚ × ℚ) : Prop := ∀ v, f (point v) = point (v + b)

section

variable {steady : Prop} {f g : Vec Exact → Vec Exact} {b c : ℚ × ℚ}

theorem Shifts.comp (hg : Shifts g c) (hf : Shifts f b) : Shifts (fun v => g (f v)) (b + c) := by
  intro v
  change g (f (point v)) = _
  rw [hf, hg, add_assoc]

theorem shifts_repeat (hf : Shifts f b) (n : ℕ) : Shifts (Nat.repeat f n) (n • b) := by
  induction n with
  | zero =>
    intro v
    rw [zero_smul, add_zero]
    rfl
  | succ n ih =>
    rw [succ_nsmul]
    exact hf.comp ih

theorem Shifts.contracts (hf : Shifts f b) : Contracts steady f :=
  ⟨1, b, zero_le_one, le_rfl, fun _ => rfl, fun v => by rw [one_smul, hf]⟩

theorem Contracts.shifts (h : Contracts steady f) (hs : steady) :
    Shifts f (coordinates (f (point 0))) := by
  obtain ⟨a, b, -, -, ha, hf⟩ := h
  intro v
  simp [hf, ha hs]

theorem Contracts.comp (hg : Contracts steady g) (hf : Contracts steady f) :
    Contracts steady fun v => g (f v) := by
  obtain ⟨a, b, ha, ha', hsteady, hf⟩ := hf
  obtain ⟨c, d, hc, hc', hsteady', hg⟩ := hg
  refine ⟨c * a, c • b + d, mul_nonneg hc ha, mul_le_one₀ hc' ha ha', fun hs => ?_, fun v => ?_⟩
  · rw [hsteady hs, hsteady' hs, one_mul]
  · change g (f (point v)) = _
    rw [hf, hg, smul_add, smul_smul, add_assoc]

theorem contracts_id : Contracts steady fun here => here :=
  Shifts.contracts (b := 0) fun v => by rw [add_zero]

theorem contracts_repeat (hf : Contracts steady f) (n : ℕ) : Contracts steady (Nat.repeat f n) := by
  induction n with
  | zero => exact contracts_id
  | succ n ih => exact hf.comp ih

theorem Contracts.mono {calm : Prop} (hf : Contracts steady f) (h : calm → steady) :
    Contracts calm f := by
  obtain ⟨a, b, ha, ha', hsteady, hf⟩ := hf
  exact ⟨a, b, ha, ha', fun hc => hsteady (h hc), hf⟩

theorem lengthSquared_smul_le {a : ℚ} (ha : 0 ≤ a) (ha' : a ≤ 1) (v : ℚ × ℚ) :
    (point (a • v)).lengthSquared ≤ (point v).lengthSquared := by
  have hone : a * a ≤ 1 := mul_le_one₀ ha' ha ha'
  have hnonneg : 0 ≤ v.1 * v.1 + v.2 * v.2 := add_nonneg (mul_self_nonneg _) (mul_self_nonneg _)
  rw [Exact.lengthSquared_point, Exact.lengthSquared_point, Exact.finite_le]
  calc (a • v).1 * (a • v).1 + (a • v).2 * (a • v).2 = a * a * (v.1 * v.1 + v.2 * v.2) := by
        simp only [Prod.smul_fst, Prod.smul_snd, smul_eq_mul]
        ring
    _ ≤ v.1 * v.1 + v.2 * v.2 := mul_le_of_le_one_left hnonneg hone

end

namespace Trajectory

section

variable {α : Type}

def Effect.isMove : Effect α → Bool
  | .motion _ (.move ..) => true
  | _ => false

def Moveless (effects : List (Effect α)) : Prop := ∀ e ∈ Effect.partsAll effects, e.isMove = false

theorem moveless_cons {e : Effect α} {rest : List (Effect α)} :
    Moveless (e :: rest) ↔ (∀ part ∈ e.parts, part.isMove = false) ∧ Moveless rest :=
  List.forall_mem_append

end

theorem effects_sound {program : Program Exact} (h : ∀ s ∈ program.stages, SoundAll s.effects)
    (stage : ℕ) : SoundAll (program.effects stage) := by
  unfold Program.effects
  cases hs : program.stages[stage]? with
  | none => exact List.forall_mem_nil _
  | some s => exact h s (List.mem_of_getElem? hs)

/-! ## Local time -/

theorem localTime_cases {w : Window Exact} (hw : w.Sound) {time : ℚ} {t : Exact}
    (h : w.localTime (.finite time) = some t) :
    ∃ u : ℚ, t = .finite u ∧ (0 ≤ u ∨ w.stop - w.start = .finite u) := by
  obtain ⟨⟨a, ha⟩, hstop⟩ := hw
  unfold Window.localTime at h
  rw [ha] at h ⊢
  by_cases hbefore : Exact.finite time < .finite a
  · rw [if_pos hbefore] at h
    cases h
  rw [if_neg hbefore] at h
  by_cases hinside : Exact.finite time < w.stop
  · rw [if_pos hinside] at h
    obtain rfl := Option.some.inj h
    have hpast : a ≤ time := by simpa using hbefore
    exact ⟨time - a, rfl, Or.inl (sub_nonneg.2 hpast)⟩
  rw [if_neg hinside] at h
  by_cases hcancelled : w.cancelling = true
  · rw [if_pos hcancelled] at h
    cases h
  rw [if_neg hcancelled] at h
  obtain rfl := Option.some.inj h
  rcases hstop with hnever | ⟨b, hb⟩
  · rw [hnever] at hinside
    exact absurd rfl hinside
  · rw [hb]
    exact ⟨b - a, rfl, Or.inr rfl⟩

theorem Window.Sound.duration {w : Window Exact} (hw : w.Sound) :
    w.stop - w.start = Scalar.infinity ∨ ∃ q, w.stop - w.start = .finite q := by
  obtain ⟨⟨a, ha⟩, hnever | ⟨b, hb⟩⟩ := hw
  · rw [ha, hnever]
    exact Or.inl rfl
  · rw [ha, hb]
    exact Or.inr ⟨b - a, rfl⟩

/-! ## Motions -/

theorem approach_contracts {steady : Prop} (hs : ¬ steady) (target : ℚ × ℚ) {r : ℚ} (hr : 0 ≤ r)
    (hr' : r ≤ 1) : Contracts steady fun here => here + (point target - here).scale
    (.finite r) := by
  refine ⟨1 - r, r • target, by linarith, by linarith, fun h => absurd h hs, fun v => ?_⟩
  change point v + (point target - point v).scale (.finite r) = _
  rw [Exact.point_sub, Exact.point_scale, Exact.point_add]
  congr 1
  module

theorem direction_shifts (side : Side) (r : ℚ) :
    ∃ b, Shifts (fun here => here + side.direction.scale (.finite r)) b := by
  obtain ⟨d, hd⟩ := Exact.direction_point side
  refine ⟨r • d, fun v => ?_⟩
  change point v + side.direction.scale (.finite r) = _
  rw [hd, Exact.point_scale, Exact.point_add]

section

variable [Elementary Exact]

theorem displace_contracts (hwaves : ∀ (shape : Wave) (q : ℚ), ∃ r : ℚ, shape.height (.finite q) =
    Exact.finite r) {w : Window Exact} {m : Motion Exact} (hw : w.Sound) (hm : m.Sound w) {u : ℚ}
    (hu : 0 ≤ u ∨ w.stop - w.start = .finite u) :
    Contracts ((Effect.motion w m).isMove = false) fun here => m.displace (.finite u) here := by
  cases m with
  | linear side speed =>
    obtain ⟨q, rfl⟩ := hm
    obtain ⟨b, hb⟩ := direction_shifts side (u * q)
    exact hb.contracts
  | wave shape side start speed amplitude =>
    obtain ⟨⟨p, rfl⟩, ⟨q, rfl⟩, ⟨r, rfl⟩⟩ := hm
    obtain ⟨height, hheight⟩ := hwaves shape (p + u * q)
    obtain ⟨b, hb⟩ := direction_shifts side (height * r)
    refine Shifts.contracts (b := b) fun v => ?_
    change point v + side.direction.scale (shape.height (.finite (p + u * q)) * .finite r) = _
    rw [hheight]
    exact hb v
  | move target duration =>
    obtain ⟨⟨target, rfl⟩, rfl⟩ := hm
    have hmove : ¬ (Effect.motion w (.move (point target) (w.stop - w.start))).isMove = false := by
      simp [Effect.isMove]
    unfold Motion.displace
    rcases hw.duration with hnever | ⟨d, hd⟩
    · -- a way without an end is not even begun
      rw [hnever]
      exact approach_contracts hmove target le_rfl zero_le_one
    · rw [hd] at hu ⊢
      by_cases hdone : d ≤ u
      · simp only [Exact.finite_le, if_pos hdone]
        exact ⟨0, target, le_rfl, zero_le_one, fun h => absurd h hmove,
          fun v => by rw [zero_smul, zero_add]⟩
      · have hlt : u < d := not_le.1 hdone
        have hnonneg : 0 ≤ u := hu.resolve_right fun h => hlt.ne' (Exact.finite.inj h)
        have hpos : 0 < d := hnonneg.trans_lt hlt
        simp only [Exact.finite_le, if_neg hdone, Exact.finite_div _ hpos.ne']
        exact approach_contracts hmove target (div_nonneg hnonneg hpos.le)
          ((div_le_one hpos).2 hlt.le)

/-! ## Effects -/

/-- A loop of rational length: whole passes, and what is left of the time. -/
theorem travel_loop {w : Window Exact} {time : Exact} {u q : ℚ}
    (ht : w.localTime time = some (.finite u)) (hq : 0 < q) (here : Vec Exact)
    (body : List (Effect Exact)) :
    Effect.travel time here (.loop w body (.finite q)) =
      Effect.travelAll (.finite (u - (min maxPasses ⌊u / q⌋₊ : ℕ) * q))
        (Nat.repeat (fun here => Effect.travelAll (.finite q) here body)
          (min maxPasses ⌊u / q⌋₊) here) body := by
  have hquotient : Exact.finite u / Exact.finite q = .finite (u / q) := Exact.finite_div u hq.ne'
  rw [Effect.travel, ht]
  dsimp only
  rw [hquotient]
  rfl

mutual

theorem Effect.travel_contracts
    (hwaves : ∀ (shape : Wave) (q : ℚ), ∃ r : ℚ, shape.height (.finite q) = Exact.finite r)
    (time : ℚ) : ∀ e : Effect Exact, (∀ part ∈ e.parts, part.Sound) →
      Contracts (∀ part ∈ e.parts, part.isMove = false) fun here =>
        Effect.travel (.finite time) here e
  | .motion w m, h => by
    obtain ⟨hw, hm⟩ := h _ (List.mem_singleton_self _)
    unfold Effect.travel
    cases ht : w.localTime (.finite time) with
    | none => exact contracts_id
    | some t =>
      obtain ⟨u, rfl, hu⟩ := localTime_cases hw ht
      exact (displace_contracts hwaves hw hm hu).mono fun h => h _ (List.mem_singleton_self _)
  | .shoot .., _ => contracts_id
  | .loop w body period, h => by
    obtain ⟨⟨hw, hperiod⟩, hbody⟩ := List.forall_mem_cons.1 h
    -- every pass contracts, whatever it has of the time
    have hpart : ∀ time : ℚ, Contracts (∀ part ∈ (Effect.loop w body period).parts,
        part.isMove = false) fun here => Effect.travelAll (.finite time) here body := fun time =>
      (Effect.travelAll_contracts hwaves time body hbody).mono fun h => (List.forall_mem_cons.1 h).2
    cases ht : w.localTime (.finite time) with
    | none =>
      simp only [Effect.travel, ht]
      exact contracts_id
    | some t =>
      obtain ⟨u, rfl, -⟩ := localTime_cases hw ht
      rcases hperiod with rfl | ⟨q, hq, rfl⟩
      · simp only [Effect.travel, ht]
        exact hpart u
      · simp only [travel_loop ht hq]
        exact (hpart _).comp (contracts_repeat (hpart q) _)

theorem Effect.travelAll_contracts
    (hwaves : ∀ (shape : Wave) (q : ℚ), ∃ r : ℚ, shape.height (.finite q) = Exact.finite r)
    (time : ℚ) : ∀ effects : List (Effect Exact), SoundAll effects →
      Contracts (Moveless effects) fun here => Effect.travelAll (.finite time) here effects
  | [], _ => contracts_id
  | e :: rest, h => by
    obtain ⟨he, hrest⟩ := List.forall_mem_append.1 h
    have hfirst := Effect.travel_contracts hwaves time e he
    have hthen := Effect.travelAll_contracts hwaves time rest hrest
    exact (hthen.mono fun h => (moveless_cons.1 h).2).comp
      (hfirst.mono fun h => (moveless_cons.1 h).1)

end

/-! ## Displacements -/

/-- How far an effect takes an actor by itself. -/
def Effect.displacement (time : Exact) (e : Effect Exact) : ℚ × ℚ :=
  coordinates (Effect.apply true time ⟨Vec.zero, #[], []⟩ e).position

def Effect.displacementAll (time : Exact) (effects : List (Effect Exact)) : ℚ × ℚ :=
  coordinates (Effect.applyAll true time ⟨Vec.zero, #[], []⟩ effects).position

theorem displacement_eq (time : Exact) (e : Effect Exact) :
    e.displacement time = coordinates (Effect.travel time (point 0) e) := by
  rw [Effect.displacement, Effect.apply_position, Exact.point_zero]

theorem displacementAll_eq (time : Exact) (effects : List (Effect Exact)) :
    Effect.displacementAll time effects = coordinates
      (Effect.travelAll time (point 0) effects) := by
  rw [Effect.displacementAll, Effect.applyAll_position, Exact.point_zero]

variable (hwaves : ∀ (shape : Wave) (q : ℚ), ∃ r : ℚ, shape.height (.finite q) = Exact.finite r)
include hwaves

theorem travelAll_shifts (time : ℚ) {effects : List (Effect Exact)} (hsound : SoundAll effects)
    (hstill : Moveless effects) :
    Shifts (fun here => Effect.travelAll (.finite time) here effects)
      (Effect.displacementAll (.finite time) effects) := by
  rw [displacementAll_eq]
  exact (Effect.travelAll_contracts hwaves time effects hsound).shifts hstill

theorem travel_shifts (time : ℚ) {e : Effect Exact} (hsound : ∀ part ∈ e.parts, part.Sound)
    (hstill : ∀ part ∈ e.parts, part.isMove = false) :
    Shifts (fun here => Effect.travel (.finite time) here e) (e.displacement (.finite time)) := by
  rw [displacement_eq]
  exact (Effect.travel_contracts hwaves time e hsound).shifts hstill

theorem travelAll_sum (time : ℚ) {effects : List (Effect Exact)} (hsound : SoundAll effects)
    (hstill : Moveless effects) :
    Shifts (fun here => Effect.travelAll (.finite time) here effects)
      (effects.map (Effect.displacement (.finite time))).sum := by
  induction effects with
  | nil =>
    intro v
    simp [Effect.travelAll]
  | cons e rest ih =>
    obtain ⟨he, hrest⟩ := List.forall_mem_append.1 hsound
    obtain ⟨he', hrest'⟩ := moveless_cons.1 hstill
    rw [List.map_cons, List.sum_cons]
    exact (ih hrest hrest').comp (travel_shifts hwaves time he he')

theorem loop_displacement {w : Window Exact} {body : List (Effect Exact)} {time : Exact} {u q : ℚ}
    (hsound : SoundAll body) (hstill : Moveless body) (ht : w.localTime time = some (.finite u))
    (hq : 0 < q) (hpasses : ⌊u / q⌋₊ ≤ maxPasses) :
    (Effect.loop w body (.finite q)).displacement time =
      ⌊u / q⌋₊ • Effect.displacementAll (.finite q) body +
        Effect.displacementAll (.finite (u - ⌊u / q⌋₊ * q)) body := by
  have hpass := shifts_repeat (travelAll_shifts hwaves q hsound hstill) ⌊u / q⌋₊
  have hrest := travelAll_shifts hwaves (u - ⌊u / q⌋₊ * q) hsound hstill
  rw [displacement_eq, travel_loop ht hq, Nat.min_eq_right hpasses]
  have hloop := (hrest.comp hpass) 0
  simp only [zero_add] at hloop
  exact congrArg coordinates hloop

end

/-! ## The main statement -/

/-- In exact numbers, a stage shrinks the plane of spawn points by one factor and shifts it, and
only motions to a point shrink it. Two actors in the same stage of one program, at the same time,
are no farther apart than they were spawned. Without motions to a point, each effect adds its own
displacement, so their order is no matter, and a loop adds that of its body once for every whole
period and once more for the rest of the time. -/
theorem positions_are_affine_in_spawn_point [Elementary Exact] {tokens : List (Token Exact)}
    {program : Program Exact} {tempo : ℚ} {world : ℚ × ℚ} {w w' : Words}
    (hwaves : ∀ (shape : Wave) (q : ℚ), ∃ r : ℚ, shape.height (.finite q) = Exact.finite r)
    (htokens : ∀ t ∈ tokens, t.Rational)
    (hcompile : compile ⟨.finite tempo, point world⟩ tokens w = .ok (program, w')) (stage : ℕ)
    (time : ℚ) :
    (∃ (a : ℚ) (b : ℚ × ℚ), 0 ≤ a ∧ a ≤ 1 ∧ (Moveless (program.effects stage) → a = 1) ∧
      ∀ v, program.position stage (point v) (.finite time) = point (a • v + b)) ∧
    (∀ u v, (program.position stage (point u) (.finite time) -
        program.position stage (point v) (.finite time)).lengthSquared ≤
          (point u - point v).lengthSquared) ∧
    (Moveless (program.effects stage) →
      (∀ v, program.position stage (point v) (.finite time) =
        point (v + ((program.effects stage).map (Effect.displacement (.finite time))).sum)) ∧
      (∀ e ∈ Effect.partsAll (program.effects stage), ∀ live (t : ℚ) v latches announced,
        (Effect.apply live (.finite t) ⟨point v, latches, announced⟩ e).position =
          point (v + e.displacement (.finite t))) ∧
      (∀ (other : Program Exact) (stage' : ℕ), (other.effects stage').Perm (program.effects stage) →
        ∀ v, other.position stage' (point v) (.finite time) =
          program.position stage (point v) (.finite time)) ∧
      ∀ window body (q : ℚ), Effect.loop window body (.finite q) ∈
        Effect.partsAll (program.effects stage) →
        ∀ t u, window.localTime t = some (.finite u) → ⌊u / q⌋₊ ≤ maxPasses →
          (Effect.loop window body (.finite q)).displacement t =
            ⌊u / q⌋₊ • Effect.displacementAll (.finite q) body +
              Effect.displacementAll (.finite (u - ⌊u / q⌋₊ * q)) body) := by
  have hsound : SoundAll (program.effects stage) :=
    effects_sound (compile_sound htokens hcompile) stage
  obtain ⟨a, b, ha, ha', hsteady, htravel⟩ :=
    Effect.travelAll_contracts hwaves time (program.effects stage) hsound
  have hposition : ∀ v,
      program.position stage (point v) (.finite time) = point (a • v + b) := fun v =>
    (program.position_eq ..).trans (htravel v)
  refine ⟨⟨a, b, ha, ha', hsteady, hposition⟩, ?_, fun hstill => ⟨?_, ?_, ?_, ?_⟩⟩
  · intro u v
    -- what lies between two actors has shrunk by the factor
    have hshrunk : a • u + b - (a • v + b) = a • (u - v) := by module
    rw [hposition, hposition, Exact.point_sub, Exact.point_sub, hshrunk]
    exact lengthSquared_smul_le ha ha' (u - v)
  · intro v
    rw [Program.position_eq]
    exact travelAll_sum hwaves time hsound hstill v
  · intro e he live t v latches announced
    have hparts := Effect.parts_partsAll he
    rw [Effect.apply_position]
    exact travel_shifts hwaves t (fun e he => hsound e (hparts he))
      (fun e he => hstill e (hparts he)) v
  · intro other stage' hperm v
    have hparts :
        Effect.partsAll (other.effects stage') ⊆ Effect.partsAll (program.effects stage) := by
      rw [Effect.partsAll_eq, Effect.partsAll_eq]
      exact (hperm.flatMap_right _).subset
    have hother := travelAll_sum hwaves time (fun e he => hsound e (hparts he))
      (fun e he => hstill e (hparts he)) v
    rw [(hperm.map _).sum_eq, ← travelAll_sum hwaves time hsound hstill v] at hother
    rw [Program.position_eq, Program.position_eq]
    exact hother
  · intro window body q hloop t u ht hpasses
    obtain ⟨-, hnever | ⟨q', hq, hq'⟩⟩ := hsound _ hloop
    · cases hnever
    · obtain rfl := Exact.finite.inj hq'
      have hbody : Effect.partsAll body ⊆ Effect.partsAll (program.effects stage) := fun e he =>
        Effect.parts_partsAll hloop (List.mem_cons_of_mem _ he)
      exact loop_displacement hwaves (fun e he => hsound e (hbody he))
        (fun e he => hstill e (hbody he)) ht hq hpasses

section

local instance level : Elementary Exact := still

/-- Two seconds to the middle of the world, and behind that a loop to the left that rises all the
time. -/
def swarm : List (Token Exact) :=
  [.wave .cosine .top (.literal 0) (.literal 0) (.literal 10), .lasting (.literal 2),
    .move (.literal (.finite (1 / 2))) (.literal (.finite (1 / 2))), .stage "Gem", .opening,
    .linear .left (.literal 20), .lasting (.literal 3), .closing, .linear .top (.literal 5)]

def swarmProgram : Program Exact :=
  ⟨[⟨[.motion Window.whole (.wave .cosine .top 0 0 10), .motion ⟨0, 2, false⟩ (.move ⟨160, 90⟩ 2)],
    some 'G'⟩, ⟨[.loop Window.whole [.motion Window.whole (.linear .left 20)] (.finite 3),
      .motion Window.whole (.linear .top 5)], none⟩], false, 0⟩

def swarmMarks : List (Mark Exact) :=
  [.clause (.motion (.wave .cosine .top 0 0 10)), .clause (.lasting 2),
    .clause (.move ⟨.finite (1 / 2) * .finite 320, .finite (1 / 2) * .finite 180⟩),
    .stage (some 'G'), .opening, .clause (.motion (.linear .left 20)), .clause (.lasting 3),
    .closing, .clause (.motion (.linear .top 5))]

theorem compile_swarm :
    compile ⟨.finite 120, point (320, 180)⟩ swarm (Words.cycle #[]) =
      .ok (swarmProgram, Words.cycle #[]) := by
  have hdraft : compile ⟨.finite 120, point (320, 180)⟩ swarm (Words.cycle #[]) =
      .ok ((swarmMarks.foldl Draft.place Draft.blank).program, Words.cycle #[]) := rfl
  rw [hdraft]
  simp [swarmMarks, Draft.blank, Draft.place, Draft.openBlock, Draft.add, Draft.last,
    Draft.closeBlock, Draft.closeStage, Draft.program, swarmProgram, Window.whole,
    Window.loopPeriod]
  norm_num

theorem swarm_keeps_together :
    (∀ (shape : Wave) (q : ℚ), ∃ r : ℚ, shape.height (.finite q) = Exact.finite r) ∧
    (∀ t ∈ swarm, t.Rational) ∧
    (swarmProgram.position 0 (point (10, 20)) (.finite 1) -
      swarmProgram.position 0 (point (50, 20)) (.finite 1)).lengthSquared ≤ .finite 1600 ∧
    Moveless (swarmProgram.effects 1) ∧ ⌊(7 / 3 : ℚ)⌋₊ ≤ maxPasses ∧
    swarmProgram.position 1 (point (10, 20)) (.finite 7) = point (-130, 55) := by
  have hwaves : ∀ (shape : Wave) (q : ℚ), ∃ r : ℚ, shape.height (.finite q) = Exact.finite r := by
    intro shape q
    cases shape with
    | sine => exact ⟨0, rfl⟩
    | cosine => exact ⟨1, rfl⟩
  have htokens : ∀ t ∈ swarm, t.Rational := by
    simp [swarm, Token.Rational, Token.numbers, Number.Rational, Number.isRational, Exact.isFinite]
  have hstill : Moveless (swarmProgram.effects 1) := by
    simp [Moveless, Program.effects, swarmProgram, Effect.partsAll, Effect.parts, Effect.isMove]
  have hpasses : ⌊(7 / 3 : ℚ)⌋₊ = 2 := by decide +kernel
  have hmax : ⌊(7 / 3 : ℚ)⌋₊ ≤ maxPasses := by
    rw [hpasses]
    decide
  refine ⟨hwaves, htokens, ?_, hstill, hmax, ?_⟩
  · obtain ⟨-, htogether, -⟩ := positions_are_affine_in_spawn_point hwaves htokens compile_swarm 0 1
    refine (htogether (10, 20) (50, 20)).trans_eq ?_
    decide +kernel
  · obtain ⟨-, -, hadd⟩ := positions_are_affine_in_spawn_point hwaves htokens compile_swarm 1 7
    obtain ⟨hsum, -, -, hloop⟩ := hadd hstill
    have hleft := hloop Window.whole [.motion Window.whole (.linear .left 20)] 3
      (by simp [Program.effects, swarmProgram, Effect.partsAll, Effect.parts])
      (.finite 7) 7 (by decide +kernel) hmax
    rw [hpasses] at hleft
    have hpass : Effect.displacementAll (.finite 3) [.motion Window.whole (.linear .left 20)] =
        (-60, 0) := by
      decide +kernel
    have hrest : Effect.displacementAll (.finite (7 - (2 : ℕ) * 3))
        [.motion Window.whole (.linear .left 20)] = (-20, 0) := by
      decide +kernel
    have hup :
        (Effect.motion Window.whole (.linear .top 5)).displacement (.finite 7) = (0, 35) := by
      decide +kernel
    have heffects : swarmProgram.effects 1 =
      [.loop Window.whole [.motion Window.whole (.linear .left 20)] (.finite 3),
      .motion Window.whole (.linear .top 5)] := rfl
    rw [hsum, heffects, List.map_cons, List.map_cons, List.map_nil, hleft, hup, hpass, hrest]
    congr 1
    decide +kernel

end

end Trajectory

end Barrage
