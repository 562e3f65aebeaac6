import Barrage.Proofs.Game.Patterns
import Barrage.Proofs.Pattern.Spread

/-! # Bursts in a game

The trigger of an enemy has run with the pattern of the enemy since it was made: it is made with the
pattern, and a change of the pattern brings another. So bursts and slots stay aligned whatever is
published and however time is cut into steps. -/

namespace Barrage

open Pattern (Packed Volley)
open Scheduler (life record Round)

namespace Arena

variable {α : Type} [Scalar α]

def Gear.Runs (x : Gear α) : Prop :=
  ∃ dts, x.trigger = (life x.pattern.rhythm (some x.pattern.initialDelay) #[] dts).1

theorem runs_fresh {x : Gear α} (h : x.trigger = x.pattern.trigger) : x.Runs := ⟨[], h⟩

theorem life_snoc (v : Volley α) (dts : List α) (dt : α) :
    (life v.rhythm (some v.initialDelay) #[] (dts ++ [dt])).1 =
      ((life v.rhythm (some v.initialDelay) #[] dts).1.update v.rhythm #[] dt).1 := by
  have hsame := Scheduler.update_mirrors (Pattern.rhythm_mirrors v
    (life v.rhythm (some v.initialDelay) #[] dts).2)
    (life v.rhythm (some v.initialDelay) #[] dts).1 #[] dt
  rw [Array.append_empty] at hsame
  rw [Scheduler.life_append, List.foldl_cons, List.foldl_nil, hsame]

theorem receive_runs {a : Arena α} (h : ∀ e ∈ a.enemies, e.gear.Runs) (event : Level.Event α) :
    ∀ e ∈ (a.receive event).enemies, e.gear.Runs := by
  cases event with
  | spawn request =>
    intro e he
    rcases List.mem_append.1 he with he | he
    · exact h e he
    · rw [List.mem_singleton.1 he]
      exact runs_fresh rfl
  | _ => exact h

theorem receiveAll_runs {a : Arena α} (h : ∀ e ∈ a.enemies, e.gear.Runs)
    (events : List (Level.Event α)) : ∀ e ∈ (events.foldl receive a).enemies, e.gear.Runs := by
  induction events generalizing a with
  | nil => exact h
  | cons event rest ih => exact ih (receive_runs h event)

variable [Elementary α] {e : Enemy α}

/-- The trigger that an enemy fires with in a step: the one it has, or a fresh one for another
pattern. -/
theorem armed_runs (h : e.gear.Runs) (world : Vec α) (tempo dt : α) :
    ∃ dts, (e.armed world tempo dt).trigger =
        (life (e.armed world tempo dt).pattern.rhythm
          (some (e.armed world tempo dt).pattern.initialDelay) #[] dts).1 ∧
      ((e.armed world tempo dt).pattern.packed ≠ e.pattern.packed → dts = []) := by
  obtain ⟨dts, hdts⟩ := h
  unfold Enemy.armed Enemy.rearm
  split
  · exact ⟨dts, hdts, fun hchanged => absurd rfl hchanged⟩
  · split
    · exact ⟨dts, hdts, fun hchanged => absurd rfl hchanged⟩
    · exact ⟨[], rfl, fun _ => rfl⟩

theorem moved_runs (h : e.gear.Runs) (world : Vec α) (tempo dt : α) :
    (e.moved world tempo dt).gear.Runs := by
  obtain ⟨dts, hdts, -⟩ := armed_runs h world tempo dt
  refine ⟨dts ++ [dt], ?_⟩
  rw [life_snoc]
  change ((e.armed world tempo dt).trigger.update (e.armed world tempo dt).pattern.rhythm
    #[] dt).1 = _
  rw [hdts]
  rfl

/-! ## Slots -/

/-- A shot that an enemy fires toward a target, from the slot that its index comes to. -/
def Enemy.Sends (e : Enemy α) (target : Vec α) (index : ℕ) (s : Shot α) : Prop :=
  ∃ p, s = Shot.ofProjectile p ∧ e.pattern.Sends e.emitter target
    (e.pattern.spreadOffset (index % e.pattern.shots)) p

theorem sends_of_draws {target : Vec α} {fired : List (Firing α)}
    {results : List (Option (Pattern.Projectile α))}
    (h : List.Forall₂ (fun firing result => ∃ p, result = some p ∧
      e.pattern.Sends e.emitter target (e.pattern.spreadOffset (firing.count - 1)) p)
        fired results) :
    List.Forall₂ (e.Sends target) (fired.map fun firing => firing.count - 1)
      ((results.filterMap fun result => result).map Shot.ofProjectile) := by
  induction h with
  | nil => exact .nil
  | cons hfirst _ ih =>
    obtain ⟨p, rfl, hsends⟩ := hfirst
    rw [← Pattern.spreadOffset_mod] at hsends
    exact .cons ⟨p, rfl, hsends⟩ ih

/-- In a step, an enemy fires the shots that its trigger has come to. -/
theorem step_eq (e : Enemy α) (world target : Vec α) (tempo dt : α) :
    e.step world target tempo dt = (do
      let results ← ((e.armed world tempo dt).trigger.update
        (e.armed world tempo dt).pattern.rhythm #[] dt).2.toList.mapM fun firing =>
          (e.armed world tempo dt).pattern.shoot (e.armed world tempo dt).emitter target
            (firing.count - 1)
      return (e.moved world tempo dt,
        (results.filterMap fun result => result).map Shot.ofProjectile)) := rfl

theorem step_sends {world : Vec α} {tempo dt : α}
    (hfires : 0 < (e.armed world tempo dt).pattern.shots) (target : Vec α) (w : Words) :
    ∃ shots w', e.step world target tempo dt w = .ok ((e.moved world tempo dt, shots), w') ∧
      List.Forall₂ ((e.armed world tempo dt).Sends target)
        (List.range' (e.armed world tempo dt).trigger.count
          ((e.moved world tempo dt).trigger.count - (e.armed world tempo dt).trigger.count))
        shots := by
  have hindices := (Pattern.indices_update (e.armed world tempo dt).pattern
    (e.armed world tempo dt).trigger dt).2
  have hshoots : ∀ (firing : Firing α) (w : Words), ∃ result w',
      (e.armed world tempo dt).pattern.shoot (e.armed world tempo dt).emitter target
        (firing.count - 1) w = .ok (result, w') ∧
      ∃ p, result = some p ∧ (e.armed world tempo dt).pattern.Sends (e.armed world tempo dt).emitter
        target ((e.armed world tempo dt).pattern.spreadOffset (firing.count - 1)) p := by
    intro firing w
    obtain ⟨p, w', hshot, hsends⟩ := Pattern.shoot_sends hfires (e.armed world tempo dt).emitter
      target (firing.count - 1) w
    exact ⟨some p, w', hshot, p, rfl, hsends⟩
  obtain ⟨results, w', hdraws, hpairs⟩ :=
    exists_draws hshoots ((e.armed world tempo dt).trigger.update
      (e.armed world tempo dt).pattern.rhythm #[] dt).2.toList w
  refine ⟨_, w', ?_, hindices ▸ sends_of_draws hpairs⟩
  rw [step_eq, bind_of_draws hdraws]
  rfl

end Arena

namespace Game

open Arena (Enemy)

variable {α : Type} [Scalar α] [Elementary α] {g g' : Game α} {seen observed : List (Observation α)}
  {actions : List (Action α)}

theorem runs_run (h : ∀ e ∈ g.arena.enemies, e.gear.Runs)
    (hrun : g.run actions = .ok (g', observed)) : ∀ e ∈ g'.arena.enemies, e.gear.Runs := by
  refine @run_induction α _ _ (fun g _ => ∀ e ∈ g.arena.enemies, e.gear.Runs) ?_ ?_ ?_ g g'
    [] observed actions h hrun
  · intro g seen dt frame h _
    exact Arena.receiveAll_runs h frame.events
  · intro g seen dt turn words h hturn
    rw [report, release_eq]
    rcases Arena.step_cases hturn with ⟨-, rfl⟩ | ⟨⟨hdt, hplays⟩, -⟩
    · exact h
    · intro e' he'
      have hmem := (Arena.step_gears hturn hdt hplays).subset
        (List.mem_map_of_mem (List.mem_append_left _ he'))
      obtain ⟨e, he, hgear⟩ := List.mem_map.1 hmem
      rw [← hgear]
      exact Arena.moved_runs (h e he) g.arena.world g.arena.tempo dt
  · intro g seen position shots h
    exact h

/-- A trigger is asked for delays as its bursts go through their slots: its shots are whole bursts
and a part of one, each with the slots in order, and the delay behind a shot is the gap if it is the
last of its burst. A run may be cut into updates anywhere, also within a burst; the next update goes
on with the next index, and with the delay that is pending. A shot leaves with the offset of its
slot. In exact arithmetic the slots of a burst divide its arc evenly, opposite slots lie opposite
each other, and none lies behind. In a game, the trigger of an enemy has run with the pattern of the
enemy since it was made, another pattern starts afresh, and the shots of a step leave from the slots
that are next. -/
theorem bursts_go_through_their_slots (v : Volley α) (hfires : 0 < v.shots) (dts : List α) :
    (∃ rounds : List (Round α),
      record v.rhythm (some v.initialDelay) #[] dts = rounds.flatMap Round.calls ∧
      rounds.length = (life v.rhythm (some v.initialDelay) #[] dts).1.count ∧
      rounds.map (fun x => (v.slot x, x.delay)) =
        (List.replicate (rounds.length / v.shots) v.burst).flatten ++
          v.burst.take (rounds.length % v.shots) ∧
      ∀ i x, rounds[i]? = some x → x.firing.count - 1 = i ∧ v.slot x = i % v.shots ∧
        x.delay = if v.shots ∣ i + 1 then v.burstGap else v.burstSpacing) ∧
    (∀ s, s = (life v.rhythm (some v.initialDelay) #[] dts).1 →
      (0 < s.count → s.delay = if v.shots ∣ s.count then v.burstGap else v.burstSpacing) ∧
      ∀ dt, s.count ≤ (s.update v.rhythm #[] dt).1.count ∧
        (s.update v.rhythm #[] dt).1 = (life v.rhythm (some v.initialDelay) #[] (dts ++ [dt])).1 ∧
        (s.update v.rhythm #[] dt).2.toList.map (fun firing => firing.count - 1) =
          List.range' s.count ((s.update v.rhythm #[] dt).1.count - s.count)) ∧
    (∀ emitter target i, v.shoot emitter target i = v.shoot emitter target (i % v.shots)) ∧
    (∀ emitter target i w, ∃ p w', v.shoot emitter target i w = .ok (some p, w') ∧
      v.Sends emitter target (v.spreadOffset (i % v.shots)) p) ∧
    (∀ (packed : Packed) (width tempo : Exact) (n : ℕ),
      n = (Volley.decode packed width tempo).shots → 0 < n →
      ∃ (arc : ℚ) (offset : ℕ → ℚ),
        arc = 360 * ((Pattern.Fields.unpack packed).digit .spread).val / 9 ∧
        (∀ i, (Volley.decode packed width tempo).spreadOffset i = .finite (offset (i % n))) ∧
        (∀ slot, offset (slot + 1) - offset slot = arc / n) ∧
        ∀ slot < n, offset (n - 1 - slot) = -offset slot ∧ -180 < offset slot ∧ offset slot < 180) ∧
    ∀ (script : List (Script.Instruction α)) (world : Vec α) (tempo grace : α)
      (levelWords arenaWords : Words) (actions : List (Action α)) (g : Game α)
      (seen : List (Observation α)),
      (start script world tempo grace levelWords arenaWords).run actions = .ok (g, seen) →
      ∀ e ∈ g.arena.enemies, ∀ dt e', e' = e.armed g.arena.world g.arena.tempo dt →
        (∃ dts, e'.trigger = (life e'.pattern.rhythm (some e'.pattern.initialDelay) #[] dts).1 ∧
          (e'.pattern.packed ≠ e.pattern.packed → dts = [])) ∧
        (0 < e'.pattern.shots → ∀ target w, ∃ later shots w',
          e.step g.arena.world target g.arena.tempo dt w = .ok ((later, shots), w') ∧
          later.trigger = (e'.trigger.update e'.pattern.rhythm #[] dt).1 ∧
          List.Forall₂ (e'.Sends target)
            (List.range' e'.trigger.count (later.trigger.count - e'.trigger.count)) shots) := by
  obtain ⟨rounds, h⟩ := Pattern.volleys v dts
  refine ⟨⟨rounds, h.inTurn.calls_eq, h.inTurn.length_eq, ?_, ?_⟩, ?_,
    Pattern.shoot_mod v, ?_, ?_, ?_⟩
  · rw [h.inTurn.length_eq]
    exact h.bursts hfires
  · intro i x hx
    obtain ⟨hindex, hdelay⟩ := h.round hfires hx
    exact ⟨hindex, congrArg (· % v.shots) hindex, hdelay⟩
  · rintro s rfl
    refine ⟨fun hsome => ?_, fun dt => ⟨(Pattern.indices_update v _ dt).1,
      (Arena.life_snoc v dts dt).symm, (Pattern.indices_update v _ dt).2⟩⟩
    obtain ⟨index, hindex⟩ := Nat.exists_eq_succ_of_ne_zero hsome.ne'
    rw [h.pending hsome, hindex]
    exact Pattern.nextDelay_succ hfires index
  · intro emitter target i w
    rw [Pattern.spreadOffset_mod]
    exact Pattern.shoot_sends hfires emitter target i w
  · rintro packed width tempo n rfl hsome
    refine ⟨_, Pattern.offsetOf _ (Pattern.arcOf packed), rfl,
      Pattern.spreadOffset_eq packed width tempo hsome, Pattern.offsetOf_succ _ _,
      fun slot hslot => ⟨Pattern.offsetOf_opposite _ hslot, ?_, ?_⟩⟩
    · exact Pattern.neg_lt_offsetOf (Pattern.arcOf_nonneg packed) (Pattern.arcOf_le packed) hslot
    · exact Pattern.offsetOf_lt (Pattern.arcOf_nonneg packed) (Pattern.arcOf_le packed) hslot
  · rintro script world tempo grace levelWords arenaWords actions g seen hrun e he dt e' rfl
    have hruns := runs_run (List.forall_mem_nil _) hrun
    refine ⟨Arena.armed_runs (hruns e he) g.arena.world g.arena.tempo dt,
      fun hshoots target w => ?_⟩
    obtain ⟨shots, w', hstep, hsends⟩ := Arena.step_sends hshoots target w
    exact ⟨_, shots, w', hstep, rfl, hsends⟩

def threeWay : Volley Float32 := .decode ⟨9110592943⟩ 320 120

theorem third_burst_begins_with_the_first_slot :
    0 < threeWay.shots ∧
    (∃ rounds : List (Round Float32),
      record threeWay.rhythm (some threeWay.initialDelay) #[] [0.25, 0.4, 0.5, 0.5, 2] =
        rounds.flatMap Round.calls ∧
      rounds.map (fun x => (threeWay.slot x, x.delay)) =
        [(0, threeWay.burstSpacing), (1, threeWay.burstSpacing), (2, threeWay.burstGap),
          (0, threeWay.burstSpacing), (1, threeWay.burstSpacing), (2, threeWay.burstGap),
          (0, threeWay.burstSpacing)]) ∧
    ∃ p w', threeWay.shoot ⟨0, ⟨160, 90⟩, ⟨160, 90⟩, 16⟩ ⟨48, 90⟩ 6 (Words.cycle #[]) =
        .ok (some p, w') ∧
      threeWay.Sends ⟨0, ⟨160, 90⟩, ⟨160, 90⟩, 16⟩ ⟨48, 90⟩ (-120) p := by
  have hfires : 0 < threeWay.shots := by decide +kernel
  have hcount : (life threeWay.rhythm (some threeWay.initialDelay) #[]
      [0.25, 0.4, 0.5, 0.5, 2]).1.count =
      7 := by
    decide +kernel
  have hoffset : threeWay.spreadOffset (6 % threeWay.shots) = -120 := by decide +kernel
  obtain ⟨⟨rounds, hrecord, hlength, hbursts, -⟩, -, -, hsends, -⟩ :=
    bursts_go_through_their_slots threeWay hfires [0.25, 0.4, 0.5, 0.5, 2]
  rw [hlength, hcount] at hbursts
  refine ⟨hfires, ⟨rounds, hrecord, ?_⟩, ?_⟩
  · rw [hbursts]
    decide +kernel
  · rw [← hoffset]
    exact hsends _ _ 6 _

end Game

end Barrage
