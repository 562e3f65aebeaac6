import Barrage.Proofs.Pattern.Course
import Barrage.Proofs.Scheduler.Discipline
import Barrage.Proofs.Worth

/-! # Bursts and slots

The generator of a trigger is asked with the numbers of its shots, counted from one, and shots are
aimed by their indices, counted from zero. Both go around with the shots of a burst, and so a burst
begins with the first slot of the spread and ends with the last one, whose delay is the gap. The
slots lie evenly around the heading of the burst. -/

namespace Barrage.Pattern

open Scheduler (life record Round InTurn)

section Bursts

variable {α : Type} [Scalar α] {v : Volley α}

/-- The shots of a burst: the slot of each, and the delay behind it. -/
def Volley.burst (v : Volley α) : List (ℕ × α) :=
  (List.range v.shots).map fun slot => (slot, if slot + 1 = v.shots then v.burstGap else
    v.burstSpacing)

def Volley.delayBehind (v : Volley α) (index : ℕ) : α :=
  if v.shots ∣ index + 1 then v.burstGap else v.burstSpacing

omit [Scalar α] in
/-- A round of a trigger shoots from a slot. -/
def Volley.slot (v : Volley α) (x : Round α) : ℕ := (x.firing.count - 1) % v.shots

theorem nextDelay_succ (hfires : 0 < v.shots) (index : ℕ) :
    v.nextDelay (index + 1) = v.delayBehind index := by
  rw [Volley.nextDelay, if_neg hfires.ne', Volley.delayBehind]
  simp only [Nat.dvd_iff_mod_eq_zero]

theorem dvd_succ_iff {n : ℕ} (hn : 0 < n) (index : ℕ) : n ∣ index + 1 ↔ index % n + 1 = n := by
  have hlt := Nat.mod_lt index hn
  have hdvd : n ∣ index + 1 ↔ n ∣ index % n + 1 := by
    conv_lhs => rw [← Nat.div_add_mod index n, Nat.add_assoc]
    exact Nat.dvd_add_right (Nat.dvd_mul_right n _)
  rw [hdvd]
  constructor
  · intro h
    exact le_antisymm hlt (Nat.le_of_dvd (Nat.succ_pos _) h)
  · intro h
    rw [h]

/-- What goes around with the remainder comes in whole cycles and a part of one. -/
theorem map_range_mod {β : Type} (f : ℕ → β) (n q r : ℕ) (hr : r < n) :
    (List.range (n * q + r)).map (fun i => f (i % n)) =
      (List.replicate q ((List.range n).map f)).flatten ++ ((List.range n).map f).take r := by
  induction q with
  | zero =>
    rw [Nat.mul_zero, Nat.zero_add, List.replicate_zero, List.flatten_nil, List.nil_append,
      ← List.map_take, List.take_range, min_eq_left hr.le]
    refine List.map_congr_left fun i hi => ?_
    rw [Nat.mod_eq_of_lt ((List.mem_range.1 hi).trans hr)]
  | succ q ih =>
    have hfirst : (List.range n).map (fun i => f (i % n)) = (List.range n).map f := by
      refine List.map_congr_left fun i hi => ?_
      rw [Nat.mod_eq_of_lt (List.mem_range.1 hi)]
    have hlater : (List.map (n + ·) (List.range (n * q + r))).map (fun i => f (i % n)) =
        (List.range (n * q + r)).map fun i => f (i % n) := by
      rw [List.map_map]
      exact List.map_congr_left fun i _ => by simp
    rw [Nat.mul_succ, Nat.add_comm (n * q), Nat.add_assoc, List.range_add, List.map_append,
      hfirst, hlater, ih, List.replicate_succ, List.flatten_cons, List.append_assoc]

theorem range_bursts (hfires : 0 < v.shots) (count : ℕ) :
    (List.range count).map (fun i => (i % v.shots, v.delayBehind i)) =
      (List.replicate (count / v.shots) v.burst).flatten ++ v.burst.take (count % v.shots) := by
  have hcycle := map_range_mod (fun slot => (slot, if slot + 1 = v.shots then v.burstGap else
    v.burstSpacing)) v.shots (count / v.shots) (count % v.shots) (Nat.mod_lt count hfires)
  rw [Nat.div_add_mod] at hcycle
  refine Eq.trans ?_ hcycle
  refine List.map_congr_left fun i _ => ?_
  simp only [Volley.delayBehind, dvd_succ_iff hfires]

/-! ## Rounds of a trigger -/

structure Volleys (v : Volley α) (calls : List (Scheduler.Entry α)) (s : Scheduler α)
    (rounds : List (Round α)) : Prop where
  inTurn : InTurn (some v.initialDelay) [] calls s rounds
  delay_eq : ∀ x ∈ rounds, x.delay = v.nextDelay x.firing.count
  pending : 0 < s.count → s.delay = v.nextDelay s.count

theorem volleys (v : Volley α) (dts : List α) :
    ∃ rounds, Volleys v (record v.rhythm (some v.initialDelay) #[] dts)
      (life v.rhythm (some v.initialDelay) #[] dts).1 rounds := by
  refine Scheduler.record_induction (P := fun s calls => ∃ rounds, Volleys v calls s rounds) ?_ ?_
    ?_
  · refine ⟨[], Scheduler.inTurn_start v.rhythm (some v.initialDelay) #[], by simp, fun hsome => ?_⟩
    exact absurd hsome (lt_irrefl 0)
  · rintro s calls dt - - ⟨rounds, h⟩
    exact ⟨rounds, h.inTurn.await dt, h.delay_eq, h.pending⟩
  · rintro s calls x - hruns hx ⟨fired, hdelay⟩ ⟨rounds, h⟩
    refine ⟨rounds ++ [x], Scheduler.inTurn_fire h.inTurn hruns hx, fun y hy => ?_, fun _ => hdelay⟩
    rcases List.mem_append.1 hy with hy | hy
    · exact h.delay_eq y hy
    · rw [List.mem_singleton.1 hy]
      exact hdelay

variable {calls : List (Scheduler.Entry α)} {s : Scheduler α} {rounds : List (Round α)}

theorem Volleys.round (h : Volleys v calls s rounds) (hfires : 0 < v.shots) {i : ℕ} {x : Round α}
    (hx : rounds[i]? = some x) : x.firing.count - 1 = i ∧ x.delay = v.delayBehind i := by
  have hcount : x.firing.count = i + 1 := by
    have hcounts := congrArg (·[i]?) h.inTurn.counts
    have hlt : i < s.count := by
      rw [← h.inTurn.length_eq]
      exact (List.getElem?_eq_some_iff.1 hx).1
    simpa [hx, List.getElem?_range', hlt, Nat.add_comm] using hcounts
  refine ⟨by rw [hcount, Nat.add_sub_cancel], ?_⟩
  rw [h.delay_eq x (List.mem_of_getElem? hx), hcount, nextDelay_succ hfires]

theorem Volleys.bursts (h : Volleys v calls s rounds) (hfires : 0 < v.shots) :
    rounds.map (fun x => (v.slot x, x.delay)) =
      (List.replicate (s.count / v.shots) v.burst).flatten ++ v.burst.take (s.count % v.shots) := by
  rw [← range_bursts hfires, ← h.inTurn.length_eq]
  refine List.ext_getElem? fun i => ?_
  rw [List.getElem?_map, List.getElem?_map]
  cases hx : rounds[i]? with
  | none =>
    rw [List.getElem?_eq_none (by rw [List.length_range]; exact List.getElem?_eq_none_iff.1 hx)]
    rfl
  | some x =>
    obtain ⟨hindex, hdelay⟩ := h.round hfires hx
    rw [List.getElem?_range (List.getElem?_eq_some_iff.1 hx).1]
    simp [Volley.slot, hindex, hdelay]

/-! ## Updates -/

/-- What an update fires does not depend on what has been collected before. -/
theorem rhythm_mirrors (v : Volley α) (earlier : Array (Firing α)) :
    v.rhythm.Mirrors (earlier ++ ·) v.rhythm :=
  ⟨fun _ _ _ => rfl, fun _ _ => congrArg (Prod.mk true) Array.push_append⟩

theorem indices_update (v : Volley α) (t : Scheduler α) (dt : α) :
    t.count ≤ (t.update v.rhythm #[] dt).1.count ∧
    (t.update v.rhythm #[] dt).2.toList.map (fun firing => firing.count - 1) =
      List.range' t.count ((t.update v.rhythm #[] dt).1.count - t.count) := by
  by_cases hgoes : ¬ dt ≤ 0 ∧ t.running = true
  · refine Scheduler.update_induction (P := fun u (fired : Array (Firing α)) => t.count ≤ u.count ∧
      fired.toList.map (fun firing => firing.count - 1) = List.range' t.count (u.count - t.count))
      hgoes.1 hgoes.2 ?_ ?_
    · rintro u fired - - ⟨hle, hfired⟩
      have hnext : u.count + 1 - t.count = u.count - t.count + 1 := by omega
      have hlast : t.count + (u.count - t.count) = u.count := by omega
      refine ⟨Nat.le_succ_of_le hle, ?_⟩
      change (fired.push _).toList.map _ = List.range' t.count (u.count + 1 - t.count)
      rw [Array.toList_push, List.map_append, hfired, hnext, List.range'_1_concat, hlast]
      rfl
    · refine ⟨le_refl _, ?_⟩
      change [] = List.range' t.count (t.count - t.count)
      rw [Nat.sub_self]
      rfl
  · rw [not_and_or, not_not, Bool.not_eq_true] at hgoes
    rw [Scheduler.update_still v.rhythm hgoes, Nat.sub_self]
    exact ⟨le_refl _, rfl⟩

theorem spreadOffset_mod (v : Volley α) (index : ℕ) :
    v.spreadOffset (index % v.shots) = v.spreadOffset index := by
  unfold Volley.spreadOffset
  rw [Nat.mod_mod]

theorem shoot_mod [Elementary α] (v : Volley α) (emitter : Emitter α) (target : Vec α) (index : ℕ) :
    v.shoot emitter target index = v.shoot emitter target (index % v.shots) := by
  unfold Volley.shoot
  rw [spreadOffset_mod]

end Bursts

/-! ## Headings -/

/-- Heading of a slot relative to that of the burst, when `n` shots share an arc. -/
def offsetOf (n : ℕ) (arc : ℚ) (slot : ℕ) : ℚ := -((arc - arc / n) / 2) + arc / n * slot

def arcOf (packed : Packed) : ℚ := 360 * ((Fields.unpack packed).digit .spread).val / 9

variable {n slot : ℕ} {arc : ℚ}

theorem arcOf_nonneg (packed : Packed) : 0 ≤ arcOf packed := by
  unfold arcOf
  positivity

theorem arcOf_le (packed : Packed) : arcOf packed ≤ 360 := by
  have hle : (((Fields.unpack packed).digit .spread).val : ℚ) ≤ 9 := by
    exact_mod_cast Nat.le_of_lt_succ ((Fields.unpack packed).digit .spread).isLt
  unfold arcOf
  linarith

theorem offsetOf_succ (n : ℕ) (arc : ℚ) (slot : ℕ) :
    offsetOf n arc (slot + 1) - offsetOf n arc slot = arc / n := by
  unfold offsetOf
  push_cast
  ring

theorem offsetOf_opposite (arc : ℚ) (hslot : slot < n) :
    offsetOf n arc (n - 1 - slot) = -offsetOf n arc slot := by
  have hn : (n : ℚ) ≠ 0 := by exact_mod_cast (Nat.zero_le slot |>.trans_lt hslot).ne'
  have hcast : ((n - 1 - slot : ℕ) : ℚ) = n - 1 - slot := by
    rw [Nat.sub_sub, Nat.cast_sub (by omega)]
    push_cast
    ring
  unfold offsetOf
  rw [hcast]
  field_simp
  ring

theorem offsetOf_lt (harc : 0 ≤ arc) (hround : arc ≤ 360) (hslot : slot < n) :
    offsetOf n arc slot < 180 := by
  have hn : (0 : ℚ) < n := by exact_mod_cast Nat.zero_le slot |>.trans_lt hslot
  have hlast : (slot : ℚ) + 1 ≤ n := by exact_mod_cast hslot
  have hshare : 0 ≤ arc / n := div_nonneg harc hn.le
  have hwhole : arc / n * n = arc := div_mul_cancel₀ arc hn.ne'
  have hmul := mul_le_mul_of_nonneg_left hlast hshare
  -- the last slot is half an arc away, less half of a share
  rcases hshare.eq_or_lt with hzero | hpos
  · unfold offsetOf
    rw [← hzero] at hwhole ⊢
    linarith
  · unfold offsetOf
    linarith

theorem neg_lt_offsetOf (harc : 0 ≤ arc) (hround : arc ≤ 360) (hslot : slot < n) :
    -180 < offsetOf n arc slot := by
  have hlt := offsetOf_lt harc hround (show n - 1 - slot < n by omega)
  rw [offsetOf_opposite arc hslot] at hlt
  linarith

theorem spreadOffset_eq (packed : Packed) (width tempo : Exact)
    (hfires : 0 < (Volley.decode packed width tempo).shots) (index : ℕ) :
    (Volley.decode packed width tempo).spreadOffset index =
      .finite (offsetOf (Volley.decode packed width tempo).shots (arcOf packed)
        (index % (Volley.decode packed width tempo).shots)) := by
  have hcast : ((Volley.decode packed width tempo).shots : ℚ) ≠ 0 := by exact_mod_cast hfires.ne'
  have harc : (360 * Scalar.ofNat ((Fields.unpack packed).digit .spread).val / 9 : Exact) =
      .finite (arcOf packed) := by
    simp [arcOf]
  have hangle : (Volley.decode packed width tempo).anglePerShot =
      .finite (arcOf packed / (Volley.decode packed width tempo).shots) := by
    rw [← Exact.finite_div _ hcast, ← harc, ← Exact.ofNat_eq]
    exact if_neg hfires.ne'
  have hstart : (Volley.decode packed width tempo).spreadStart =
      .finite ((arcOf packed - arcOf packed / (Volley.decode packed width tempo).shots) / 2) := by
    have hhalf : (Volley.decode packed width tempo).spreadStart =
        (360 * Scalar.ofNat ((Fields.unpack packed).digit .spread).val / 9 -
          (Volley.decode packed width tempo).anglePerShot) / 2 := rfl
    rw [hhalf, harc, hangle, Exact.finite_sub, Exact.literal_eq, Exact.finite_div _ (by norm_num)]
    norm_num
  generalize Volley.decode packed width tempo = v at *
  rw [Volley.spreadOffset, hstart, hangle, Number.isZero_finite, Number.isZero_finite]
  by_cases hspread : (arcOf packed - arcOf packed / v.shots) / 2 = 0 ∨ arcOf packed / v.shots = 0
  · -- without an arc, or for a burst of one shot, the heading is that of the burst
    have hlone : arcOf packed = 0 ∨ v.shots = 1 := by
      rcases hspread with h | h
      · have hshare : arcOf packed * (v.shots - 1) = 0 := by
          field_simp at h
          linarith
        rcases mul_eq_zero.1 hshare with h | h
        · exact .inl h
        · exact .inr (by exact_mod_cast sub_eq_zero.1 h)
      · exact .inl ((div_eq_zero_iff.1 h).resolve_right hcast)
    have hoffset : offsetOf v.shots (arcOf packed) (index % v.shots) = 0 := by
      rcases hlone with harc | hone
      · simp [offsetOf, harc]
      · simp [offsetOf, hone, Nat.mod_one]
    rw [hoffset]
    rcases hspread with h | h
    · rw [decide_eq_true h]
      rfl
    · rw [decide_eq_true h, Bool.not_true, Bool.and_false]
      rfl
  · obtain ⟨hstart', hangle'⟩ := not_or.1 hspread
    rw [decide_eq_false hstart', decide_eq_false hangle']
    rfl

end Barrage.Pattern
