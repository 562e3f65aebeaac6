import Barrage.Pattern.Projectile
import Barrage.Proofs.Worth

/-! # Turning toward a bearing

Headings and bearings are points of a circle, and there are two arcs from one to the other. A
correction follows the shorter one and covers as much of it as its limit allows, so what is left of
it shrinks by the limit until nothing is left. -/

namespace Barrage.Pattern

/-- Length of the shorter of the two arcs between a heading and a bearing, in degrees. -/
def arcBetween (heading bearing : ℚ) : ℚ :=
  let ahead := 360 * Int.fract ((bearing - heading) / 360)
  min ahead (360 - ahead)

/-- The heading in the turn that begins with zero. -/
def reduced (heading : ℚ) : ℚ := 360 * Int.fract (heading / 360)

def correct (bearing maxSpeed dt : ℚ) (heading : ℚ) : Except Fault ℚ := do
  let turn ← homingTurn (Exact.finite heading) (.finite bearing) (.finite maxSpeed) (.finite dt)
  return reduced (heading + turn.value)

/-- The heading after so many corrections. -/
def corrections (bearing maxSpeed dt : ℚ) : ℕ → ℚ → Except Fault ℚ
  | 0, heading => return heading
  | n + 1, heading => do corrections bearing maxSpeed dt n (← correct bearing maxSpeed dt heading)

variable {h d x : ℚ}

/-! ## Arcs -/

theorem exists_reduced (q : ℚ) : ∃ k : ℤ, reduced q = q + 360 * k := by
  refine ⟨-⌊q / 360⌋, ?_⟩
  rw [reduced, Int.fract]
  push_cast
  ring

theorem reduced_nonneg (q : ℚ) : 0 ≤ reduced q := mul_nonneg (by norm_num) (Int.fract_nonneg _)

theorem reduced_lt (q : ℚ) : reduced q < 360 := by
  have hlt := Int.fract_lt_one (q / 360)
  unfold reduced
  linarith

/-- Every way from the heading to the bearing is at least as long. -/
theorem isLeast_arcBetween (h d : ℚ) :
    IsLeast (Set.range fun k : ℤ => |d - h + 360 * k|) (arcBetween h d) := by
  obtain ⟨k, hk⟩ := exists_reduced (d - h)
  have hlow := reduced_nonneg (d - h)
  have hhigh := reduced_lt (d - h)
  have harc : arcBetween h d = min (reduced (d - h)) (360 - reduced (d - h)) := rfl
  rw [harc]
  constructor
  · rcases min_choice (reduced (d - h)) (360 - reduced (d - h)) with hmin | hmin
    · refine ⟨k, ?_⟩
      dsimp only
      rw [hmin, ← hk, abs_of_nonneg hlow]
    · refine ⟨k - 1, ?_⟩
      have hback : d - h + 360 * ((k - 1 : ℤ) : ℚ) = reduced (d - h) - 360 := by
        rw [hk]
        push_cast
        ring
      dsimp only
      rw [hmin, hback, abs_of_neg (by linarith), neg_sub]
  · rintro _ ⟨j, rfl⟩
    have hway : d - h + 360 * (j : ℚ) = reduced (d - h) + 360 * ((j - k : ℤ) : ℚ) := by
      rw [hk]
      push_cast
      ring
    dsimp only
    rw [hway]
    -- a way that goes around once more is longer than one of the two arcs
    rcases le_or_gt 0 (j - k) with hj | hj
    · have hturns : (0 : ℚ) ≤ ((j - k : ℤ) : ℚ) := by exact_mod_cast hj
      exact (min_le_left _ _).trans (le_abs.2 (Or.inl (by linarith)))
    · have hturns : ((j - k : ℤ) : ℚ) ≤ -1 := by exact_mod_cast Int.le_sub_one_of_lt hj
      exact (min_le_right _ _).trans (le_abs.2 (Or.inr (by linarith)))

theorem arcBetween_eq {k : ℤ} (hx : x = d - h + 360 * k) (hhalf : |x| ≤ 180) :
    arcBetween h d = |x| := by
  refine (isLeast_arcBetween h d).unique ⟨⟨k, by rw [hx]⟩, ?_⟩
  rintro _ ⟨j, rfl⟩
  have hway : d - h + 360 * (j : ℚ) = x + 360 * ((j - k : ℤ) : ℚ) := by
    rw [hx]
    push_cast
    ring
  dsimp only
  rw [hway]
  obtain ⟨hlow, hhigh⟩ := abs_le.1 hhalf
  rcases lt_trichotomy (j - k) 0 with hj | hj | hj
  · have hturns : ((j - k : ℤ) : ℚ) ≤ -1 := by exact_mod_cast Int.le_sub_one_of_lt hj
    exact hhalf.trans (le_abs.2 (Or.inr (by linarith)))
  · rw [hj, Int.cast_zero, mul_zero, add_zero]
  · have hturns : (1 : ℚ) ≤ ((j - k : ℤ) : ℚ) := by exact_mod_cast hj
    exact hhalf.trans (le_abs.2 (Or.inl (by linarith)))

theorem arcBetween_nonneg (h d : ℚ) : 0 ≤ arcBetween h d := by
  obtain ⟨k, hk⟩ := (isLeast_arcBetween h d).1
  rw [← hk]
  exact abs_nonneg _

theorem arcBetween_le (h d : ℚ) : arcBetween h d ≤ 180 := by
  have harc : arcBetween h d = min (reduced (d - h)) (360 - reduced (d - h)) := rfl
  rw [harc]
  rcases le_total (reduced (d - h)) 180 with hle | hle
  · exact (min_le_left _ _).trans hle
  · exact (min_le_right _ _).trans (by linarith)

theorem reduced_eq_of_add {a b : ℚ} {k : ℤ} (hab : a = b + 360 * k) : reduced a = reduced b := by
  have hfract : a / 360 = b / 360 + k := by
    rw [hab]
    ring
  rw [reduced, hfract, Int.fract_add_intCast, reduced]

theorem arcBetween_reduced (h d : ℚ) : arcBetween (reduced h) d = arcBetween h d := by
  obtain ⟨k, hk⟩ := exists_reduced h
  have hways : reduced (d - reduced h) = reduced (d - h) := by
    refine reduced_eq_of_add (k := -k) ?_
    rw [hk]
    push_cast
    ring
  change min (reduced (d - reduced h)) (360 - reduced (d - reduced h)) = _
  rw [hways]
  rfl

theorem reduced_eq_of_arcBetween (harc : arcBetween h d = 0) : reduced h = reduced d := by
  obtain ⟨k, hk⟩ := (isLeast_arcBetween h d).1
  have hzero : d - h + 360 * (k : ℚ) = 0 := abs_eq_zero.1 (hk.trans harc)
  refine reduced_eq_of_add (k := k) ?_
  linarith

/-! ## Corrections -/

theorem nearerZero_first {a b : ℚ} (h : |a| ≤ |b|) :
    nearerZero (Exact.finite a) (.finite b) = .finite a := by
  have hnot : ¬ Exact.finite |b| < .finite |a| := by simpa using h
  exact if_neg hnot

theorem nearerZero_second {a b : ℚ} (h : |b| < |a|) :
    nearerZero (Exact.finite a) (.finite b) = .finite b := by
  have hlt : Exact.finite |b| < .finite |a| := by simpa using h
  exact if_pos hlt

/-- Between headings of one turn, the nearest of three ways is a shortest one. -/
theorem exists_shortest (hh : 0 ≤ h ∧ h ≤ 360) (hd : 0 ≤ d ∧ d ≤ 360) :
    ∃ x, nearerZero (nearerZero (Exact.finite (d - h)) (.finite (d - h + 360)))
        (.finite (d - h - 360)) = .finite x ∧ |x| ≤ 180 ∧ ∃ k : ℤ, x = d - h + 360 * k := by
  obtain ⟨hh0, hh1⟩ := hh
  obtain ⟨hd0, hd1⟩ := hd
  have hahead : |d - h + 360| = d - h + 360 := abs_of_nonneg (by linarith)
  have hback : |d - h - 360| = 360 - (d - h) := by
    rw [abs_of_nonpos (by linarith)]
    ring
  rcases lt_or_ge (d - h) (-180) with hfar | hnear
  · have hway : |d - h| = -(d - h) := abs_of_neg (by linarith)
    rw [nearerZero_second (by linarith), nearerZero_first (by linarith)]
    exact ⟨_, rfl, by linarith, 1, by norm_num⟩
  rcases le_or_gt (d - h) 180 with hle | hlt
  · have hway : |d - h| ≤ 180 := abs_le.2 ⟨hnear, hle⟩
    rw [nearerZero_first (by linarith), nearerZero_first (by linarith)]
    exact ⟨_, rfl, hway, 0, by norm_num⟩
  · have hway : |d - h| = d - h := abs_of_pos (by linarith)
    rw [nearerZero_first (by linarith), nearerZero_second (by linarith)]
    exact ⟨_, rfl, by linarith, -1, by push_cast; ring⟩

theorem clamp_limit (x : ℚ) {limit : ℚ} (hlimit : 0 ≤ limit) :
    ∃ r, Scalar.clamp (Exact.finite x) (-.finite limit) (.finite limit) = .ok (.finite r) ∧
      |r| ≤ limit ∧
      |r| ≤ |x| ∧ |x - r| = max 0 (|x| - limit) := by
  have hbounds : -Exact.finite limit ≤ .finite limit := by
    rw [Exact.finite_neg, Exact.finite_le]
    linarith
  unfold Scalar.clamp
  rw [if_pos hbounds]
  simp only [Exact.finite_neg, Exact.finite_lt]
  rcases lt_or_ge x (-limit) with hlow | hlow
  · have hx : |x| = -x := abs_of_neg (by linarith)
    rw [if_pos hlow]
    refine ⟨-limit, rfl, ?_, ?_, ?_⟩
    · rw [abs_neg, abs_of_nonneg hlimit]
    · rw [abs_neg, abs_of_nonneg hlimit, hx]
      linarith
    · rw [hx, max_eq_right (by linarith), abs_of_neg (by linarith)]
      ring
  rw [if_neg (not_lt.2 hlow)]
  rcases lt_or_ge limit x with hhigh | hhigh
  · have hx : |x| = x := abs_of_pos (by linarith)
    rw [if_pos hhigh]
    refine ⟨limit, rfl, ?_, ?_, ?_⟩
    · rw [abs_of_nonneg hlimit]
    · rw [abs_of_nonneg hlimit, hx]
      exact hhigh.le
    · rw [hx, max_eq_right (by linarith), abs_of_pos (by linarith)]
  · have hx : |x| ≤ limit := abs_le.2 ⟨hlow, hhigh⟩
    rw [if_neg (not_lt.2 hhigh)]
    exact ⟨x, rfl, hx, le_refl _, by rw [sub_self, abs_zero, max_eq_left (by linarith)]⟩

variable (maxSpeed dt : ℚ)

/-- One turn takes its limit off the arc that is left. -/
theorem homingTurn_arc (hh : 0 ≤ h ∧ h ≤ 360) (hd : 0 ≤ d ∧ d ≤ 360) :
    ∃ r, homingTurn (Exact.finite h) (.finite d) (.finite maxSpeed) (.finite dt) = .ok (.finite r) ∧
      |r| ≤ |maxSpeed * dt| ∧ |r| ≤ 180 ∧
      arcBetween (h + r) d = max 0 (arcBetween h d - |maxSpeed * dt|) := by
  obtain ⟨x, hx, hhalf, k, hway⟩ := exists_shortest hh hd
  obtain ⟨r, hr, hlimit, hle, hleft⟩ := clamp_limit x (abs_nonneg (maxSpeed * dt))
  have hturn : homingTurn (Exact.finite h) (.finite d) (.finite maxSpeed) (.finite dt) =
      .ok (.finite r) := by
    rw [← hr, ← hx]
    rfl
  have hrest : |x - r| ≤ 180 := by
    rw [hleft]
    exact max_le (by norm_num) (by linarith [abs_nonneg (maxSpeed * dt)])
  refine ⟨r, hturn, hlimit, hle.trans hhalf, ?_⟩
  rw [arcBetween_eq (x := x - r) (k := k) (by rw [hway]; ring) hrest, hleft,
    arcBetween_eq hway hhalf]

theorem correct_arc (hh : 0 ≤ h ∧ h ≤ 360) (hd : 0 ≤ d ∧ d ≤ 360) :
    ∃ h', correct d maxSpeed dt h = .ok h' ∧ (0 ≤ h' ∧ h' < 360) ∧
      arcBetween h' d = max 0 (arcBetween h d - |maxSpeed * dt|) := by
  obtain ⟨r, hr, -, -, harc⟩ := homingTurn_arc maxSpeed dt hh hd
  refine ⟨reduced (h + r), ?_, ⟨reduced_nonneg _, reduced_lt _⟩, ?_⟩
  · rw [correct, hr]
    rfl
  · rw [arcBetween_reduced, harc]

theorem corrections_arc (hh : 0 ≤ h ∧ h ≤ 360) (hd : 0 ≤ d ∧ d ≤ 360) (n : ℕ) :
    ∃ h', corrections d maxSpeed dt n h = .ok h' ∧ (0 < n → 0 ≤ h' ∧ h' < 360) ∧
      arcBetween h' d = max 0 (arcBetween h d - n * |maxSpeed * dt|) := by
  induction n generalizing h with
  | zero =>
    refine ⟨h, rfl, fun hn => absurd hn (lt_irrefl 0), ?_⟩
    rw [Nat.cast_zero, zero_mul, sub_zero, max_eq_right (arcBetween_nonneg h d)]
  | succ n ih =>
    obtain ⟨h₁, hfirst, ⟨hlow, hhigh⟩, harc₁⟩ := correct_arc maxSpeed dt hh hd
    obtain ⟨h₂, hrest, hturn, harc₂⟩ := ih ⟨hlow, hhigh.le⟩
    refine ⟨h₂, ?_, fun _ => ?_, ?_⟩
    · rw [corrections, hfirst]
      exact hrest
    · rcases Nat.eq_zero_or_pos n with rfl | hn
      · cases hrest
        exact ⟨hlow, hhigh⟩
      · exact hturn hn
    · have hsteps := mul_nonneg (Nat.cast_nonneg (α := ℚ) n) (abs_nonneg (maxSpeed * dt))
      rw [harc₂, harc₁, Nat.cast_add_one, add_one_mul]
      rcases le_total (arcBetween h d - |maxSpeed * dt|) 0 with hle | hle
      · rw [max_eq_left hle, max_eq_left (by linarith), max_eq_left (by linarith)]
      · rw [max_eq_right hle]
        congr 1
        ring

theorem corrections_reach (hh : 0 ≤ h ∧ h ≤ 360) (hd : 0 ≤ d ∧ d ≤ 360)
    (hturns : 0 < maxSpeed * dt) :
    ∃ N, ∀ n, N ≤ n → corrections d maxSpeed dt n h = .ok (reduced d) := by
  obtain ⟨N, hN⟩ := exists_nat_gt (arcBetween h d / (maxSpeed * dt))
  refine ⟨N + 1, fun n hn => ?_⟩
  obtain ⟨h', hh', hturn, harc⟩ := corrections_arc maxSpeed dt hh hd n
  have hcovered : arcBetween h d - n * |maxSpeed * dt| ≤ 0 := by
    have hNn : (N : ℚ) ≤ n := by exact_mod_cast (Nat.le_succ N).trans hn
    have hmul := (div_lt_iff₀ hturns).1 (hN.trans_le hNn)
    rw [abs_of_pos hturns]
    linarith
  obtain ⟨hlow, hhigh⟩ := hturn (by omega)
  have hsame : reduced h' = h' := by
    have hfract : Int.fract (h' / 360) = h' / 360 :=
      Int.fract_eq_self.2 ⟨by linarith, (div_lt_one (by norm_num)).2 hhigh⟩
    rw [reduced, hfract]
    ring
  rw [max_eq_left hcovered] at harc
  rw [hh', ← hsame, reduced_eq_of_arcBetween harc]

/-- A correction turns by no more than its limit and by no more than half a turn, and takes its
limit off the shorter of the two arcs between heading and bearing, or all that is left of it. So do
any number of corrections one after the other; if they turn at all, they come to the bearing, and
then they stay on it. -/
theorem homing_takes_the_shorter_arc (heading bearing maxSpeed dt : ℚ)
    (hheading : 0 ≤ heading ∧ heading ≤ 360) (hbearing : 0 ≤ bearing ∧ bearing ≤ 360) :
    IsLeast (Set.range fun k : ℤ => |bearing - heading + 360 * k|) (arcBetween heading bearing) ∧
    arcBetween heading bearing ≤ 180 ∧
    (∃ r, homingTurn (Exact.finite heading) (.finite bearing) (.finite maxSpeed) (.finite dt) =
      .ok (.finite r) ∧
      |r| ≤ |maxSpeed * dt| ∧ |r| ≤ 180 ∧
      arcBetween (heading + r) bearing = max 0 (arcBetween heading bearing - |maxSpeed * dt|)) ∧
    (∀ n, ∃ h', corrections bearing maxSpeed dt n heading = .ok h' ∧
      arcBetween h' bearing = max 0 (arcBetween heading bearing - n * |maxSpeed * dt|)) ∧
    (0 < maxSpeed * dt →
      ∃ N, ∀ n, N ≤ n → corrections bearing maxSpeed dt n heading = .ok (reduced bearing)) := by
  refine ⟨isLeast_arcBetween heading bearing, arcBetween_le heading bearing,
    homingTurn_arc maxSpeed dt hheading hbearing, ?_,
      corrections_reach maxSpeed dt hheading hbearing⟩
  intro n
  obtain ⟨h', hh', -, harc⟩ := corrections_arc maxSpeed dt hheading hbearing n
  exact ⟨h', hh', harc⟩

/-- From 350 degrees to 10 by 8 degrees at a time, over the end of the turn. -/
theorem third_correction_reaches_the_bearing :
    (0 ≤ (350 : ℚ) ∧ (350 : ℚ) ≤ 360) ∧ (0 ≤ (10 : ℚ) ∧ (10 : ℚ) ≤ 360) ∧
    (∃ r, homingTurn (Exact.finite 350) (.finite 10) (.finite 80) (.finite (1 / 10)) =
      .ok (.finite r) ∧
      |r| ≤ 8 ∧ arcBetween (350 + r) 10 = 12) ∧
    (∃ h', corrections 10 80 (1 / 10) 2 350 = .ok h' ∧ arcBetween h' 10 = 4) ∧
    (∃ h', corrections 10 80 (1 / 10) 3 350 = .ok h' ∧ arcBetween h' 10 = 0) ∧
    ∃ N, ∀ n, N ≤ n → corrections 10 80 (1 / 10) n 350 = .ok (reduced 10) := by
  have hheading : 0 ≤ (350 : ℚ) ∧ (350 : ℚ) ≤ 360 := by norm_num
  have hbearing : 0 ≤ (10 : ℚ) ∧ (10 : ℚ) ≤ 360 := by norm_num
  have harc : arcBetween 350 10 = 20 := by decide +kernel
  have hlimit : |(80 : ℚ) * (1 / 10)| = 8 := by norm_num
  obtain ⟨-, -, hturn, hturns, hreaches⟩ :=
    homing_takes_the_shorter_arc 350 10 80 (1 / 10) hheading hbearing
  rw [harc, hlimit] at hturn
  simp only [harc, hlimit] at hturns
  obtain ⟨r, hr, hle, -, hleft⟩ := hturn
  refine ⟨hheading, hbearing, ⟨r, hr, hle, hleft.trans (by norm_num)⟩, ?_, ?_,
    hreaches (by norm_num)⟩
  · obtain ⟨h', hh', hleft⟩ := hturns 2
    exact ⟨h', hh', hleft.trans (by norm_num)⟩
  · obtain ⟨h', hh', hleft⟩ := hturns 3
    exact ⟨h', hh', hleft.trans (by norm_num)⟩

end Barrage.Pattern
