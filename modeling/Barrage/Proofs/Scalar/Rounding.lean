import Barrage.Proofs.Scalar.Rank
import Barrage.Scalar.Single

/-! # Rounding in single precision

A sum is rounded once, on the grid that its size asks for. Rounding never passes a number that has a
place on the grid of its own, so a sum of what is not negative is at least each of its terms. -/

namespace Barrage.Single

open Float.Model (Format UnpackedFloat totalExponent)
open Float.Model.UnpackedFloat

theorem shiftRight_mantissa (x : ExtendedMantissa) (k : ℕ) :
    (x >>> k).mantissa = x.mantissa / 2 ^ k := by
  induction k with
  | zero => exact (Nat.div_one _).symm
  | succ k ih =>
    change (x >>> k).mantissa / 2 = _
    rw [ih, Nat.div_div_eq_div_mul, Nat.pow_succ]

theorem le_roundedMantissa (x : ExtendedMantissa) :
    x.mantissa ≤ x.roundedMantissa ∧ x.roundedMantissa ≤ x.mantissa + 1 := by
  obtain ⟨m, r, s⟩ := x
  unfold ExtendedMantissa.roundedMantissa
  cases r <;> cases s <;> simp only [ExtendedMantissa.accuracy, Accuracy.roundToNearestEven] <;>
    omega

/-- The exponent on which a significand with its exponent is rounded. -/
def grid (m : ℕ) (e : ℤ) : ℤ := max (m.log2 + e - 23) (-149)

theorem targetExponent_eq (m : ℕ) (e : ℤ) :
    Format.binary32.targetExponent (totalExponent m e) = grid m e := by
  simp only [Format.targetExponent, totalExponent, Format.mantissaBits, Format.minExponent, grid]
  norm_num
  omega

theorem shift_eq (m : ℕ) (e : ℤ) :
    shiftToTargetExponent .binary32 m e .exact =
      (ExtendedMantissa.mk m false false >>> (grid m e - e).toNat, e + (grid m e - e).toNat) := by
  unfold shiftToTargetExponent shiftToExponent
  rw [targetExponent_eq]
  rfl

theorem shift_whole {r : ℕ} {t : ℤ} (hr : r < 2 ^ 24) (ht : -149 ≤ t) :
    shiftToTargetExponent .binary32 r t .exact = (⟨r, false, false⟩, t) := by
  have hlog : r.log2 ≤ 23 := by
    by_cases h : r = 0
    · simp [h]
    · have := (Nat.log2_lt h).2 hr
      omega
  have hshift : (grid r t - t).toNat = 0 := by unfold grid; omega
  rw [shift_eq, hshift]
  simp only [Int.ofNat_zero, add_zero]
  rfl

theorem shift_carry {t : ℤ} (ht : -149 ≤ t) :
    shiftToTargetExponent .binary32 (2 ^ 24) t .exact = (⟨2 ^ 23, false, false⟩, t + 1) := by
  have hlog : Nat.log2 (2 ^ 24) = 24 := Nat.log2_two_pow
  have hshift : (grid (2 ^ 24) t - t).toNat = 1 := by unfold grid; omega
  rw [shift_eq, hshift]
  rfl

theorem quotient_lt {m : ℕ} {e : ℤ} : m / 2 ^ (grid m e - e).toNat < 2 ^ 24 := by
  have hlog : m.log2 + 1 ≤ 24 + (grid m e - e).toNat := by unfold grid; omega
  rw [Nat.div_lt_iff_lt_mul (Nat.two_pow_pos _), ← Nat.pow_add]
  exact Nat.lt_log2_self.trans_le (Nat.pow_le_pow_right (by decide) hlog)

theorem le_quotient {m : ℕ} {e : ℤ} (hm : m ≠ 0) (he : e ≤ grid m e) (hg : -149 < grid m e) :
    2 ^ 23 ≤ m / 2 ^ (grid m e - e).toNat := by
  have hlog : 23 + (grid m e - e).toNat = m.log2 := by unfold grid at *; omega
  rw [Nat.le_div_iff_mul_le (Nat.two_pow_pos _), ← Nat.pow_add, hlog]
  exact Nat.log2_self_le hm

/-- What remains of a number after its significand has been shifted, rounded and, if need be,
carried. -/
theorem round_of_shift {s : Sign} {m : ℕ} {e t : ℤ} {x : ExtendedMantissa} {r : ℕ}
    (hx : shiftToTargetExponent .binary32 m e .exact = (x, t)) (hr : x.roundedMantissa = r)
    (ht : -149 ≤ t) (hle : r ≤ 2 ^ 24) :
    (∃ h, r < 2 ^ 24 ∧ roundWithAccuracy .binary32 s m e .exact = .finite s r t h) ∨
    (r = 2 ^ 24 ∧
      roundWithAccuracy .binary32 s m e .exact = .finite s (2 ^ 23) (t + 1) (by decide)) ∨
    (r = 0 ∧ roundWithAccuracy .binary32 s m e .exact = .zero s) := by
  unfold roundWithAccuracy
  simp only [hx, hr]
  by_cases hlt : r < 2 ^ 24
  · by_cases h0 : r = 0
    · refine Or.inr (Or.inr ⟨h0, ?_⟩)
      simp only [shift_whole hlt ht, dif_pos h0]
    · refine Or.inl ⟨by omega, hlt, ?_⟩
      simp only [shift_whole hlt ht, dif_neg h0]
  · obtain rfl : r = 2 ^ 24 := by omega
    refine Or.inr (Or.inl ⟨rfl, ?_⟩)
    simp only [shift_carry ht]
    rfl

/-- Rounding keeps the quotient on the grid or takes the next one, which may need one more bit. -/
theorem round_eq {s : Sign} {m : ℕ} {e : ℤ} (he : e ≤ grid m e) :
    ∃ r, m / 2 ^ (grid m e - e).toNat ≤ r ∧
      ((∃ h, r < 2 ^ 24 ∧ UnpackedFloat.round .binary32 s m e = .finite s r (grid m e) h) ∨
       (r = 2 ^ 24 ∧ UnpackedFloat.round .binary32 s m e =
          .finite s (2 ^ 23) (grid m e + 1) (by decide)) ∨
       r = 0) := by
  have hshift : (e - grid m e).toNat = 0 := by omega
  have hround : UnpackedFloat.round .binary32 s m e = roundWithAccuracy .binary32 s m e .exact := by
    simp [UnpackedFloat.round, decreaseExponent, targetExponent_eq, hshift]
  have hexp : e + (grid m e - e).toNat = grid m e := by omega
  have hfirst := shift_eq m e
  rw [hexp] at hfirst
  obtain ⟨hlo, hhi⟩ :=
    le_roundedMantissa (HShiftRight.hShiftRight (ExtendedMantissa.mk m false false)
      (grid m e - e).toNat)
  rw [shiftRight_mantissa] at hlo hhi
  have hlt : m / 2 ^ (grid m e - e).toNat < 2 ^ 24 := quotient_lt
  rw [hround]
  exact ⟨_, hlo, (round_of_shift hfirst rfl (le_max_right _ _) (hhi.trans hlt)).imp_right
    (.imp_right And.left)⟩

theorem le_rank_round {m : ℕ} {e : ℤ} {h : 0 < m} {n : ℕ} {f : ℤ}
    (hx : Canonical (.finite .positive m e h)) (hf : f ≤ e) (hn : m * 2 ^ (e - f).toNat ≤ n) :
    (unpack .binary32 (pack .binary32 (UnpackedFloat.round .binary32 .positive n f))).isNaN =
      false ∧
    rank (.finite .positive m e h) ≤
      rank (unpack .binary32 (pack .binary32 (UnpackedFloat.round .binary32 .positive n f))) := by
  obtain ⟨-, hlt⟩ := rank_abs_lt hx
  obtain ⟨hle, -, hm, hnormal⟩ := hx
  have hn0 : n ≠ 0 := by
    have : 0 < m * 2 ^ (e - f).toNat := by positivity
    omega
  have hgrid : e ≤ grid n f := by
    unfold grid
    by_cases he : e = -149
    · omega
    · have h23 : 2 ^ (23 + (e - f).toNat) ≤ n := by
        rw [Nat.pow_add]
        exact (Nat.mul_le_mul_right _ (hnormal (by omega))).trans hn
      have hlog := (Nat.le_log2 hn0).2 h23
      omega
  have hquot : e = grid n f → m ≤ n / 2 ^ (grid n f - f).toNat := by
    intro he
    rw [← he, Nat.le_div_iff_mul_le (Nat.two_pow_pos _)]
    exact hn
  have hq : -149 < grid n f → 2 ^ 23 ≤ n / 2 ^ (grid n f - f).toNat := le_quotient hn0 (by omega)
  -- the significand keeps its bits or is carried to a power of two, but does not come out as zero
  obtain ⟨r, hr, ⟨h0, hr24, hround⟩ | ⟨rfl, hround⟩ | rfl⟩ :=
    round_eq (s := .positive) (hf.trans hgrid)
  · rw [hround]
    by_cases htop : grid n f ≤ 104
    · have hc : Canonical (.finite .positive r (grid n f) h0) :=
        ⟨by omega, htop, hr24, fun hg => (hq hg).trans hr⟩
      rw [unpack_pack hc]
      refine ⟨rfl, ?_⟩
      simp only [rank, Sign.apply]
      omega
    · rw [unpack_pack_of_lt (by omega)]
      exact ⟨rfl, hlt.le⟩
  · rw [hround]
    by_cases htop : grid n f + 1 ≤ 104
    · have hc : Canonical (.finite .positive (2 ^ 23) (grid n f + 1) (by decide)) :=
        ⟨by omega, htop, by decide, fun _ => le_refl _⟩
      rw [unpack_pack hc]
      refine ⟨rfl, ?_⟩
      simp only [rank, Sign.apply]
      push_cast
      omega
    · rw [unpack_pack_of_lt (by omega)]
      exact ⟨rfl, hlt.le⟩
  · omega

/-! ## Sums -/

theorem normalize_of_pos {n : ℕ} (hn : 0 < n) (e : ℤ) (s : Sign) :
    UnpackedFloat.normalize .binary32 n e s = UnpackedFloat.round .binary32 .positive n e := by
  have hcompare : compare (n : ℤ) 0 = .gt := compare_gt_iff_gt.2 (by omega)
  unfold UnpackedFloat.normalize
  rw [hcompare]
  rfl

theorem le_rank_add {x y : UnpackedFloat} (hx : Canonical x) (hy : Canonical y)
    (fx : x.isFinite = true) (fy : y.isFinite = true) (px : 0 ≤ rank x) (py : 0 ≤ rank y) :
    (unpack .binary32 (pack .binary32 (add .binary32 x y))).isNaN = false ∧
    rank x ≤ rank (unpack .binary32 (pack .binary32 (add .binary32 x y))) := by
  cases x with
  | notANumber => cases fx
  | infinity => cases fx
  | zero s =>
    cases y with
    | notANumber => cases fy
    | infinity => cases fy
    | zero t => cases s <;> cases t <;> decide
    | finite t n f k =>
      rw [show add .binary32 (.zero s) (.finite t n f k) = .finite t n f k from rfl, unpack_pack hy]
      exact ⟨rfl, py⟩
  | finite s m e h =>
    cases y with
    | notANumber => cases fy
    | infinity => cases fy
    | zero t =>
      rw [show add .binary32 (.finite s m e h) (.zero t) = .finite s m e h from rfl, unpack_pack hx]
      exact ⟨rfl, le_refl _⟩
    | finite t n f k =>
      have ha := rank_abs_lt hx
      have hb := rank_abs_lt hy
      cases s with
      | negative => simp only [rank, Sign.apply] at px; omega
      | positive =>
        cases t with
        | negative => simp only [rank, Sign.apply] at py; omega
        | positive =>
          have hm : m * 2 ^ (e - min e f).toNat ≤
              m <<< (e - min e f).toNat + n <<< (f - min e f).toNat := by
            rw [Nat.shiftLeft_eq]
            exact Nat.le_add_right _ _
          have hpos : 0 < m * 2 ^ (e - min e f).toNat := by positivity
          have hround := le_rank_round hx (min_le_left e f) hm
          rw [← normalize_of_pos (hpos.trans_le hm) (min e f) .positive] at hround
          exact hround

theorem isNaN_round (s : Sign) (m : ℕ) (e : ℤ) :
    (UnpackedFloat.round .binary32 s m e).isNaN = false := by
  unfold UnpackedFloat.round roundWithAccuracy
  dsimp only
  split <;> rfl

theorem isNaN_normalize (m e : ℤ) (s : Sign) :
    (UnpackedFloat.normalize .binary32 m e s).isNaN = false := by
  unfold UnpackedFloat.normalize
  split
  · exact isNaN_round _ _ _
  · rfl
  · exact isNaN_round _ _ _

theorem isNaN_add {x y : UnpackedFloat} (hx : x.isFinite = true) (hy : y.isNaN = false) :
    (add .binary32 x y).isNaN = false := by
  cases x with
  | notANumber => cases hx
  | infinity s => cases hx
  | zero s =>
    cases y with
    | notANumber => cases hy
    | infinity t => rfl
    | zero t => cases s <;> cases t <;> rfl
    | finite t n f k => rfl
  | finite s m e h =>
    cases y with
    | notANumber => cases hy
    | infinity t => rfl
    | zero t => rfl
    | finite t n f k => exact isNaN_normalize _ _ _

theorem isNaN_sub {x y : UnpackedFloat} (hx : x.isFinite = true) (hy : y.isNaN = false) :
    (sub .binary32 x y).isNaN = false := by
  cases x with
  | notANumber => cases hx
  | infinity s => cases hx
  | zero s =>
    cases y with
    | notANumber => cases hy
    | infinity t => rfl
    | zero t => cases s <;> cases t <;> rfl
    | finite t n f k => rfl
  | finite s m e h =>
    cases y with
    | notANumber => cases hy
    | infinity t => rfl
    | zero t => rfl
    | finite t n f k => exact isNaN_normalize _ _ _

/-! ## Singles -/

def unpacked (x : Float32) : UnpackedFloat := x.toModel.unpack

theorem unpacked_canonical (x : Float32) : Canonical (unpacked x) := unpack_canonical _

theorem unpacked_add (a b : Float32) :
    unpacked (a + b) = unpack .binary32
      (pack .binary32 (add .binary32 (unpacked a) (unpacked b))) := rfl

/-- Singles are compared by rank, undefined ones not at all. -/
theorem compare_unpacked (a b : Float32) :
    (((unpacked a).isNaN = true ∨ (unpacked b).isNaN = true) ∧
      (unpacked a).compare (unpacked b) = none) ∨
    ((unpacked a).isNaN = false ∧ (unpacked b).isNaN = false ∧
      (unpacked a).compare (unpacked b) =
        some (compare (rank (unpacked a)) (rank (unpacked b)))) := by
  cases ha : (unpacked a).isNaN with
  | true => exact Or.inl ⟨Or.inl rfl, compare_of_isNaN (Or.inl ha)⟩
  | false =>
    cases hb : (unpacked b).isNaN with
    | true => exact Or.inl ⟨Or.inr rfl, compare_of_isNaN (Or.inr hb)⟩
    | false =>
      exact Or.inr ⟨rfl, rfl, compare_eq (unpacked_canonical a) (unpacked_canonical b) ha hb⟩

theorem le_iff {a b : Float32} : a ≤ b ↔
    (unpacked a).isNaN = false ∧ (unpacked b).isNaN = false ∧
      rank (unpacked a) ≤ rank (unpacked b) := by
  change decide (((unpacked a).compare (unpacked b)).any (·.isLE) = true) = true ↔ _
  rw [decide_eq_true_iff]
  rcases compare_unpacked a b with ⟨hnan, h⟩ | ⟨ha, hb, h⟩
  · rw [h]
    rcases hnan with ha | hb
    · simp [ha]
    · simp [hb]
  · rw [h, Option.any_some, ← Ordering.ne_gt_iff_isLE]
    exact compare_le_iff_le.trans ⟨fun hle => ⟨ha, hb, hle⟩, fun hle => hle.2.2⟩

theorem lt_iff {a b : Float32} : a < b ↔
    (unpacked a).isNaN = false ∧ (unpacked b).isNaN = false ∧
      rank (unpacked a) < rank (unpacked b) := by
  change decide (((unpacked a).compare (unpacked b) == some .lt) = true) = true ↔ _
  rw [decide_eq_true_iff]
  rcases compare_unpacked a b with ⟨hnan, h⟩ | ⟨ha, hb, h⟩
  · rw [h]
    rcases hnan with ha | hb
    · simp [ha]
    · simp [hb]
  · rw [h, beq_iff_eq, Option.some_inj, compare_lt_iff_lt]
    exact ⟨fun hlt => ⟨ha, hb, hlt⟩, fun hlt => hlt.2.2⟩

theorem defined_iff {a : Float32} : Scalar.Defined a ↔ (unpacked a).isNaN = false := by
  change a ≤ a ↔ _
  rw [le_iff]
  simp

theorem unpacked_zero : unpacked (Scalar.instOfNat 0).ofNat = .zero .positive := rfl

theorem tolerance_pos : (unpacked (Scheduler.tolerance : Float32)).isFinite = true ∧
    0 ≤ rank (unpacked (Scheduler.tolerance : Float32)) := by decide +kernel

theorem rank_zero_add {d : Float32} (hd : (unpacked d).isFinite = true) :
    (unpacked ((Scalar.instOfNat 0).ofNat + d)).isFinite = true ∧
      rank (unpacked ((Scalar.instOfNat 0).ofNat + d)) = rank (unpacked d) := by
  have hc := unpacked_canonical d
  rw [unpacked_add, unpacked_zero]
  generalize unpacked d = x at *
  cases x with
  | notANumber => cases hd
  | infinity s => cases hd
  | zero s => cases s <;> exact ⟨rfl, rfl⟩
  | finite s m e h =>
    rw [show add .binary32 (.zero .positive) (.finite s m e h) = .finite s m e h from rfl,
      unpack_pack hc]
    exact ⟨rfl, rfl⟩

instance : Scalar.Ordered Float32 where
  le_trans hab hbc := by
    rw [le_iff] at *
    exact ⟨hab.1, hbc.2.1, hab.2.2.trans hbc.2.2⟩
  defined_of_le hab := by
    rw [le_iff] at hab
    exact ⟨defined_iff.2 hab.1, defined_iff.2 hab.2.1⟩
  le_of_not_lt ha hb hba := by
    rw [defined_iff] at ha hb
    rw [lt_iff] at hba
    rw [le_iff]
    exact ⟨ha, hb, not_lt.1 fun hlt => hba ⟨hb, ha, hlt⟩⟩
  zero_defined := by
    rw [defined_iff, unpacked_zero]
    rfl
  add_defined ha hb := by
    rw [defined_iff] at *
    exact isNaN_unpack_pack (isNaN_add ha hb)
  sub_defined ha hb := by
    rw [defined_iff] at *
    exact isNaN_unpack_pack (isNaN_sub ha hb)
  finite_of_le {a b} hb h0 hab := by
    rw [le_iff, unpacked_zero] at h0
    rw [le_iff] at hab
    have htop := rank_lt_top (unpacked_canonical b) hb
    have hzero : rank (.zero .positive) = 0 := rfl
    exact finite_of_rank (x := unpacked a) hab.1 (by omega) (by omega)
  le_add_tolerance {d} hd h0 := by
    rw [le_iff, unpacked_zero] at h0
    obtain ⟨hfinite, hrank⟩ := rank_zero_add hd
    obtain ⟨hnan, hle⟩ := le_rank_add (unpacked_canonical _)
      (unpacked_canonical Scheduler.tolerance) hfinite tolerance_pos.1
      (hrank ▸ h0.2.2) tolerance_pos.2
    rw [le_iff]
    exact ⟨isNaN_of_isFinite hd, hnan, hrank ▸ hle⟩

instance : Scalar.Linear Float32 where
  le_of_lt hlt := by
    rw [lt_iff] at hlt
    rw [le_iff]
    exact ⟨hlt.1, hlt.2.1, hlt.2.2.le⟩

instance : Scalar.Strict Float32 where
  not_le_of_lt hlt hle := by
    rw [lt_iff] at hlt
    rw [le_iff] at hle
    exact hle.2.2.not_gt hlt.2.2

end Barrage.Single
