import Barrage.Proofs.Scalar.Rounding

/-! # Fractions and whole parts

A fraction of a single is not more than the single, also when the product is rounded, for rounding
does not pass a number that has a place on its own grid. Nor does the whole part of a number pass a
whole number above it. -/

namespace Barrage.Single

open Float.Model (Format UnpackedFloat totalExponent)
open Float.Model.UnpackedFloat

/-! ## Rounding from below -/

/-- What is shifted out was not there. -/
theorem shiftRight_exact (m k : ℕ) :
    (ExtendedMantissa.mk (m * 2 ^ k) false false >>> k) = ⟨m, false, false⟩ := by
  induction k generalizing m with
  | zero =>
    rw [pow_zero, mul_one]
    rfl
  | succ k ih =>
    have hmore : m * 2 ^ (k + 1) = (m * 2) * 2 ^ k := by ring
    rw [hmore]
    change
      ExtendedMantissa.shiftRightOne (ExtendedMantissa.mk (m * 2 * 2 ^ k) false false >>> k) = _
    rw [ih]
    simp [ExtendedMantissa.shiftRightOne]

theorem roundedMantissa_le {n m k : ℕ} (h : n ≤ m * 2 ^ k) :
    (ExtendedMantissa.mk n false false >>> k).roundedMantissa ≤ m := by
  have hpos : 0 < 2 ^ k := Nat.two_pow_pos k
  obtain ⟨-, hle⟩ := le_roundedMantissa (ExtendedMantissa.mk n false false >>> k)
  rw [shiftRight_mantissa] at hle
  have hquotient : n / 2 ^ k ≤ m := Nat.div_le_of_le_mul (by rwa [mul_comm])
  rcases hquotient.lt_or_eq with hlt | heq
  · change n / 2 ^ k < m at hlt
    exact hle.trans hlt
  · have hexact : n = m * 2 ^ k := by
      have hback := Nat.div_mul_le_self n (2 ^ k)
      rw [heq] at hback
      omega
    rw [hexact, shiftRight_exact]
    exact le_rfl

/-- A number with a place on a coarser grid is above whatever is below it there. -/
theorem rank_le_of_grid {m m' : ℕ} {e e' : ℤ} {h : 0 < m} {h' : 0 < m'} (hlow : -149 ≤ e)
    (hm : m ≤ 2 ^ 24) (hle : e ≤ e') (hsame : e = e' → m ≤ m') (hnormal : e < e' → 2 ^ 23 ≤ m') :
    0 ≤ rank (.finite .positive m e h) ∧ rank (.finite .positive m e h) ≤
      rank (.finite .positive m' e' h') := by
  simp only [rank, Sign.apply]
  refine ⟨by omega, ?_⟩
  rcases hle.eq_or_lt with heq | hlt
  · have hbelow := hsame heq
    omega
  · have habove := hnormal hlt
    omega

theorem rank_round_le {m : ℕ} {e : ℤ} {h : 0 < m} {n : ℕ} {f : ℤ}
    (hx : Canonical (.finite .positive m e h)) (hf : f ≤ e) (hgrid : f ≤ grid n f) (hn0 : n ≠ 0)
    (hn : n ≤ m * 2 ^ (e - f).toNat) :
    (unpack .binary32 (pack .binary32 (roundWithAccuracy .binary32 .positive n f .exact))).isNaN =
      false ∧
    0 ≤ rank (unpack .binary32
      (pack .binary32 (roundWithAccuracy .binary32 .positive n f .exact))) ∧
    rank (unpack .binary32 (pack .binary32 (roundWithAccuracy .binary32 .positive n f .exact))) ≤
      rank (.finite .positive m e h) := by
  obtain ⟨hlow, htop, hm, hnormal⟩ := hx
  have hexp : f + (grid n f - f).toNat = grid n f := by omega
  have hgridLow : -149 ≤ grid n f := le_max_right _ _
  -- the number above has a place on the grid
  have hgridHigh : grid n f ≤ e := by
    have hlt : n < 2 ^ (24 + (e - f).toNat) := by
      rw [Nat.pow_add]
      exact hn.trans_lt (Nat.mul_lt_mul_of_pos_right hm (Nat.two_pow_pos _))
    have hlog := (Nat.log2_lt hn0).2 hlt
    unfold grid
    omega
  have hfirst := shift_eq n f
  rw [hexp] at hfirst
  obtain ⟨hlo, hhi⟩ := le_roundedMantissa (ExtendedMantissa.mk n false false >>>
      (grid n f - f).toNat)
  rw [shiftRight_mantissa] at hlo hhi
  have hlt : n / 2 ^ (grid n f - f).toNat < 2 ^ 24 := quotient_lt
  have hq : -149 < grid n f → 2 ^ 23 ≤ n / 2 ^ (grid n f - f).toNat := le_quotient hn0 hgrid
  have hsame : grid n f = e →
      (ExtendedMantissa.mk n false false >>> (grid n f - f).toNat).roundedMantissa ≤ m := by
    intro heq
    apply roundedMantissa_le
    rwa [heq]
  obtain ⟨h0, hr24, hround⟩ | ⟨hcarry, hround⟩ | ⟨-, hround⟩ :=
    round_of_shift (s := .positive) hfirst rfl hgridLow (hhi.trans hlt)
  · have hc : Canonical (.finite .positive _ (grid n f) h0) :=
      ⟨hgridLow, hgridHigh.trans htop, hr24, fun hg => (hq hg).trans hlo⟩
    rw [hround, unpack_pack hc]
    exact ⟨rfl, rank_le_of_grid hgridLow hr24.le hgridHigh hsame
      fun hbelow => hnormal (hgridLow.trans_lt hbelow)⟩
  · have hbelow : grid n f < e := by
      by_contra hnot
      have hle := hsame (by omega)
      omega
    have h23 := hnormal (by omega)
    have hc : Canonical (.finite .positive (2 ^ 23) (grid n f + 1) (by decide)) :=
      ⟨by omega, by omega, by decide, fun _ => le_refl _⟩
    rw [hround, unpack_pack hc]
    exact ⟨rfl, rank_le_of_grid (by omega) (by decide) hbelow (fun _ => h23) fun _ => h23⟩
  · rw [hround]
    refine ⟨rfl, le_rfl, ?_⟩
    simp only [rank, Sign.apply]
    change (0 : ℤ) ≤ _
    omega

/-! ## Fractions -/

theorem rank_one : rank (unpacked (Scalar.instOfNat 1).ofNat) = 127 * 2 ^ 23 := by decide +kernel

theorem le_of_rank_le_one {s : Sign} {m : ℕ} {e : ℤ} {h : 0 < m} (hx : Canonical (.finite s m e h))
    (h0 : 0 ≤ rank (.finite s m e h)) (h1 : rank (.finite s m e h) ≤ 127 * 2 ^ 23) :
    s = .positive ∧ e ≤ 0 ∧ m ≤ 2 ^ (-e).toNat := by
  have hrank := rank_abs_lt hx
  obtain ⟨hlow, -, hm, hnormal⟩ := hx
  cases s with
  | negative =>
    simp only [rank, Sign.apply] at h0
    omega
  | positive =>
    simp only [rank, Sign.apply] at h1
    have hexp : e ≤ -23 := by
      by_contra hnot
      have h23 := hnormal (by omega)
      omega
    refine ⟨rfl, by omega, ?_⟩
    by_cases heq : e = -23
    · subst heq
      change m ≤ 2 ^ 23
      omega
    · have hpow : 2 ^ 24 ≤ 2 ^ (-e).toNat := Nat.pow_le_pow_right (by decide) (by omega)
      omega

theorem unpacked_mul (a b : Float32) :
    unpacked (a * b) = unpack .binary32
      (pack .binary32 (mul .binary32 (unpacked a) (unpacked b))) := rfl

theorem le_grid_mul {s t : Sign} {m n : ℕ} {e f : ℤ} {h : 0 < m} {k : 0 < n}
    (hx : Canonical (.finite s m e h)) (hy : Canonical (.finite t n f k)) :
    e + f ≤ grid (m * n) (e + f) := by
  obtain ⟨hle, -, -, hm⟩ := hx
  obtain ⟨hlf, -, -, hn⟩ := hy
  unfold grid
  by_cases hleast : e = -149 ∧ f = -149
  · omega
  · have hproduct : 2 ^ 23 ≤ m * n := by
      by_cases he : e = -149
      · exact (hn (by omega)).trans (Nat.le_mul_of_pos_left n h)
      · exact (hm (by omega)).trans (Nat.le_mul_of_pos_right m k)
    have hlog := (Nat.le_log2 (by omega)).2 hproduct
    omega

theorem rank_packed_zero (s : Sign) :
    (unpack .binary32 (pack .binary32 (.zero s))).isNaN = false ∧
      rank (unpack .binary32 (pack .binary32 (.zero s))) = 0 := by
  cases s <;> exact ⟨rfl, rfl⟩

theorem rank_mul_le {x y : UnpackedFloat} (hx : Canonical x) (hy : Canonical y)
    (fx : x.isFinite = true) (fy : y.isFinite = true) (px : 0 ≤ rank x)
    (hone : rank x ≤ 127 * 2 ^ 23) (py : 0 ≤ rank y) :
    (unpack .binary32 (pack .binary32 (mul .binary32 x y))).isNaN = false ∧
    0 ≤ rank (unpack .binary32 (pack .binary32 (mul .binary32 x y))) ∧
    rank (unpack .binary32 (pack .binary32 (mul .binary32 x y))) ≤ rank y := by
  by_cases hzero : ∃ s, mul .binary32 x y = .zero s
  · obtain ⟨s, hzero⟩ := hzero
    obtain ⟨hnan, hrank⟩ := rank_packed_zero s
    rw [hzero]
    exact ⟨hnan, hrank.ge, hrank.trans_le py⟩
  cases x with
  | notANumber => cases fx
  | infinity => cases fx
  | zero s =>
    cases y with
    | notANumber => cases fy
    | infinity => cases fy
    | _ => exact absurd ⟨_, rfl⟩ hzero
  | finite s m e h =>
    cases y with
    | notANumber => cases fy
    | infinity => cases fy
    | zero t => exact absurd ⟨_, rfl⟩ hzero
    | finite t n f k =>
      obtain ⟨rfl, he, hm⟩ := le_of_rank_le_one hx px hone
      cases t with
      | negative =>
        have hrank := rank_abs_lt hy
        simp only [rank, Sign.apply] at py
        omega
      | positive =>
        have hproduct : m * n ≤ n * 2 ^ (f - (e + f)).toNat := by
          have hshift : f - (e + f) = -e := by omega
          rw [hshift, mul_comm]
          exact Nat.mul_le_mul_left n hm
        exact rank_round_le hy (by omega) (le_grid_mul hx hy) (Nat.mul_pos h k).ne' hproduct

theorem mul_between {x y : Float32} (h0 : (Scalar.instOfNat 0).ofNat ≤ x)
    (h1 : x ≤ (Scalar.instOfNat 1).ofNat) (hy : (Scalar.instOfNat 0).ofNat ≤ y)
    (hfinite : (unpacked y).isFinite = true) :
    (Scalar.instOfNat 0).ofNat ≤ x * y ∧ x * y ≤ y := by
  have hlow : rank (unpacked (Scalar.instOfNat 0).ofNat) = 0 := rfl
  rw [le_iff, hlow] at h0 hy
  rw [le_iff, rank_one] at h1
  have htop : (127 * 2 ^ 23 : ℤ) < top := by decide
  have hx : (unpacked x).isFinite = true := finite_of_rank h0.2.1 (by omega) (by omega)
  obtain ⟨hnan, hnonneg, hle⟩ :=
    rank_mul_le (unpacked_canonical x) (unpacked_canonical y) hx hfinite h0.2.2 h1.2.2 hy.2.2
  rw [le_iff, le_iff, hlow, unpacked_mul]
  exact ⟨⟨rfl, hnan, hnonneg⟩, hnan, hy.2.1, hle⟩

/-! ## Whole parts -/

theorem round_whole {s : Sign} {r : ℕ} {t : ℤ} (hr : r < 2 ^ 24) (ht : -149 ≤ t) (h0 : 0 < r) :
    roundWithAccuracy .binary32 s r t .exact = .finite s r t h0 := by
  unfold roundWithAccuracy
  have hrounded : (ExtendedMantissa.mk r false false).roundedMantissa = r := rfl
  simp only [shift_whole hr ht, hrounded, dif_neg h0.ne']

theorem unpacked_ofNat {n : ℕ} (h0 : 0 < n) (hn : n < 2 ^ 24) :
    ∃ h, unpacked (Scalar.ofNat n) = .finite .positive (n * 2 ^ (23 - n.log2)) (n.log2 - 23) h ∧
      Canonical (.finite .positive (n * 2 ^ (23 - n.log2)) (n.log2 - 23) h) := by
  have hlog : n.log2 < 24 := (Nat.log2_lt h0.ne').2 hn
  have hpos : 0 < n * 2 ^ (23 - n.log2) := Nat.mul_pos h0 (Nat.two_pow_pos _)
  have hlow : 2 ^ 23 ≤ n * 2 ^ (23 - n.log2) := by
    have hsplit : 2 ^ 23 = 2 ^ n.log2 * 2 ^ (23 - n.log2) := by
      rw [← Nat.pow_add]
      congr 1
      omega
    rw [hsplit]
    exact Nat.mul_le_mul_right _ (Nat.log2_self_le h0.ne')
  have hhigh : n * 2 ^ (23 - n.log2) < 2 ^ 24 := by
    have hsplit : 2 ^ 24 = 2 ^ (n.log2 + 1) * 2 ^ (23 - n.log2) := by
      rw [← Nat.pow_add]
      congr 1
      omega
    rw [hsplit]
    exact Nat.mul_lt_mul_of_pos_right Nat.lt_log2_self (Nat.two_pow_pos _)
  have hc : Canonical (.finite .positive (n * 2 ^ (23 - n.log2)) (n.log2 - 23) hpos) :=
    ⟨by omega, by omega, hhigh, fun _ => hlow⟩
  have hword : n.toUInt64.toNat = n := UInt64.toNat_ofNat_of_lt (by rw [UInt64.size]; omega)
  have hround : UnpackedFloat.round .binary32 .positive n 0 =
      .finite .positive (n * 2 ^ (23 - n.log2)) (n.log2 - 23) hpos := by
    have hgrid : grid n 0 = n.log2 - 23 := by
      unfold grid
      omega
    have hshift : (0 - grid n 0).toNat = 23 - n.log2 := by omega
    have hexp : (0 : ℤ) - (23 - n.log2 : ℕ) = n.log2 - 23 := by omega
    rw [← round_whole hhigh (by omega) hpos]
    simp only [UnpackedFloat.round, decreaseExponent, targetExponent_eq, hshift, hexp,
      Nat.shiftLeft_eq]
  have hunpacked : unpacked (Scalar.ofNat n) =
      unpack .binary32
        (pack .binary32 (UnpackedFloat.normalize .binary32 n.toUInt64.toNat 0 .positive)) := rfl
  rw [hword, normalize_of_pos h0, hround, unpack_pack hc] at hunpacked
  exact ⟨hpos, hunpacked, hc⟩

theorem toNat_ofNatClamp_le (n : ℕ) : (UInt64.ofNatClamp n).toNat ≤ n := by
  unfold UInt64.ofNatClamp
  split
  · exact le_rfl
  · next hlarge => exact (Nat.sub_le _ 1).trans (not_lt.1 hlarge)

theorem roundToInt_of_small {m : ℕ} {e : ℤ} (he : e ≤ 0) :
    roundToInt .positive m e = (m / 2 ^ (-e).toNat : ℕ) := by
  have hshift : (e - 0).toNat = 0 := by omega
  have hback : (0 - e).toNat = (-e).toNat := by omega
  have hexp : e - (0 : ℕ) = e := by omega
  simp only [roundToInt, decreaseExponent, shiftToExponent, hshift, Nat.shiftLeft_zero, hexp,
    hback, Sign.apply]
  exact congrArg Nat.cast (shiftRight_mantissa _ _)

theorem finite_ofNat {n : ℕ} (hn : n < 2 ^ 24) :
    0 ≤ rank (unpacked (Scalar.ofNat n)) ∧ (unpacked (Scalar.ofNat n)).isFinite = true := by
  rcases Nat.eq_zero_or_pos n with rfl | hpos
  · exact ⟨le_rfl, rfl⟩
  · obtain ⟨_, hunpacked, hc⟩ := unpacked_ofNat hpos hn
    rw [hunpacked]
    exact ⟨(rank_abs_lt hc).1.le, rfl⟩

theorem whole_le {m n : ℕ} {e : ℤ} {h : 0 < m} (hx : Canonical (.finite .positive m e h))
    (hn : n < 2 ^ 24) (hle : rank (.finite .positive m e h) ≤ rank (unpacked (Scalar.ofNat n))) :
    roundToInt .positive m e ≤ n := by
  have hrank := rank_abs_lt hx
  obtain ⟨hlow, -, hm, hnormal⟩ := hx
  have hpos : 0 < n := by
    apply Nat.pos_of_ne_zero
    rintro rfl
    have hzero : rank (unpacked (Scalar.ofNat 0)) = 0 := rfl
    rw [hzero] at hle
    simp only [rank, Sign.apply] at hle
    omega
  obtain ⟨_, hunpacked, -, -, hk, hk23⟩ := unpacked_ofNat hpos hn
  have hlog : n.log2 < 24 := (Nat.log2_lt hpos.ne').2 hn
  rw [hunpacked] at hle
  simp only [rank, Sign.apply] at hle
  have h23 := hk23 (by omega)
  have hexp : e ≤ n.log2 - 23 := by
    by_contra hnot
    have hm23 := hnormal (by omega)
    omega
  rw [roundToInt_of_small (by omega), Nat.cast_le]
  apply Nat.div_le_of_le_mul
  rw [mul_comm]
  by_cases heq : e = n.log2 - 23
  · have hshift : (-e).toNat = 23 - n.log2 := by omega
    rw [hshift]
    omega
  · -- one place further down, all 24 bits are below the number
    have hmore : n * 2 ^ (23 - n.log2) * 2 ≤ n * 2 ^ (-e).toNat := by
      rw [mul_assoc, ← Nat.pow_succ]
      exact Nat.mul_le_mul_left n (Nat.pow_le_pow_right (by decide) (by omega))
    omega

theorem truncate_le {x : Float32} {n : ℕ} (hn : n < 2 ^ 24) (h : x ≤ Scalar.ofNat n) (bound : ℕ) :
    Scalar.truncate bound x ≤ n := by
  have hx := unpacked_canonical x
  obtain ⟨hlow, hfinite⟩ := finite_ofNat hn
  obtain ⟨-, htop⟩ := rank_lt_top (unpacked_canonical _) hfinite
  rw [le_iff] at h
  obtain ⟨hnan, -, hle⟩ := h
  have htrunc : Scalar.truncate bound x ≤ (toInt 0 (UInt64.size - 1) (unpacked x)).toNat :=
    (min_le_right _ _).trans (toNat_ofNatClamp_le _)
  apply htrunc.trans
  rw [Int.toNat_le]
  generalize unpacked x = u at *
  cases u with
  | notANumber => cases hnan
  | infinity s =>
    cases s with
    | negative => exact Int.natCast_nonneg n
    | positive => exact absurd (hle.trans_lt htop) (lt_irrefl _)
  | zero s => exact Int.natCast_nonneg n
  | finite s m e h =>
    cases s with
    | negative =>
      change -_ ≤ (n : ℤ)
      omega
    | positive => exact whole_le hx hn hle

theorem truncate_mul_le {x : Float32} (h0 : (Scalar.instOfNat 0).ofNat ≤ x)
    (h1 : x ≤ (Scalar.instOfNat 1).ofNat) {bound : ℕ} (hbound : bound < 2 ^ 24) (n : ℕ) :
    Scalar.truncate bound (x * Scalar.ofNat n) ≤ n := by
  by_cases hn : bound ≤ n
  · exact (min_le_left _ _).trans hn
  · have hsmall : n < 2 ^ 24 := by omega
    obtain ⟨hlow, hfinite⟩ := finite_ofNat hsmall
    have hnonneg : (Scalar.instOfNat 0).ofNat ≤ (Scalar.ofNat n : Float32) :=
      le_iff.2 ⟨rfl, isNaN_of_isFinite hfinite, hlow⟩
    exact truncate_le hsmall (mul_between h0 h1 hnonneg hfinite).2 bound

end Barrage.Single
