import Barrage.Proofs.Measured
import Barrage.Scalar.Exact

/-! # The worth of a script's numbers

In exact arithmetic, a number that leaves nothing to chance is worth a rational that depends on the
tempo alone. -/

namespace Barrage

def Exact.value : Exact → ℚ
  | finite q => q
  | _ => 0

namespace Number

/-- Given in rational numbers, without leaving anything to chance. -/
def isRational : Number Exact → Bool
  | literal x | beats x | pi x | turn x => x.isFinite
  | random .. => false

def beat (tempo : ℚ) : ℚ := if 0 < tempo then 60 / tempo else 0

def worth (tempo : ℚ) : Number Exact → ℚ
  | literal x => x.value
  | random .. => 0
  | beats count => count.value * beat tempo
  | pi factor => factor.value * (13176795 / 4194304)
  | turn count =>
    if count.value * beat tempo = 0 then 0
    else 2 * (13176795 / 4194304) / (count.value * beat tempo)

theorem isRandom_of_isRational {n : Number Exact} (h : n.isRational = true) :
    n.isRandom = false := by
  cases n with
  | random => cases h
  | _ => rfl

theorem secondsPerBeat_eq (tempo : ℚ) :
    secondsPerBeat (.finite tempo) = Exact.finite (beat tempo) := by
  unfold secondsPerBeat beat
  by_cases h : 0 < tempo
  · have h' : (0 : Exact) < .finite tempo := by simpa using h
    rw [if_pos h, if_pos h', Exact.literal_eq, Exact.finite_div _ h.ne']
    norm_num
  · have h' : ¬ (0 : Exact) < .finite tempo := by simpa using h
    rw [if_neg h, if_neg h', Exact.literal_eq]
    norm_num

theorem pi_eq : (Scalar.pi : Exact) = .finite (13176795 / 4194304) := by
  unfold Scalar.pi
  rw [Exact.ofNat_eq, Exact.ofNat_eq, Exact.finite_div _ (by norm_num)]
  norm_num

theorem isZero_finite (q : ℚ) : Scalar.isZero (Exact.finite q) = decide (q = 0) := by
  unfold Scalar.isZero
  rw [← Bool.decide_and]
  simp [le_antisymm_iff]

theorem resolve_rational {n : Number Exact} (h : n.isRational = true) (tempo : ℚ) (w : Words) :
    n.resolve (.finite tempo) w = .ok (.finite (n.worth tempo), w) := by
  cases n with
  | random => cases h
  | literal x =>
    obtain ⟨q, rfl⟩ := Exact.isFinite_eq.1 h
    rfl
  | beats x =>
    obtain ⟨q, rfl⟩ := Exact.isFinite_eq.1 h
    change Except.ok (Exact.finite q * secondsPerBeat (.finite tempo), w) = _
    rw [secondsPerBeat_eq]
    rfl
  | pi x =>
    obtain ⟨q, rfl⟩ := Exact.isFinite_eq.1 h
    change Except.ok (Exact.finite q * Scalar.pi, w) = _
    rw [pi_eq]
    rfl
  | turn x =>
    obtain ⟨q, rfl⟩ := Exact.isFinite_eq.1 h
    change Except.ok (if Scalar.isZero (Exact.finite q * secondsPerBeat (.finite tempo)) then 0
      else 2 * Scalar.pi / (Exact.finite q * secondsPerBeat (.finite tempo)), w) = _
    rw [secondsPerBeat_eq, pi_eq, Exact.finite_mul, isZero_finite]
    by_cases hz : q * beat tempo = 0
    · have hworth : (turn (Exact.finite q)).worth tempo = 0 := if_pos hz
      rw [hworth, decide_eq_true hz]
      simp
    · have hworth : (turn (Exact.finite q)).worth tempo =
          2 * (13176795 / 4194304) / (q * beat tempo) := if_neg hz
      rw [hworth, decide_eq_false hz, Exact.literal_eq 2, Exact.finite_mul, Exact.finite_div _ hz]
      simp

/-- Given in rational numbers; so is a range with rational ends. -/
def Rational : Number Exact → Prop
  | random lo hi => (∃ a, lo = .finite a) ∧ ∃ b, hi = .finite b
  | n => n.isRational = true

theorem uniformFrom_finite {lo scale : ℚ} {hi v : Exact} {repeats : ℕ} {w w' : Words}
    (h : Chance.uniformFrom (.finite lo) hi (.finite scale) repeats w = .ok (v, w')) :
    ∃ q, v = .finite q := by
  induction repeats generalizing w with
  | zero =>
    obtain ⟨rfl, -⟩ := Prod.mk.inj (Except.ok.inj h)
    exact ⟨lo, rfl⟩
  | succ repeats ih =>
    obtain ⟨u, w₁, -, h⟩ := draws_of_ok h
    have hfraction : (Scalar.ofNat (u >>> 9).toNat / Scalar.ofNat 0x800000 : Exact) =
        .finite ((u >>> 9).toNat / (0x800000 : ℕ)) := Exact.finite_div _ (by norm_num)
    dsimp only at h
    rw [hfraction] at h
    split at h
    · obtain ⟨rfl, -⟩ := Prod.mk.inj (Except.ok.inj h)
      exact ⟨_, rfl⟩
    · exact ih h

theorem resolve_finite {n : Number Exact} (h : n.Rational) {tempo : ℚ} {w w' : Words} {v : Exact}
    (hv : n.resolve (.finite tempo) w = .ok (v, w')) : ∃ q, v = .finite q := by
  cases n with
  | random lo hi =>
    obtain ⟨⟨a, rfl⟩, b, rfl⟩ := h
    by_cases hlt : Exact.finite a < .finite b
    · have hdraw : Chance.uniform (Exact.finite a) (.finite b) =
          Chance.uniformFrom (.finite a) (.finite b) (.finite (b - a)) Chance.maxRepeats := by
        simp [Chance.uniform]
      rw [resolve, if_pos hlt, hdraw] at hv
      exact uniformFrom_finite hv
    · rw [resolve, if_neg hlt] at hv
      obtain ⟨rfl, -⟩ := Prod.mk.inj (Except.ok.inj hv)
      exact ⟨a, rfl⟩
  | literal | beats | pi | turn =>
    rw [resolve_rational h] at hv
    exact ⟨_, (Prod.mk.inj (Except.ok.inj hv)).1.symm⟩

theorem eq_worth {n : Number Exact} {tempo : ℚ} {w w' : Words} {v : Exact} (h : n.isRational = true)
    (hv : n.resolve (.finite tempo) w = .ok (v, w')) : v = .finite (n.worth tempo) := by
  rw [resolve_rational h] at hv
  exact (Prod.mk.inj (Except.ok.inj hv)).1.symm

end Number

end Barrage
