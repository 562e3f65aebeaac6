import Barrage.Proofs.Firing
import Barrage.Scalar.Exact

/-! # When a scheduler fires next

In exact arithmetic a delay ends at a moment that does not depend on how time is cut into updates. A
firing may come early by the tolerance, and then the next one is planned from the time of the
firing; it never is planned later than the delays add up to. -/

namespace Barrage

theorem Exact.max_finite (a b : ℚ) :
    Scalar.max (.finite a) (Exact.finite b) = .finite (max a b) := by
  unfold Scalar.max
  simp only [Exact.finite_le]
  rcases le_total a b with h | h
  · rw [if_pos h, max_eq_right h]
  · rcases h.eq_or_lt with rfl | hlt
    · simp
    · rw [if_neg (not_le.2 hlt), if_pos h, max_eq_left h]

theorem Exact.max_zero (a : ℚ) : Scalar.max (.finite a) (0 : Exact) = .finite (max a 0) :=
  Exact.max_finite a 0

theorem Exact.clamp_eq {a b : ℚ} (h0 : 0 ≤ a) (hle : a ≤ b) :
    Scalar.clamp (.finite a) 0 (.finite b) = .ok (Exact.finite a) := by
  have hbounds : (0 : Exact) ≤ .finite b := by simpa using h0.trans hle
  have hlow : ¬ (Exact.finite a) < 0 := by simpa using h0
  have hhigh : ¬ (Exact.finite b) < .finite a := by simpa using hle
  unfold Scalar.clamp
  rw [if_pos hbounds, if_neg hlow, if_neg hhigh]

namespace Scheduler

def slack : ℚ := 1 / 100000

theorem tolerance_eq : (tolerance : Exact) = .finite slack := by
  simp [tolerance, slack]

/-- Seen at the time `T`, the delay ends at the time `τ`. -/
def Planned (T τ : ℚ) (s : Scheduler Exact) : Prop :=
  ∃ d w, s.delay = .finite d ∧ s.window = .finite w ∧ τ = T + d - w

variable {σ : Type} {T τ p : ℚ} {s : Scheduler Exact} {r : Rhythm Exact σ} {context : σ}

theorem planned_ofDelay (T o : ℚ) : Planned T (T + o) (ofDelay (.finite o)) :=
  ⟨o, 0, rfl, rfl, (sub_zero _).symm⟩

theorem Planned.await (h : Planned T τ s) (q : ℚ) : Planned (T + q) τ (s.await (.finite q)) := by
  obtain ⟨d, w, hd, hw, rfl⟩ := h
  refine ⟨d, w + q, hd, ?_, by ring⟩
  simp [Scheduler.await, hw]

theorem Planned.isDue_iff (h : Planned T τ s) : s.isDue = true ↔ τ ≤ T + slack := by
  obtain ⟨d, w, hd, hw, rfl⟩ := h
  unfold isDue
  rw [hd, hw, tolerance_eq, Bool.and_eq_true, decide_eq_true_iff, Exact.finite_add, Exact.finite_le]
  constructor
  · rintro ⟨-, hle⟩
    linarith
  · intro hle
    exact ⟨rfl, by linarith⟩

theorem Planned.rest_eq (h : Planned T τ s) :
    Scalar.max (s.window - s.delay) 0 = .finite (T - min τ T) := by
  obtain ⟨d, w, hd, hw, rfl⟩ := h
  rw [hd, hw, Exact.finite_sub, Exact.max_zero]
  congr 1
  rcases le_total (T + d - w) T with hle | hle
  · rw [min_eq_left hle, max_eq_left (by linarith)]
    ring
  · rw [min_eq_right hle, max_eq_right (by linarith)]
    ring

/-- A new delay counts from the end of the last, or from now if that was still to come. -/
theorem Planned.next {t : Scheduler Exact} (h : Planned T τ s) (hdelay : t.delay = .finite p)
    (hwindow : t.window = Scalar.max (s.window - s.delay) 0) : Planned T (p + min τ T) t :=
  ⟨p, T - min τ T, hdelay, hwindow.trans h.rest_eq, by ring⟩

theorem Planned.fire (h : Planned T τ s) (hdelay : ∀ n w c, (r.delay n w c).1 = .finite p) :
    Planned T (p + min τ T) (s.fire r context).1 :=
  h.next (hdelay _ _ _) rfl

/-- The next firing is planned no later than `e`, and no more than `n` tolerances before. -/
def OnTime (T e : ℚ) (n : ℕ) (s : Scheduler Exact) : Prop :=
  ∃ τ, Planned T τ s ∧ e - n * slack ≤ τ ∧ τ ≤ e

variable {e : ℚ} {n : ℕ}

theorem slack_pos : 0 < slack := by norm_num [slack]

theorem OnTime.await (h : OnTime T e n s) (q : ℚ) : OnTime (T + q) e n (s.await (.finite q)) := by
  obtain ⟨τ, hτ, hlo, hhi⟩ := h
  exact ⟨τ, hτ.await q, hlo, hhi⟩

theorem OnTime.next {t : Scheduler Exact} (h : OnTime T e n s) (hdue : s.isDue = true)
    (hdelay : t.delay = .finite p) (hwindow : t.window = Scalar.max (s.window - s.delay) 0) :
    OnTime T (e + p) (n + 1) t := by
  obtain ⟨τ, hτ, hlo, hhi⟩ := h
  have hle := hτ.isDue_iff.1 hdue
  refine ⟨_, hτ.next hdelay hwindow, ?_, ?_⟩
  · have hmin : τ - slack ≤ min τ T := le_min (by linarith [slack_pos]) (by linarith)
    push_cast
    linarith
  · have hmin : min τ T ≤ τ := min_le_left _ _
    linarith

theorem OnTime.fire (h : OnTime T e n s) (hdue : s.isDue = true)
    (hdelay : ∀ n w c, (r.delay n w c).1 = .finite p) :
    OnTime T (e + p) (n + 1) (s.fire r context).1 :=
  h.next hdue (hdelay _ _ _) rfl

/-- The lag dates a firing to the time it was due, or before by the tolerances. -/
theorem OnTime.dated (h : OnTime T e n s) (hdue : s.isDue = true) :
    ∃ lag, Scalar.max (s.window - s.delay) 0 = .finite lag ∧
      e - (n + 1) * slack ≤ T - lag ∧ T - lag ≤ e := by
  obtain ⟨τ, hτ, hlo, hhi⟩ := h
  have hle := hτ.isDue_iff.1 hdue
  have hlow : τ - slack ≤ min τ T := le_min (by linarith [slack_pos]) (by linarith)
  have hhigh : min τ T ≤ τ := min_le_left _ _
  refine ⟨T - min τ T, hτ.rest_eq, ?_, ?_⟩
  · linarith
  · linarith

theorem OnTime.le_of_due (h : OnTime T e n s) (hdue : s.isDue = true) :
    e ≤ T + (n + 1) * slack := by
  obtain ⟨τ, hτ, hlo, -⟩ := h
  have hle := hτ.isDue_iff.1 hdue
  linarith

theorem Planned.beyond_of_not_due (h : Planned T τ s) (hdue : s.isDue = false) : T + slack < τ := by
  by_contra hle
  rw [h.isDue_iff.2 (not_lt.1 hle)] at hdue
  cases hdue

theorem Planned.lt_of_not_due (h : Planned T τ s) (hdue : s.isDue = false) : T < τ := by
  linarith [slack_pos, h.beyond_of_not_due hdue]

theorem OnTime.beyond_of_not_due (h : OnTime T e n s) (hdue : s.isDue = false) : T + slack < e := by
  obtain ⟨τ, hτ, -, hhi⟩ := h
  exact (hτ.beyond_of_not_due hdue).trans_le hhi

theorem OnTime.lt_of_not_due (h : OnTime T e n s) (hdue : s.isDue = false) : T < e := by
  linarith [slack_pos, h.beyond_of_not_due hdue]

end Scheduler

end Barrage
