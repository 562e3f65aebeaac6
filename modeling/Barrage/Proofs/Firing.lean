import Barrage.Scheduler
import Mathlib

/-! # Firing

What one firing keeps, an update keeps. A scheduler that finds itself due when an update begins
fires. -/

namespace Barrage

/-- What one rhythm does with contexts, the other does with their images. -/
structure Rhythm.Mirrors {α σ τ : Type} (r : Rhythm α σ) (image : σ → τ)
    (r' : Rhythm α τ) : Prop where
  delay_eq : ∀ count left c,
    r'.delay count left (image c) = ((r.delay count left c).1, image (r.delay count left c).2)
  act_eq : ∀ firing c, r'.act firing (image c) = ((r.act firing c).1, image (r.act firing c).2)

namespace Scheduler

variable {α σ : Type} [Scalar α] {r : Rhythm α σ} {s : Scheduler α} {context : σ} {dt : α}

/-- A scheduler when the time of an update has been added, before its first firing. -/
def await (s : Scheduler α) (dt : α) : Scheduler α :=
  { s with window := s.window + dt, total := s.total + dt }

theorem update_eq (r : Rhythm α σ) (context : σ) (hdt : ¬ dt ≤ 0) (hrun : s.running = true) :
    s.update r context dt = fireDue r maxFirings (s.await dt) context := by
  simp [update, await, hdt, hrun]

theorem update_stopped (r : Rhythm α σ) (hrun : s.running = false) (context : σ) (dt : α) :
    s.update r context dt = (s, context) := by
  simp [update, hrun]

theorem update_still (r : Rhythm α σ) (h : dt ≤ 0 ∨ s.running = false) (context : σ) :
    s.update r context dt = (s, context) := by
  rcases h with hdt | hstopped
  · rw [update, decide_eq_true hdt]
    rfl
  · exact update_stopped r hstopped context dt

theorem fireDue_induction {P : Scheduler α → σ → Prop}
    (step : ∀ s context, s.isDue = true → s.running = true → P s context →
      P (s.fire r context).1 (s.fire r context).2)
    (bound : ℕ) (hrun : s.running = true) (h : P s context) :
    P (fireDue r bound s context).1 (fireDue r bound s context).2 := by
  induction bound generalizing s context with
  | zero => exact h
  | succ bound ih =>
    unfold fireDue
    by_cases hdue : s.isDue = true
    · have hfire := step s context hdue hrun h
      rw [if_pos hdue]
      by_cases hgoes : (s.fire r context).1.running = true
      · simp only [hgoes, if_true]
        exact ih hgoes hfire
      · simp only [hgoes]
        exact hfire
    · rw [if_neg hdue]
      exact h

theorem update_induction {P : Scheduler α → σ → Prop} (hdt : ¬ dt ≤ 0) (hrun : s.running = true)
    (step : ∀ s context, s.isDue = true → s.running = true → P s context →
      P (s.fire r context).1 (s.fire r context).2)
    (h : P (s.await dt) context) : P (s.update r context dt).1 (s.update r context dt).2 := by
  rw [update_eq r context hdt hrun]
  exact fireDue_induction step maxFirings hrun h

/-- To allow one firing more changes nothing exactly if what goes on is left not due. -/
theorem fireDue_succ_eq_iff (bound : ℕ) (hrun : s.running = true) :
    fireDue r (bound + 1) s context = fireDue r bound s context ↔
      ((fireDue r bound s context).1.running = true →
        (fireDue r bound s context).1.isDue = false) := by
  induction bound generalizing s context with
  | zero =>
    have hnone : fireDue r 0 s context = (s, context) := rfl
    rw [hnone]
    by_cases hdue : s.isDue = true
    · have hone : fireDue r 1 s context = s.fire r context := by
        simp [fireDue, hdue]
      have hcount : (s.fire r context).1.count = s.count + 1 := rfl
      rw [hone]
      constructor
      · intro heq
        rw [heq] at hcount
        exact absurd hcount (Nat.ne_of_lt (Nat.lt_succ_self _))
      · intro hsettled
        rw [hsettled hrun] at hdue
        cases hdue
    · have hone : fireDue r 1 s context = (s, context) := by
        simp [fireDue, hdue]
      rw [hone]
      exact ⟨fun _ _ => Bool.eq_false_iff.2 hdue, fun _ => rfl⟩
  | succ bound ih =>
    unfold fireDue
    by_cases hdue : s.isDue = true
    · rw [if_pos hdue, if_pos hdue]
      by_cases hgoes : (s.fire r context).1.running = true
      · simp only [hgoes, if_true]
        exact ih hgoes
      · simp [hgoes]
    · rw [if_neg hdue, if_neg hdue]
      exact ⟨fun _ _ => Bool.eq_false_iff.2 hdue, fun _ => rfl⟩

theorem count_le_fireDue (bound : ℕ) (hrun : s.running = true) :
    s.count ≤ (fireDue r bound s context).1.count := by
  refine fireDue_induction (P := fun t _ => s.count ≤ t.count) ?_ bound hrun (le_refl _)
  intro t context _ _ hle
  exact Nat.le_succ_of_le hle

theorem count_lt_update (hdt : ¬ dt ≤ 0) (hrun : s.running = true)
    (hdue : (s.await dt).isDue = true) : s.count < (s.update r context dt).1.count := by
  rw [update_eq r context hdt hrun]
  unfold maxFirings fireDue
  rw [if_pos hdue]
  have hfire : ((s.await dt).fire r context).1.count = s.count + 1 := rfl
  by_cases hgoes : ((s.await dt).fire r context).1.running = true
  · simp only [hgoes, if_true]
    have hle : s.count + 1 ≤ (fireDue r 1023 ((s.await dt).fire r context).1
        ((s.await dt).fire r context).2).1.count := count_le_fireDue 1023 hgoes
    omega
  · simp only [hgoes]
    exact Nat.lt_succ_self _

theorem fireDue_count_le (r : Rhythm α σ) (bound : ℕ) (s : Scheduler α) (context : σ) :
    (fireDue r bound s context).1.count ≤ s.count + bound := by
  induction bound generalizing s context with
  | zero => exact le_refl _
  | succ bound ih =>
    unfold fireDue
    by_cases hdue : s.isDue = true
    · rw [if_pos hdue]
      have hcount : (s.fire r context).1.count = s.count + 1 := rfl
      by_cases hgoes : (s.fire r context).1.running = true
      · simp only [hgoes, if_true]
        have hle := ih (s.fire r context).1 (s.fire r context).2
        omega
      · simp only [hgoes]
        change s.count + 1 ≤ _
        omega
    · rw [if_neg hdue]
      exact Nat.le_add_right _ _

theorem update_count_le (r : Rhythm α σ) (s : Scheduler α) (context : σ) (dt : α) :
    (s.update r context dt).1.count ≤ s.count + maxFirings := by
  unfold update
  split
  · exact Nat.le_add_right _ _
  · exact fireDue_count_le r maxFirings _ context

/-- What goes on and has not used up its firings is not due. -/
theorem not_due_of_lt (bound : ℕ) (hgoes : (fireDue r bound s context).1.running = true)
    (hlt : (fireDue r bound s context).1.count < s.count + bound) :
    (fireDue r bound s context).1.isDue = false := by
  induction bound generalizing s context with
  | zero => exact absurd hlt (lt_irrefl _)
  | succ bound ih =>
    unfold fireDue at hgoes hlt ⊢
    by_cases hdue : s.isDue = true
    · rw [if_pos hdue] at hgoes hlt ⊢
      by_cases hnext : (s.fire r context).1.running = true
      · simp only [hnext, if_true] at hgoes hlt ⊢
        refine ih hgoes ?_
        change _ < s.count + 1 + bound
        omega
      · simp only [hnext] at hgoes
        exact absurd hgoes hnext
    · rw [if_neg hdue]
      exact Bool.eq_false_iff.2 hdue

/-! ## Rhythms that do the same -/

section Mirrors

variable {τ : Type} {image : σ → τ} {r' : Rhythm α τ}

theorem fire_mirrors (h : r.Mirrors image r') (s : Scheduler α) (context : σ) :
    s.fire r' (image context) = ((s.fire r context).1, image (s.fire r context).2) := by
  simp only [fire, h.act_eq, h.delay_eq]

theorem fireDue_mirrors (h : r.Mirrors image r') (bound : ℕ) (s : Scheduler α) (context : σ) :
    fireDue r' bound s (image context) = ((fireDue r bound s context).1,
      image (fireDue r bound s context).2) := by
  induction bound generalizing s context with
  | zero => rfl
  | succ bound ih =>
    unfold fireDue
    by_cases hdue : s.isDue = true
    · rw [if_pos hdue, if_pos hdue, fire_mirrors h]
      by_cases hgoes : (s.fire r context).1.running = true
      · simp only [hgoes, if_true]
        exact ih _ _
      · simp only [hgoes]
        rfl
    · rw [if_neg hdue, if_neg hdue]

/-- A scheduler does not depend on what its rhythm keeps in the context. -/
theorem update_mirrors (h : r.Mirrors image r') (s : Scheduler α) (context : σ) (dt : α) :
    s.update r' (image context) dt = ((s.update r context dt).1,
      image (s.update r context dt).2) := by
  unfold update
  split
  · rfl
  · exact fireDue_mirrors h maxFirings _ context

end Mirrors

end Scheduler

end Barrage
