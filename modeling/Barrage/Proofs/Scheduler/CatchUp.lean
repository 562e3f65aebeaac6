import Barrage.Proofs.Planned
import Barrage.Proofs.Scheduler.Discipline

/-! # Catching up

With one delay for all firings, an update over several delays fires once for each, as many updates
over one delay do, and both leave the same scheduler. This holds as far as an update may go: a
longer one breaks off, although no delay is zero, and leaves the rest of its firings to the next
updates. -/

namespace Barrage

structure Rhythm.Steady {σ : Type} (r : Rhythm Exact σ) (d : ℚ) : Prop where
  delay_eq : ∀ count left context, (r.delay count left context).1 = .finite d
  goes_on : ∀ firing context, (r.act firing context).1 = true

theorem Rhythm.steady_every (d : ℚ) : (Rhythm.every (Exact.finite d)).Steady d :=
  ⟨fun _ _ _ => rfl, fun _ _ => rfl⟩

namespace Scheduler

variable {σ : Type} {r : Rhythm Exact σ} {d T : ℚ} {k n : ℕ}

/-- A scheduler at the time `T`, with `k` whole delays in its window. -/
def owing (d T : ℚ) (k n : ℕ) : Scheduler Exact :=
  ⟨.finite d, .finite (k * d), .finite T, n, true⟩

theorem owing_isDue (hd : slack < d) : (owing d T k n).isDue = true ↔ 0 < k := by
  have hplanned : Planned T (T + d - k * d) (owing d T k n) := ⟨d, k * d, rfl, rfl, rfl⟩
  have hpos : 0 < d := slack_pos.trans hd
  rw [hplanned.isDue_iff]
  constructor
  · intro hle
    by_contra hzero
    obtain rfl : k = 0 := by omega
    rw [Nat.cast_zero, zero_mul] at hle
    linarith
  · intro hk
    have hone : (1 : ℚ) ≤ k := by exact_mod_cast hk
    have hmul := mul_le_mul_of_nonneg_right hone hpos.le
    linarith [slack_pos]

theorem owing_fire (hr : r.Steady d) (hd : 0 ≤ d) (context : σ) :
    ((owing d T (k + 1) n).fire r context).1 = owing d T k (n + 1) := by
  have hrest : Scalar.max ((owing d T (k + 1) n).window - (owing d T (k + 1) n).delay) 0 =
      .finite (k * d) := by
    change Scalar.max (Exact.finite ((k + 1 : ℕ) * d) - .finite d) 0 = _
    rw [Exact.finite_sub, Exact.max_zero, Nat.cast_add_one, add_one_mul, add_sub_cancel_right,
      max_eq_left (mul_nonneg (Nat.cast_nonneg k) hd)]
  simp only [fire, hrest, hr.delay_eq, hr.goes_on]
  rfl

/-- Of the firings it owes, a scheduler makes as many as it may. -/
theorem owing_fireDue (hr : r.Steady d) (hd : slack < d) (bound : ℕ) (context : σ) :
    (fireDue r bound (owing d T k n) context).1 = owing d T (k - bound) (n + min k bound) := by
  induction bound generalizing k n context with
  | zero => simp [fireDue]
  | succ bound ih =>
    unfold fireDue
    by_cases hdue : (owing d T k n).isDue = true
    · obtain ⟨j, rfl⟩ := Nat.exists_eq_succ_of_ne_zero ((owing_isDue hd).1 hdue).ne'
      have hfire := owing_fire (T := T) (k := j) (n := n) hr (slack_pos.trans hd).le context
      have hgoes : ((owing d T (j + 1) n).fire r context).1.running = true := by rw [hfire]; rfl
      rw [if_pos hdue]
      simp only [hgoes, if_true]
      rw [hfire, ih]
      congr 1
      · omega
      · omega
    · have hzero : k = 0 := by
        by_contra hk
        exact hdue ((owing_isDue hd).2 (Nat.pos_of_ne_zero hk))
      rw [if_neg hdue, hzero]
      simp

theorem owing_update (hr : r.Steady d) (hd : slack < d) (hk : 0 < k) (context : σ) :
    ((owing d T 0 n).update r context (.finite (k * d))).1 =
      owing d (T + k * d) (k - maxFirings) (n + min k maxFirings) := by
  have hpos : 0 < k * d := mul_pos (Nat.cast_pos.2 hk) (slack_pos.trans hd)
  have hdt : ¬ Exact.finite (k * d) ≤ 0 := by simpa using hpos
  have hawait : (owing d T 0 n).await (.finite (k * d)) = owing d (T + k * d) k n := by
    simp [Scheduler.await, owing]
  rw [update_eq r context hdt rfl, hawait]
  exact owing_fireDue hr hd maxFirings context

/-! ## Lives in whole delays -/

theorem start_owing (hr : r.Steady d) (context : σ) : (start r none context).1 = owing d 0 0 0 := by
  simp [start, ofDelay, owing, hr.delay_eq]

theorem life_of_one (hr : r.Steady d) (hd : slack < d) (hk : 0 < k) (context : σ) :
    (life r none context [.finite (k * d)]).1 = owing d (k * d) (k - maxFirings)
      (min k maxFirings) := by
  change ((start r none context).1.update r (start r none context).2 (.finite (k * d))).1 = _
  rw [start_owing hr, owing_update hr hd hk, zero_add, zero_add]

theorem life_of_many (hr : r.Steady d) (hd : slack < d) (k : ℕ) (context : σ) :
    (life r none context (List.replicate k (.finite d))).1 = owing d (k * d) 0 k := by
  induction k with
  | zero => simpa [life] using start_owing hr context
  | succ k ih =>
    have hone := owing_update (T := k * d) (n := k) hr hd one_pos
      (life r none context (List.replicate k (.finite d))).2
    rw [List.replicate_succ', life_append, List.foldl_cons, List.foldl_nil, ih]
    rw [Nat.cast_one, one_mul] at hone
    rw [hone]
    congr 1
    push_cast
    ring

/-- One update over `k` delays and `k` updates over one are the same as long as an update may fire
`k` times. A longer update makes the firings that it may, and keeps the other delays in its
window. -/
theorem one_update_catches_up (r : Rhythm Exact σ) (context : σ) (hr : r.Steady d) (hd : slack < d)
    (hk : 1 ≤ k) :
    (firings (record r none context [.finite (k * d)])).map Firing.count =
      List.range' 1 (min k maxFirings) ∧
    (life r none context [.finite (k * d)]).1 =
      ⟨.finite d, .finite ((k - maxFirings : ℕ) * d), .finite (k * d), min k maxFirings, true⟩ ∧
    (life r none context (List.replicate k (.finite d))).1 =
      ⟨.finite d, .finite 0, .finite (k * d), k, true⟩ ∧
    ((life r none context [.finite (k * d)]).1 =
      (life r none context (List.replicate k (.finite d))).1 ↔ k ≤ maxFirings) := by
  have hone := life_of_one hr hd hk context
  have hmany := life_of_many hr hd k context
  refine ⟨?_, hone, ?_, ?_⟩
  · rw [firing_counts, hone]
    rfl
  · rw [hmany, owing, Nat.cast_zero, zero_mul]
  · rw [hone, hmany]
    constructor
    · intro hsame
      have hcount : min k maxFirings = k := congrArg Scheduler.count hsame
      exact hcount ▸ min_le_right k maxFirings
    · intro hle
      rw [Nat.sub_eq_zero_of_le hle, min_eq_left hle]

theorem longest_update_catches_up :
    (Rhythm.every (Exact.finite 1)).Steady 1 ∧ slack < 1 ∧
    (firings (record (.every (Exact.finite 1)) none () [.finite ((1024 : ℕ) * 1)])).map
      Firing.count = List.range' 1 1024 ∧
    (life (.every (Exact.finite 1)) none () [.finite ((1024 : ℕ) * 1)]).1 =
      (life (.every (Exact.finite 1)) none () (List.replicate 1024 (.finite 1))).1 := by
  have hslack : slack < 1 := by norm_num [slack]
  have hsteady := Rhythm.steady_every 1
  obtain ⟨hcounts, -, -, hsame⟩ := one_update_catches_up (.every (.finite 1)) () hsteady hslack
    (k := 1024) (by decide)
  exact ⟨hsteady, hslack, hcounts, hsame.2 (le_refl _)⟩

/-- One delay more is too many. -/
theorem longer_update_falls_behind :
    (Rhythm.every (Exact.finite 1)).Steady 1 ∧ slack < 1 ∧
    (life (.every (Exact.finite 1)) none () [.finite ((1025 : ℕ) * 1)]).1.count = 1024 ∧
    (life (.every (Exact.finite 1)) none () (List.replicate 1025 (.finite 1))).1.count = 1025 := by
  have hslack : slack < 1 := by norm_num [slack]
  have hsteady := Rhythm.steady_every 1
  refine ⟨hsteady, hslack, ?_, ?_⟩
  · rw [life_of_one hsteady hslack (by decide : 0 < 1025) ()]
    rfl
  · rw [life_of_many hsteady hslack 1025 ()]
    rfl

end Scheduler

end Barrage
