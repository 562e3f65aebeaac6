import Barrage.Pattern.Volley
import Barrage.Proofs.Scheduler.Accuracy

/-! # The cadence of bursts

Shots of a burst are a spacing apart, and the next burst follows after what a period leaves when a
spacing is taken off for each shot, which is never next to nothing. So a cycle of shots is a spacing
shorter than the period, unless the spacings fill the period, and no update of a second at most has
more shots due than it may fire. -/

namespace Barrage.Pattern

open Scheduler (life slack)

/-! ## Delays -/

/-- The gap between bursts of `n` shots, for a period `p` and a spacing `s`. -/
def gapOf (n : ℕ) (p s : ℚ) : ℚ :=
  if 1 / 100 < p - n * s then p - n * s else max s (1 / 100)

def delayOf (n : ℕ) (p s : ℚ) (count : ℕ) : ℚ := if n ∣ count then gapOf n p s else s

def cycleOf (n : ℕ) (p s : ℚ) : ℚ := (n - 1) * s + gapOf n p s

variable {n : ℕ} {p s : ℚ}

theorem le_gapOf (n : ℕ) (p s : ℚ) : 1 / 100 ≤ gapOf n p s := by
  unfold gapOf
  split_ifs with h
  · exact h.le
  · exact le_max_right _ _

theorem delayOf_nonneg (hs : 0 ≤ s) (count : ℕ) : 0 ≤ delayOf n p s count := by
  unfold delayOf
  split_ifs
  · exact le_trans (by norm_num) (le_gapOf n p s)
  · exact hs

theorem delayOf_of_dvd {count : ℕ} (h : n ∣ count) : delayOf n p s count = gapOf n p s := if_pos h

/-- Of as many delays in a row as a burst has shots, one is a gap and the others are spacings. -/
theorem sum_delayOf (hn : 0 < n) (p s : ℚ) (c : ℕ) :
    ∑ i ∈ Finset.range n, delayOf n p s (c + 1 + i) = cycleOf n p s := by
  obtain ⟨m, rfl⟩ := Nat.exists_eq_succ_of_ne_zero hn.ne'
  induction c with
  | zero =>
    have hspacings : ∀ i ∈ Finset.range m, delayOf (m + 1) p s (0 + 1 + i) = s := by
      intro i hi
      have hlt := Finset.mem_range.1 hi
      exact if_neg (Nat.not_dvd_of_pos_of_lt (by omega) (by omega))
    have hlast : m + 1 ∣ 0 + 1 + m := ⟨1, by ring⟩
    rw [Finset.sum_range_succ, Finset.sum_congr rfl hspacings, delayOf_of_dvd hlast, cycleOf]
    simp
  | succ c ih =>
    -- the window moves on by one shot, and what leaves it is what enters it
    have hsame : delayOf (m + 1) p s (c + 1 + (m + 1)) = delayOf (m + 1) p s (c + 1) :=
      if_congr Nat.dvd_add_self_right rfl rfl
    have hstays : ∀ i, c + 1 + 1 + i = c + 1 + (i + 1) := fun i => by omega
    simp only [hstays]
    rw [← ih, Finset.sum_range_succ, Finset.sum_range_succ', hsame]

theorem cycleOf_of_rest (h : 1 / 100 < p - n * s) : cycleOf n p s = p - s := by
  rw [cycleOf, gapOf, if_pos h]
  ring

theorem cycleOf_of_filled (hs : 0 ≤ s) (hfits : n * s ≤ p) (h : p - n * s ≤ 1 / 100) :
    |cycleOf n p s - p| ≤ 1 / 100 := by
  rw [cycleOf, gapOf, if_neg (not_lt.2 h), sub_one_mul]
  rcases le_total s (1 / 100) with hle | hle
  · rw [max_eq_right hle]
    exact abs_le.2 ⟨by linarith, by linarith⟩
  · rw [max_eq_left hle]
    exact abs_le.2 ⟨by linarith, by linarith⟩

/-! ## Decoded volleys -/

structure Volley.Beats (v : Volley Exact) (p s : ℚ) : Prop where
  fires : 0 < v.shots
  shots_le : v.shots ≤ 9
  period_eq : v.period = .finite p
  spacing_eq : v.burstSpacing = .finite s
  opens : ∃ d, v.initialDelay = .finite d ∧ 0 ≤ d
  spacing_nonneg : 0 ≤ s
  fits : v.shots * s ≤ p

theorem doublings_pos (k bias : ℕ) :
    ∃ q : ℚ, (Scalar.doublings k bias : Exact) = .finite q ∧ 0 < q := by
  have hpow : ∀ e : ℕ, (0 : ℚ) < (Nat.pow 2 e : ℕ) := fun e => by exact_mod_cast Nat.two_pow_pos e
  unfold Scalar.doublings
  split_ifs
  · exact ⟨_, rfl, hpow _⟩
  · refine ⟨_, Exact.finite_div _ (hpow (bias - k)).ne', div_pos ?_ (hpow _)⟩
    norm_num

theorem beat_pos (tempo : ℚ) :
    ∃ b : ℚ, (if (0 : Exact) < .finite tempo then 60 / Exact.finite tempo else 1 / 2) =
      .finite b ∧ 0 < b := by
  by_cases htempo : 0 < tempo
  · have hlt : (0 : Exact) < .finite tempo := by simpa using htempo
    rw [if_pos hlt]
    exact ⟨_, Exact.finite_div _ htempo.ne', div_pos (by norm_num) htempo⟩
  · have hnot : ¬ (0 : Exact) < .finite tempo := by simpa using htempo
    rw [if_neg hnot]
    exact ⟨_, Exact.finite_div _ (by norm_num), by norm_num⟩

open Volley in
/-- Whatever is packed and whatever the tempo, the spacings of a burst fit into its period. -/
theorem beats_decode (packed : Packed) (width : Exact) (tempo : ℚ)
    (hfires : 0 < (decode packed width (.finite tempo)).shots) :
    ∃ p s, (decode packed width (.finite tempo)).Beats p s := by
  obtain ⟨b, hb, hbpos⟩ := beat_pos tempo
  obtain ⟨q, hq, hqpos⟩ := doublings_pos ((Fields.unpack packed).digit .period).val 7
  obtain ⟨o, ho, hopos⟩ := doublings_pos ((Fields.unpack packed).digit .initialDelay).val 5
  have hnine : ∀ field, ((Fields.unpack packed).digit field).val ≤ 9 :=
    fun field => Nat.le_of_lt_succ ((Fields.unpack packed).digit field).isLt
  have hperiod : (decode packed width (.finite tempo)).period = .finite (b * q) := by
    rw [← Exact.finite_mul, ← hb, ← hq]
    rfl
  have hshots : ((decode packed width (.finite tempo)).shots : ℚ) ≠ 0 := by
    exact_mod_cast hfires.ne'
  refine ⟨b * q, ((Fields.unpack packed).digit .burstSpacing).val *
    (b * q / (decode packed width (.finite tempo)).shots) / 9, hfires, hnine .shots, hperiod,
      ?_, ?_, ?_, ?_⟩
  · have hspacing : (decode packed width (.finite tempo)).burstSpacing =
        between ((Fields.unpack packed).digit .burstSpacing).val 9 0
          ((decode packed width (.finite tempo)).period /
            Scalar.ofNat (decode packed width (.finite tempo)).shots) := if_neg hfires.ne'
    rw [hspacing, hperiod, Exact.ofNat_eq, Exact.finite_div _ hshots]
    simp [between]
  · have hdelay : (decode packed width (.finite tempo)).initialDelay = .finite (b * o) := by
      rw [← Exact.finite_mul, ← hb, ← ho]
      exact if_neg hfires.ne'
    exact ⟨_, hdelay, (mul_pos hbpos hopos).le⟩
  · positivity
  · have hle : (((Fields.unpack packed).digit .burstSpacing).val : ℚ) ≤ 9 := by
      exact_mod_cast hnine .burstSpacing
    have hpos : 0 < b * q := mul_pos hbpos hqpos
    field_simp
    nlinarith

theorem Volley.Beats.burstGap_eq {v : Volley Exact} (h : v.Beats p s) :
    v.burstGap = .finite (gapOf v.shots p s) := by
  have hrest : v.period - v.burstSpacing * Scalar.ofNat v.shots = .finite (p - v.shots * s) := by
    rw [h.period_eq, h.spacing_eq, Exact.ofNat_eq, Exact.finite_mul, Exact.finite_sub, mul_comm s]
  have hleast : (Volley.minDelay : Exact) = .finite (1 / 100) := by simp [Volley.minDelay]
  rw [Volley.burstGap, hrest, hleast, h.spacing_eq, Exact.max_finite, gapOf]
  simp only [Exact.finite_lt]
  split_ifs
  · rfl
  · rfl

theorem Volley.Beats.nextDelay_eq {v : Volley Exact} (h : v.Beats p s) (count : ℕ) :
    v.nextDelay count = .finite (delayOf v.shots p s count) := by
  rw [Volley.nextDelay, if_neg h.fires.ne', delayOf, h.burstGap_eq, h.spacing_eq]
  simp only [Nat.dvd_iff_mod_eq_zero]
  split_ifs
  · rfl
  · rfl

/-! ## Triggers

A frame of a second at most pays for a hundred gaps at most, and a burst has nine shots at most. So
a trigger that was not due before the frame does not use up its firings. -/

/-- A gap takes no less off the window, also when its shot comes early by the tolerance. -/
def leastGap : ℚ := 1 / 100 - slack

/-- A trigger between frames has not collected more than its delay. -/
def Rests (t : Scheduler Exact) : Prop :=
  ∃ w d, t.window = .finite w ∧ t.delay = .finite d ∧ 0 ≤ w ∧ w ≤ d

/-- A trigger has begun `k` bursts at most, and what these have cost and what it still has keep to
the budget. -/
def Pays (n : ℕ) (p s budget : ℚ) (t : Scheduler Exact) : Prop :=
  ∃ w k, t.window = .finite w ∧ t.delay = .finite (delayOf n p s t.count) ∧ 0 ≤ w ∧
    t.count ≤ n * k ∧ k * leastGap + w ≤ budget

variable {σ : Type} {r : Rhythm Exact σ} {t : Scheduler Exact} {context : σ} {q budget : ℚ}

theorem Pays.count_le (h : Pays n p s budget t) :
    ∃ k : ℕ, t.count ≤ n * k ∧ k * leastGap ≤ budget := by
  obtain ⟨w, k, -, -, hw, hcount, hcost⟩ := h
  exact ⟨k, hcount, by linarith⟩

/-- Within a burst nothing has to be paid. A gap is paid from the window, and allows for one more
burst. -/
theorem Pays.fire (hr : r.Counted fun count => .finite (delayOf n p s count)) (hn : 0 < n)
    (hs : 0 ≤ s) (h : Pays n p s budget t) (hdue : t.isDue = true) :
    Pays n p s budget (t.fire r context).1 := by
  obtain ⟨w, k, hwindow, hdelay, hw, hcount, hcost⟩ := h
  have hplanned : Scheduler.Planned 0 (0 + delayOf n p s t.count - w) t :=
    ⟨_, _, hdelay, hwindow, rfl⟩
  have hle := hplanned.isDue_iff.1 hdue
  have hrest : (t.fire r context).1.window = .finite (max (w - delayOf n p s t.count) 0) := by
    change Scalar.max (t.window - t.delay) 0 = _
    rw [hwindow, hdelay, Exact.finite_sub, Exact.max_zero]
  have hnonneg := delayOf_nonneg (n := n) (p := p) hs t.count
  refine ⟨_, if n ∣ t.count then k + 1 else k, hrest, hr _ _ _, le_max_right _ _, ?_, ?_⟩
  · change t.count + 1 ≤ _
    split_ifs with hdvd
    · rw [Nat.mul_succ]
      omega
    · have hne : t.count ≠ n * k := fun heq => hdvd ⟨k, heq⟩
      omega
  · split_ifs with hdvd
    · have hgap := le_gapOf n p s
      rw [← delayOf_of_dvd hdvd] at hgap
      have hmax : max (w - delayOf n p s t.count) 0 ≤ w - leastGap := by
        unfold leastGap
        exact max_le (by linarith [Scheduler.slack_pos]) (by linarith)
      push_cast
      linarith
    · have hmax : max (w - delayOf n p s t.count) 0 ≤ w := max_le (by linarith) hw
      linarith

/-- The first firing of a frame leaves no more than the frame. -/
theorem Rests.fire (hr : r.Counted fun count => .finite (delayOf n p s count)) (h : Rests t)
    (hq : 0 ≤ q) {k : ℕ} (hk : t.count + 1 ≤ n * k) :
    Pays n p s (k * leastGap + q) ((t.await (.finite q)).fire r context).1 := by
  obtain ⟨w, d, hwindow, hdelay, hw, hle⟩ := h
  refine ⟨max (w + q - d) 0, k, ?_, hr _ _ _, le_max_right _ _, hk, ?_⟩
  · change Scalar.max (t.window + .finite q - t.delay) 0 = _
    rw [hwindow, hdelay, Exact.finite_add, Exact.finite_sub, Exact.max_zero]
  · have hmax : max (w + q - d) 0 ≤ q := max_le (by linarith) hq
    linarith

theorem Rests.fireDue (hr : r.Counted fun count => .finite (delayOf n p s count)) (hn : 0 < n)
    (hs : 0 ≤ s) (h : Rests t) (hrun : t.running = true) (hq : 0 ≤ q) {k : ℕ}
    (hk : t.count + 1 ≤ n * k) (bound : ℕ) (context : σ) :
    (Scheduler.fireDue r bound (t.await (.finite q)) context).1 = t.await (.finite q) ∨
      Pays n p s (k * leastGap + q) (Scheduler.fireDue r bound
        (t.await (.finite q)) context).1 := by
  refine Scheduler.fireDue_induction
    (P := fun u _ => u = t.await (.finite q) ∨ Pays n p s (k * leastGap + q) u)
    ?_ bound hrun (.inl rfl)
  rintro u context hdue - (rfl | hpays)
  · exact .inr (h.fire hr hq hk)
  · exact .inr (hpays.fire hr hn hs hdue)

theorem rests_of_not_due {w d : ℚ} (hwindow : t.window = .finite w) (hdelay : t.delay = .finite d)
    (hw : 0 ≤ w) (hdue : t.isDue = false) : Rests t := by
  have hplanned : Scheduler.Planned 0 (0 + d - w) t := ⟨_, _, hdelay, hwindow, rfl⟩
  exact ⟨w, d, hwindow, hdelay, hw, by linarith [hplanned.lt_of_not_due hdue]⟩

theorem Rests.update (hr : r.Counted fun count => .finite (delayOf n p s count)) (hn : 0 < n)
    (hnine : n ≤ 9) (hs : 0 ≤ s) (h : Rests t) (hrun : t.running = true) (hq : 0 < q)
    (hsecond : q ≤ 1) (context : σ) :
    (t.update r context (.finite q)).1.count < t.count + Scheduler.maxFirings ∧
    ((t.update r context (.finite q)).1.running = true →
      (t.update r context (.finite q)).1.isDue = false ∧
        Rests (t.update r context (.finite q)).1) := by
  obtain ⟨k, hlo, hhi⟩ : ∃ k, t.count + 1 ≤ n * k ∧ n * k ≤ t.count + n := by
    refine ⟨t.count / n + 1, ?_, ?_⟩
    · exact Nat.lt_mul_div_succ t.count hn
    · have hle := Nat.mul_div_le t.count n
      rw [Nat.mul_add]
      omega
  have hdt : ¬ Exact.finite q ≤ 0 := by simpa using hq
  have hfired := h.fireDue hr hn hs hrun hq.le hlo Scheduler.maxFirings context
  rw [Scheduler.update_eq r context hdt hrun]
  have hcount : (Scheduler.fireDue r Scheduler.maxFirings (t.await (.finite q)) context).1.count <
      t.count + Scheduler.maxFirings := by
    rcases hfired with heq | hpays
    · rw [heq]
      exact Nat.lt_add_of_pos_right (by decide)
    · obtain ⟨j, hcount, hcost⟩ := hpays.count_le
      -- a second has room for a hundred gaps at most, and so for nine hundred shots
      have hgaps : j ≤ k + 100 := by
        have hlt : (j : ℚ) < k + 101 := by
          unfold leastGap slack at hcost
          linarith
        have hlt' : j < k + 101 := by exact_mod_cast hlt
        omega
      have hmul := Nat.mul_le_mul_left n hgaps
      have hmax : Scheduler.maxFirings = 1024 := rfl
      rw [Nat.mul_add] at hmul
      omega
  refine ⟨hcount, fun hgoes => ?_⟩
  have hdue := Scheduler.not_due_of_lt Scheduler.maxFirings hgoes hcount
  refine ⟨hdue, ?_⟩
  rcases hfired with heq | ⟨w, -, hwindow, hdelay, hw, -⟩
  · obtain ⟨w, d, hwindow, hdelay, hw, -⟩ := h
    rw [heq] at hdue ⊢
    refine rests_of_not_due (w := w + q) (d := d) ?_ hdelay (by linarith) hdue
    change t.window + .finite q = _
    rw [hwindow, Exact.finite_add]
  · exact rests_of_not_due hwindow hdelay hw hdue

/-! ## Lives -/

variable {v : Volley Exact} {times : List ℚ}

theorem rests_ofDelay {d : ℚ} (hd : 0 ≤ d) : Rests (Scheduler.ofDelay (.finite d)) :=
  ⟨0, d, rfl, rfl, le_refl _, hd⟩

theorem rests_frame (hv : v.Beats p s) (hr : r.Counted v.nextDelay) (h : t.running = true → Rests t)
    (hq : q ≤ 1) (context : σ) :
    (t.update r context (.finite q)).1.count < t.count + Scheduler.maxFirings ∧
    ((t.update r context (.finite q)).1.running = true →
      Rests (t.update r context (.finite q)).1 ∧
        (0 < q ∨ t.isDue = false → (t.update r context (.finite q)).1.isDue = false)) := by
  have hdelays : r.Counted fun count => .finite (delayOf v.shots p s count) := by
    intro count left c
    rw [hr, hv.nextDelay_eq]
  by_cases hgoes : 0 < q ∧ t.running = true
  · obtain ⟨hpos, hrun⟩ := hgoes
    obtain ⟨hcount, hafter⟩ :=
      (h hrun).update hdelays hv.fires hv.shots_le hv.spacing_nonneg hrun hpos hq context
    exact ⟨hcount, fun hrun' => ⟨(hafter hrun').2, fun _ => (hafter hrun').1⟩⟩
  · rw [not_and_or, not_lt, Bool.not_eq_true] at hgoes
    rw [Scheduler.update_still r (hgoes.imp_left (Exact.finite_le q 0).2)]
    refine ⟨Nat.lt_add_of_pos_right (by decide), fun hrun => ⟨h hrun, fun hdue => ?_⟩⟩
    rcases hdue with hpos | hdue
    · rcases hgoes with hle | hstopped
      · exact absurd hpos hle.not_gt
      · rw [hstopped] at hrun
        cases hrun
    · exact hdue

theorem rests_life (hv : v.Beats p s) (hr : r.Counted v.nextDelay) (htimes : ∀ q ∈ times, q ≤ 1)
    (hrun : (life r (some v.initialDelay) context (times.map .finite)).1.running = true) :
    Rests (life r (some v.initialDelay) context (times.map .finite)).1 ∧
      ((∃ q ∈ times, 0 < q) →
        (life r (some v.initialDelay) context (times.map .finite)).1.isDue = false) := by
  induction times using List.reverseRecOn with
  | nil =>
    obtain ⟨d, hd, hnonneg⟩ := hv.opens
    refine ⟨?_, fun ⟨q, hq, _⟩ => by cases hq⟩
    change Rests (Scheduler.ofDelay v.initialDelay)
    rw [hd]
    exact rests_ofDelay hnonneg
  | append_singleton times q ih =>
    have hbefore := ih fun q hq => htimes q (List.mem_append_left _ hq)
    rw [List.map_append, List.map_singleton, Scheduler.life_append, List.foldl_cons, List.foldl_nil]
      at hrun ⊢
    generalize life r (some v.initialDelay) context (times.map .finite) = before at *
    obtain ⟨-, hafter⟩ := rests_frame hv hr (fun h => (hbefore h).1) (htimes q (by simp)) before.2
    obtain ⟨hrests, hdue⟩ := hafter hrun
    refine ⟨hrests, fun ⟨q', hmem, hpos⟩ => hdue ?_⟩
    rcases List.mem_append.1 hmem with hmem | hmem
    · by_cases hgoing : before.1.running = true
      · exact .inr ((hbefore hgoing).2 ⟨q', hmem, hpos⟩)
      · rw [Scheduler.update_stopped r (Bool.eq_false_iff.2 hgoing)] at hrun
        exact absurd hrun hgoing
    · rw [List.mem_singleton.1 hmem] at hpos
      exact .inl hpos

theorem count_lt_of_second (hv : v.Beats p s) (hr : r.Counted v.nextDelay)
    (htimes : ∀ q ∈ times, q ≤ 1) (hq : q ≤ 1) :
    (life r (some v.initialDelay) context ((times ++ [q]).map .finite)).1.count <
      (life r (some v.initialDelay) context (times.map .finite)).1.count +
        Scheduler.maxFirings := by
  rw [List.map_append, List.map_singleton, Scheduler.life_append, List.foldl_cons, List.foldl_nil]
  exact (rests_frame hv hr (fun h => (rests_life hv hr htimes h).1) hq _).1

theorem never_fires (hinfinite : v.initialDelay = Scalar.infinity) (r : Rhythm Exact σ)
    (context : σ) (dts : List Exact) :
    Scheduler.firings (Scheduler.record r (some v.initialDelay) context dts) = [] := by
  have hendless :
      Scalar.isFinite (life r.recorded (some v.initialDelay) (context, []) []).1.delay = false := by
    change Scalar.isFinite v.initialDelay = false
    rw [hinfinite]
    rfl
  have hnothing := (Scheduler.life_endless hendless dts).2
  rw [List.nil_append] at hnothing
  rw [Scheduler.record, hnothing]
  rfl

/-- Whatever is packed and whatever the tempo, a pattern without shots never fires, and the spacings
of a burst fit into the period of any other. No delay is negative, and no gap between bursts is next
to nothing. As many delays in a row as a burst has shots take the same time everywhere, which is a
spacing less than the period, unless the spacings fill the period: then it is the period, within a
hundredth of a second. In frames of a second at most, no update of a trigger makes all the firings
that an update may make, and none leaves a shot that is due. -/
theorem cycles_are_a_spacing_short (packed : Packed) (width : Exact) (tempo : ℚ)
    (hv : v = Volley.decode packed width (.finite tempo)) (hr : r.Counted v.nextDelay)
    (context : σ) :
    (v.shots = 0 →
      ∀ dts, Scheduler.firings (Scheduler.record r (some v.initialDelay) context dts) = []) ∧
    (0 < v.shots → ∃ (p s cycle : ℚ) (delay : ℕ → ℚ),
      v.period = .finite p ∧ v.burstSpacing = .finite s ∧
      (∀ count, v.nextDelay count = .finite (delay count)) ∧
      v.shots * s ≤ p ∧ (∀ count, 0 ≤ delay count) ∧
      (∀ count, v.shots ∣ count → 1 / 100 ≤ delay count) ∧
      (∀ count, ∑ i ∈ Finset.range v.shots, delay (count + 1 + i) = cycle) ∧
      (1 / 100 < p - v.shots * s → cycle = p - s) ∧
      (p - v.shots * s ≤ 1 / 100 → |cycle - p| ≤ 1 / 100) ∧
      ∀ times : List ℚ, (∀ q ∈ times, q ≤ 1) →
        (∀ q ≤ 1, (life r (some v.initialDelay) context ((times ++ [q]).map .finite)).1.count <
          (life r (some v.initialDelay) context (times.map .finite)).1.count +
            Scheduler.maxFirings) ∧
        ((life r (some v.initialDelay) context (times.map .finite)).1.running = true →
          (∃ q ∈ times, 0 < q) →
          (life r (some v.initialDelay) context (times.map .finite)).1.isDue = false)) := by
  constructor
  · intro hshots dts
    refine never_fires ?_ r context dts
    subst hv
    exact if_pos hshots
  · intro hfires
    obtain ⟨p, s, hbeats⟩ : ∃ p s, v.Beats p s := by
      subst hv
      exact beats_decode packed width tempo hfires
    refine ⟨p, s, cycleOf v.shots p s, delayOf v.shots p s, hbeats.period_eq, hbeats.spacing_eq,
      hbeats.nextDelay_eq, hbeats.fits, delayOf_nonneg hbeats.spacing_nonneg, ?_,
      sum_delayOf hfires p s, cycleOf_of_rest, cycleOf_of_filled hbeats.spacing_nonneg hbeats.fits,
      ?_⟩
    · intro count hdvd
      rw [delayOf_of_dvd hdvd]
      exact le_gapOf _ _ _
    · intro times htimes
      exact ⟨fun q hq => count_lt_of_second hbeats hr htimes hq,
        fun hrun hsome => (rests_life hbeats hr htimes hrun).2 hsome⟩

/-- Shots one at a time, with a spacing of five ninths of their period. -/
def lone : Volley Exact := .decode ⟨9110502941⟩ (.finite 320) (.finite 120)

theorem lone_shots_have_a_cycle :
    lone.rhythm.Counted lone.nextDelay ∧ lone.shots = 1 ∧
    ∃ delay : ℕ → ℚ, (∀ count, lone.nextDelay count = .finite (delay count)) ∧
      ∀ count, ∑ i ∈ Finset.range lone.shots, delay (count + 1 + i) = 8 / 9 := by
  have hcounted : lone.rhythm.Counted lone.nextDelay := fun _ _ _ => rfl
  have hshots : lone.shots = 1 := by decide +kernel
  have hperiod : lone.period = .finite 2 := by decide +kernel
  have hspacing : lone.burstSpacing = .finite (10 / 9) := by decide +kernel
  obtain ⟨p, s, cycle, delay, hp, hs, hdelay, -, -, -, hsum, hcycle, -⟩ :=
    (cycles_are_a_spacing_short ⟨9110502941⟩ (.finite 320) 120 (v := lone) rfl hcounted #[]).2
      (by omega)
  obtain rfl : 2 = p := Exact.finite.inj (hperiod.symm.trans hp)
  obtain rfl : 10 / 9 = s := Exact.finite.inj (hspacing.symm.trans hs)
  refine ⟨hcounted, hshots, delay, hdelay, fun count => ?_⟩
  rw [hsum, hcycle (by rw [hshots]; norm_num)]
  norm_num

/-- The spacing is taken off a period that has none in it. -/
theorem lone_shots_come_too_soon :
    lone.shots = 1 ∧ lone.period = .finite 2 ∧ lone.burstSpacing = .finite (10 / 9) ∧
    (1 / 100 : ℚ) < 2 - 1 * (10 / 9) ∧ lone.nextDelay 1 = .finite (8 / 9) ∧ (8 / 9 : ℚ) ≠ 2 := by
  decide +kernel

end Barrage.Pattern
