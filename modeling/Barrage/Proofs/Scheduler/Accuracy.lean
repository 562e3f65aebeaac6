import Barrage.Proofs.Planned
import Barrage.Proofs.Scheduler.Discipline

/-! # Firings and their delays

In exact arithmetic, delays add up to the times at which firings are due. A life keeps to these
times, whatever its updates are cut like: no firing comes early by more than one tolerance for each
firing so far, and none that is due is missing, unless the last update has stopped or has broken
off. -/

namespace Barrage

def Rhythm.Counted {σ : Type} (r : Rhythm Exact σ) (g : ℕ → Exact) : Prop :=
  ∀ count left context, (r.delay count left context).1 = g count

namespace Scheduler

variable {σ : Type} {r : Rhythm Exact σ} {initial : Option Exact} {context : σ}
  {s : Scheduler Exact} {delays : List ℚ} {T q : ℚ} {fired : List (Firing Exact)}

/-- The time when a firing is due: the delays before it have passed. -/
def dueTime (delays : List ℚ) (k : ℕ) : ℚ := (delays.take k).sum

theorem dueTime_append {earlier : List ℚ} {k : ℕ} (later : List ℚ) (hk : k ≤ earlier.length) :
    dueTime (earlier ++ later) k = dueTime earlier k := by
  rw [dueTime, List.take_append_of_le_length hk, dueTime]

theorem dueTime_mono (hdelays : ∀ d ∈ delays, 0 ≤ d) : Monotone (dueTime delays) := by
  refine monotone_nat_of_le_succ fun k => ?_
  unfold dueTime
  rw [List.take_add_one, List.sum_append]
  have hnext : 0 ≤ (delays[k]?.toList).sum := by
    refine List.sum_nonneg fun d hd => hdelays d ?_
    exact List.mem_of_getElem? (Option.mem_toList.1 hd)
  linarith

/-- How a scheduler that has fired stands at the time `T`, when these are the delays it has
heard. -/
structure KeepsTime (delays : List ℚ) (T : ℚ) (s : Scheduler Exact)
    (fired : List (Firing Exact)) : Prop where
  total_eq : s.total = .finite T
  length_eq : delays.length = s.count + 1
  on_time : OnTime T delays.sum s.count s
  not_early : ∀ k ≤ s.count, dueTime delays k ≤ T + k * slack
  dated : ∀ f ∈ fired, f.count ≤ s.count ∧ ∃ total lag, f.total = .finite total ∧
    f.lag = .finite lag ∧
    dueTime delays f.count - f.count * slack ≤ total - lag ∧ total - lag ≤ dueTime delays f.count

theorem keepsTime_start {d : ℚ} (h : s = ofDelay (.finite d)) : KeepsTime [d] 0 s [] := by
  subst h
  refine ⟨rfl, rfl, ?_, ?_, ?_⟩
  · have hplanned := planned_ofDelay 0 d
    exact ⟨_, hplanned, by simp [ofDelay], by simp⟩
  · intro k hk
    obtain rfl : k = 0 := Nat.le_zero.1 hk
    simp [dueTime]
  · intro f hf
    cases hf

theorem KeepsTime.await (h : KeepsTime delays T s fired) (hq : 0 ≤ q) :
    KeepsTime delays (T + q) (s.await (.finite q)) fired := by
  refine ⟨?_, h.length_eq, h.on_time.await q, ?_, h.dated⟩
  · change s.total + .finite q = _
    rw [h.total_eq, Exact.finite_add]
  · intro k hk
    have hle := h.not_early k hk
    linarith

theorem KeepsTime.fire {x : Round Exact} {p : ℚ} (h : KeepsTime delays T s fired)
    (hdue : s.isDue = true) (hx : x.firing = s.firing) (hp : x.delay = .finite p) :
    KeepsTime (delays ++ [p]) T (s.onward x) (fired ++ [x.firing]) := by
  have hcount : x.firing.count = s.count + 1 := onward_count hx
  have hall : dueTime (delays ++ [p]) (s.count + 1) = delays.sum := by
    rw [dueTime_append _ h.length_eq.ge, dueTime, ← h.length_eq, List.take_length]
  -- the new delay is that of the firing after this one
  have hkept : ∀ k ≤ s.count, dueTime (delays ++ [p]) k = dueTime delays k := by
    intro k hk
    exact dueTime_append _ (by rw [h.length_eq]; omega)
  constructor
  · exact h.total_eq
  · rw [List.length_append, List.length_singleton, h.length_eq, onward_count hx]
  · have hnext : OnTime T (delays.sum + p) (s.count + 1) (s.onward x) := by
      refine h.on_time.next hdue hp ?_
      change x.firing.lag = _
      rw [hx]
      rfl
    rw [List.sum_append, List.sum_singleton, onward_count hx]
    exact hnext
  · intro k hk
    rw [onward_count hx] at hk
    rcases Nat.le_succ_iff.1 hk with hk | rfl
    · rw [hkept k hk]
      exact h.not_early k hk
    · have hle := h.on_time.le_of_due hdue
      rw [hall]
      push_cast
      exact hle
  · intro f hf
    rw [onward_count hx]
    rcases List.mem_append.1 hf with hf | hf
    · obtain ⟨hle, hdated⟩ := h.dated f hf
      rw [hkept _ hle]
      exact ⟨Nat.le_succ_of_le hle, hdated⟩
    · obtain ⟨lag, hlag, hlo, hhi⟩ := h.on_time.dated hdue
      rw [List.mem_singleton.1 hf]
      refine ⟨hcount.le, T, lag, ?_, ?_, ?_⟩
      · rw [hx]
        exact h.total_eq
      · rw [hx]
        exact hlag
      · rw [hcount, hall]
        push_cast
        exact ⟨hlo, hhi⟩

/-! ## Lives -/

variable {times : List ℚ}

theorem keepsTime_life (htimes : ∀ q ∈ times, 0 < q)
    (hheard : heard initial (record r initial context (times.map .finite)) = delays.map .finite) :
    ∃ T, KeepsTime delays T (life r initial context (times.map .finite)).1
      (firings (record r initial context (times.map .finite))) := by
  refine record_induction (P := fun s calls => ∀ delays : List ℚ, heard initial calls =
    delays.map .finite →
    ∃ T, KeepsTime delays T s (firings calls)) ?_ ?_ ?_ delays hheard
  · intro delays hheard
    rw [heard_opening] at hheard
    obtain ⟨d, rfl, hd⟩ := List.map_eq_singleton_iff.1 hheard.symm
    have hstart : (start r initial context).1 = ofDelay (.finite d) := by
      rw [hd]
      cases initial <;> rfl
    rw [firings_opening]
    exact ⟨0, keepsTime_start hstart⟩
  · intro s calls dt hdt _ hP delays hheard
    obtain ⟨q, hq, rfl⟩ := List.mem_map.1 hdt
    obtain ⟨T, hT⟩ := hP delays hheard
    exact ⟨T + q, hT.await (htimes q hq).le⟩
  · intro s calls x hdue _ hx _ hP delays hheard
    rw [heard_append, heard_round] at hheard
    obtain ⟨earlier, last, rfl, hearlier, hlast⟩ := List.map_eq_append_iff.1 hheard.symm
    obtain ⟨p, rfl, hp⟩ := List.map_eq_singleton_iff.1 hlast
    obtain ⟨T, hT⟩ := hP earlier hearlier.symm
    rw [firings_append, firings_round]
    exact ⟨T, hT.fire hdue hx hp.symm⟩

/-- A scheduler has passed the time it was given, or less if it has stopped. -/
theorem total_life (r : Rhythm Exact σ) (initial : Option Exact) (context : σ)
    (htimes : ∀ q ∈ times, 0 < q) :
    ∃ T ≤ times.sum, (life r initial context (times.map .finite)).1.total = .finite T ∧
      ((life r initial context (times.map .finite)).1.running = true → T = times.sum) := by
  induction times using List.reverseRecOn with
  | nil => exact ⟨0, le_refl _, by cases initial <;> rfl, fun _ => rfl⟩
  | append_singleton times q ih =>
    obtain ⟨T, hle, htotal, hrunning⟩ := ih fun p hp => htimes p (List.mem_append_left _ hp)
    have hq : 0 < q := htimes q (by simp)
    have hdt : ¬ (Exact.finite q) ≤ 0 := by simpa using hq
    rw [List.map_append, List.map_singleton, life_append, List.foldl_cons, List.foldl_nil,
      List.sum_append, List.sum_singleton]
    generalize life r initial context (times.map .finite) = p at *
    by_cases hrun : p.1.running = true
    · refine ⟨T + q, by linarith, ?_, fun _ => by rw [hrunning hrun]⟩
      have hawait : (p.1.await (.finite q)).total = .finite (T + q) := by
        change p.1.total + .finite q = _
        rw [htotal, Exact.finite_add]
      exact update_induction (P := fun (t : Scheduler Exact) (_ : σ) =>
        t.total = .finite (T + q)) hdt hrun (fun _ _ _ _ ht => ht) hawait
    · rw [update_stopped r (Bool.eq_false_iff.2 hrun)]
      exact ⟨T, by linarith, htotal, fun h => absurd h hrun⟩

/-! ## Delays by number -/

theorem heard_of_counted {g : ℕ → Exact} (hg : r.Counted g) (initial : Option Exact) (context : σ)
    (dts : List Exact) :
    heard initial (record r initial context dts) =
      initial.getD (g 0) :: (List.range' 1 (life r initial context dts).1.count).map g := by
  refine record_induction (P := fun s calls => heard initial calls =
    initial.getD (g 0) :: (List.range' 1 s.count).map g) ?_ ?_ ?_
  · rw [heard_opening]
    cases initial with
    | none => exact congrArg (fun d => [d]) (hg 0 0 context)
    | some d => rfl
  · intro s calls dt _ _ h
    exact h
  · rintro s calls x - - hx ⟨c, hc⟩ h
    have hcount : x.firing.count = s.count + 1 := onward_count hx
    rw [heard_append, heard_round, h, hc, hg, hcount, onward_count hx, List.range'_1_concat,
      List.map_append, List.map_singleton, Nat.add_comm 1, List.cons_append]

/-- The longer of two lives hears what the shorter one does, and then more, if time is nothing to
the generator. -/
theorem heard_prefix {g : ℕ → Exact} (hg : r.Counted g) {dts dts' : List Exact}
    (hle : (life r initial context dts).1.count ≤ (life r initial context dts').1.count) :
    heard initial (record r initial context dts) <+: heard initial
      (record r initial context dts') := by
  rw [heard_of_counted hg, heard_of_counted hg, List.cons_prefix_cons]
  obtain ⟨more, hmore⟩ := Nat.exists_eq_add_of_le hle
  rw [hmore, ← List.range'_append_1, List.map_append]
  exact ⟨rfl, List.prefix_append _ _⟩

/-! ## The main statement -/

theorem not_early_life (htimes : ∀ q ∈ times, 0 < q)
    (hheard : heard initial (record r initial context (times.map .finite)) = delays.map .finite)
    {k : ℕ} (hk : k ≤ (life r initial context (times.map .finite)).1.count) :
    dueTime delays k ≤ times.sum + k * slack := by
  obtain ⟨T, hT⟩ := keepsTime_life htimes hheard
  obtain ⟨total, hle, htotal, -⟩ := total_life r initial context htimes
  have hsame : T = total := Exact.finite.inj (hT.total_eq.symm.trans htotal)
  have hearly := hT.not_early k hk
  linarith

theorem not_late_life (htimes : ∀ q ∈ times, 0 < q)
    (hheard : heard initial (record r initial context (times.map .finite)) = delays.map .finite)
    (hcaught : CaughtUp r initial context (times.map .finite)) :
    times.sum + slack < dueTime delays
      ((life r initial context (times.map .finite)).1.count + 1) := by
  obtain ⟨T, hT⟩ := keepsTime_life htimes hheard
  obtain ⟨total, -, htotal, hsum⟩ := total_life r initial context htimes
  have hsame : T = total := Exact.finite.inj (hT.total_eq.symm.trans htotal)
  have hdts : ∀ dt ∈ times.map Exact.finite, ¬ dt ≤ 0 := by
    intro dt hdt
    obtain ⟨q, hq, rfl⟩ := List.mem_map.1 hdt
    simpa using htimes q hq
  have hbeyond := hT.on_time.beyond_of_not_due (hcaught.not_due hdts)
  have hrun : (life r initial context (times.map .finite)).1.running = true := by
    obtain ⟨_, _, -, hrun, -⟩ := hcaught
    exact hrun
  rw [dueTime, ← hT.length_eq, List.take_length, ← hsum hrun, ← hsame]
  exact hbeyond

/-- The delays that a scheduler hears, its initial one and the answers of its generator, say when
its firings are due. Each firing so far was due by now, but for one tolerance for each firing up to
it, and its lag dates it with the same precision. What has caught up has made every firing that is
due by now or within a tolerance. So if time is cut otherwise, and more firings have come of it,
each of them is no earlier than its own tolerances allow; and if the generator has given the same
delays, as it does when it goes by numbers, the time when it is due lies within these tolerances. -/
theorem firings_keep_time (r : Rhythm Exact σ) (initial : Option Exact) (context : σ)
    (times delays : List ℚ) (htimes : ∀ q ∈ times, 0 < q)
    (hheard : heard initial (record r initial context (times.map .finite)) = delays.map .finite) :
    ∃ n, (life r initial context (times.map .finite)).1.count = n ∧ delays.length = n + 1 ∧
      (∀ k ≤ n, dueTime delays k ≤ times.sum + k * slack) ∧
      (∀ f ∈ firings (record r initial context (times.map .finite)), ∃ total lag,
        f.total = .finite total ∧ f.lag = .finite lag ∧
        dueTime delays f.count - f.count * slack ≤ total - lag ∧
          total - lag ≤ dueTime delays f.count) ∧
      (CaughtUp r initial context (times.map .finite) →
        times.sum + slack < dueTime delays (n + 1) ∧
        ∀ times' delays' : List ℚ, (∀ q ∈ times', 0 < q) → times'.sum = times.sum →
          (∀ d ∈ delays', 0 ≤ d) →
          heard initial (record r initial context (times'.map .finite)) = delays'.map .finite →
          ∀ k, n < k → k ≤ (life r initial context (times'.map .finite)).1.count →
            dueTime delays' k ≤ times.sum + k * slack ∧
            (delays <+: delays' ∨ (∃ g, r.Counted g) → times.sum + slack < dueTime delays' k)) := by
  obtain ⟨T, hT⟩ := keepsTime_life htimes hheard
  refine ⟨_, rfl, hT.length_eq, ?_, ?_, ?_⟩
  · intro k hk
    exact not_early_life htimes hheard hk
  · intro f hf
    exact (hT.dated f hf).2
  · intro hcaught
    have hlate := not_late_life htimes hheard hcaught
    refine ⟨hlate, ?_⟩
    intro times' delays' htimes' hsum hdelays' hheard' k hlt hk
    constructor
    · rw [← hsum]
      exact not_early_life htimes' hheard' hk
    · intro hsame
      have hprefix : delays <+: delays' := by
        rcases hsame with hprefix | ⟨g, hg⟩
        · exact hprefix
        · have hmaps := heard_prefix hg (hlt.le.trans hk)
          rw [hheard, hheard'] at hmaps
          exact (List.prefix_map_iff_of_injective fun _ _ => Exact.finite.inj).1 hmaps
      obtain ⟨later, rfl⟩ := hprefix
      rw [← dueTime_append later hT.length_eq.ge] at hlate
      exact hlate.trans_le (dueTime_mono hdelays' hlt)

def everySecond : Rhythm Exact Unit := .every 1

/-- Two updates that are a tolerance short of a second each see two firings, one update of the same
time sees one. The second is due within the tolerances. -/
theorem second_firing_is_within_tolerance :
    heard none (record everySecond none () [.finite (99999 / 50000)]) =
      ([1, 1] : List ℚ).map .finite ∧
    heard none (record everySecond none () [.finite (99999 / 100000), .finite (99999 / 100000)]) =
      ([1, 1, 1] : List ℚ).map .finite ∧
    CaughtUp everySecond none () [.finite (99999 / 50000)] ∧
    (life everySecond none () [.finite (99999 / 50000)]).1.count = 1 ∧
    (life everySecond none () [.finite (99999 / 100000), .finite (99999 / 100000)]).1.count = 2 ∧
    99999 / 50000 + slack < dueTime [1, 1, 1] 2 ∧
    dueTime [1, 1, 1] 2 ≤ 99999 / 50000 + 2 * slack := by
  have hheard : heard none (record everySecond none () [.finite (99999 / 50000)]) =
      ([1, 1] : List ℚ).map .finite := by
    decide +kernel
  have hheard' : heard none (record everySecond none ()
      [.finite (99999 / 100000), .finite (99999 / 100000)]) = ([1, 1, 1] : List ℚ).map .finite := by
    decide +kernel
  have hcaught : CaughtUp everySecond none () [.finite (99999 / 50000)] :=
    ⟨[], _, rfl, by decide +kernel, by decide +kernel⟩
  have hcount : (life everySecond none () [.finite (99999 / 50000)]).1.count = 1 := by
    decide +kernel
  have hcount' : (life everySecond none ()
      [.finite (99999 / 100000), .finite (99999 / 100000)]).1.count = 2 := by
    decide +kernel
  obtain ⟨n, hn, -, -, -, hlate⟩ := firings_keep_time everySecond none () [99999 / 50000] [1, 1]
    (by norm_num) hheard
  obtain ⟨-, hother⟩ := hlate hcaught
  obtain ⟨hearly, hbeyond⟩ := hother [99999 / 100000, 99999 / 100000] [1, 1, 1] (by norm_num)
    (by norm_num) (by norm_num) hheard' 2 (by rw [← hn]; exact hcount ▸ one_lt_two) hcount'.ge
  refine ⟨hheard, hheard', hcaught, hcount, hcount', ?_, ?_⟩
  · simpa using hbeyond (.inr ⟨fun _ => 1, fun _ _ _ => rfl⟩)
  · simpa using hearly

end Scheduler

end Barrage
