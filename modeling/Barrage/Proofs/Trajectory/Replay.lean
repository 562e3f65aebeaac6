import Barrage.Proofs.Trajectory.Announcement

/-! # Pattern changes in a loop

A pass of a loop begins without a word to the latches in its body. They are open again only for the
changes that the first moment of the pass finds ahead of it. So a change at the very start of a
block is heard in the first pass and never again, while later ones come back in every pass that has
its own start. -/

namespace Barrage.Trajectory

open Pattern (Packed)

/-! ## One pattern change -/

section

variable {α : Type} [Scalar α] {w : Window α} {latch : ℕ}

theorem change_latch (p : Progress α) (hw : w.cancelling = false) (pattern : Packed)
    (hlatch : latch < p.latches.size) (time : α) (other : ℕ) :
    (p.change w pattern latch time).latches.getD other true =
      if other = latch then !decide (time < w.start) else p.latches.getD other true := by
  by_cases hother : other = latch
  · subst hother
    rw [if_pos rfl, change_latches p pattern hlatch]
    by_cases hstart : time < w.start <;> simp [Window.Covers, Window.Begun, Window.Over, hw, hstart]
  · rw [if_neg hother, change_other p w pattern hother]

theorem change_announced (p : Progress α) (hw : w.cancelling = false) (pattern : Packed) (latch : ℕ)
    (time : α) : (p.change w pattern latch time).announced =
      p.announced ++ if time < w.start ∨ p.latches.getD latch true then [] else [pattern] := by
  rw [change_voice, voice]
  by_cases hstart : time < w.start
  · simp [Window.Covers, Window.Begun, hstart]
  · cases p.latches.getD latch true <;> simp [Window.Covers, Window.Begun, Window.Over, hstart, hw]

end

/-! ## Cues -/

/-- A pattern change of a block, with the time in a pass at which it is due. -/
structure Cue where
  start : ℚ
  pattern : Packed
  latch : ℕ

/-- The pattern of the last cue due after one moment of a pass and up to another. -/
def lastCue (cues : List Cue) (earlier later : ℚ) : Option Packed :=
  (cues.filter fun c => decide (c.start ≤ later) && !decide (c.start ≤ earlier)).getLast?.map
    Cue.pattern

/-- The pattern of the last cue due up to a moment of a pass. -/
def inForce (cues : List Cue) (v : ℚ) : Option Packed :=
  (cues.filter fun c => c.start ≤ v).getLast?.map Cue.pattern

section

variable {cues : List Cue} {u v w : ℚ}

theorem due_split (hsorted : cues.Pairwise fun c d => c.start ≤ d.start) (huv : u ≤ v)
    (hvw : v ≤ w) : cues.filter (fun c => decide (c.start ≤ w) && !decide (c.start ≤ u)) =
      cues.filter (fun c => decide (c.start ≤ v) && !decide (c.start ≤ u)) ++
        cues.filter fun c => decide (c.start ≤ w) && !decide (c.start ≤ v) := by
  have hsplit := filter_of_sorted (fun c : Cue => decide (c.start ≤ v))
    (fun c => decide (c.start ≤ w)) (hsorted.filter fun c => !decide (c.start ≤ u))
    (fun c d hcd hd => decide_eq_true (hcd.trans (of_decide_eq_true hd)))
    fun c _ hc => decide_eq_true ((of_decide_eq_true hc).trans hvw)
  simp only [List.filter_filter] at hsplit
  rw [hsplit]
  refine congrArg _ (List.filter_congr fun c _ => ?_)
  by_cases hv : c.start ≤ v
  · simp [hv]
  · have hu : ¬ c.start ≤ u := fun hle => hv (hle.trans huv)
    simp [hu, hv]

theorem lastCue_trans (hsorted : cues.Pairwise fun c d => c.start ≤ d.start) (huv : u ≤ v)
    (hvw : v ≤ w) (base : Option Packed) :
    (lastCue cues v w).or ((lastCue cues u v).or base) = (lastCue cues u w).or base := by
  rw [lastCue, lastCue, lastCue, due_split hsorted huv hvw, List.getLast?_append, Option.map_or,
    Option.or_assoc]

theorem lastCue_again (hsorted : cues.Pairwise fun c d => c.start ≤ d.start) (huv : u ≤ v)
    (hvw : v ≤ w) (base : Option Packed) :
    (lastCue cues v w).or ((lastCue cues u w).or base) = (lastCue cues u w).or base := by
  rw [← lastCue_trans hsorted huv hvw base, ← Option.or_assoc, Option.or_self]

theorem lastCue_of_le (h : w ≤ v) : lastCue cues v w = none := by
  have hnone : cues.filter (fun c => decide (c.start ≤ w) && !decide (c.start ≤ v)) = [] := by
    rw [List.filter_eq_nil_iff]
    intro c _
    simp
    exact fun hc => hc.trans h
  rw [lastCue, hnone]
  rfl

theorem lastCue_of_before (h : ∀ c ∈ cues, u < c.start) : lastCue cues u v = inForce cues v := by
  have hall : cues.filter (fun c => decide (c.start ≤ v) && !decide (c.start ≤ u)) =
      cues.filter fun c => c.start ≤ v := by
    refine List.filter_congr fun c hc => ?_
    simp [(h c hc).not_ge]
  rw [lastCue, hall]
  rfl

/-- Time of a pass at which the block stands. Passes beyond the greatest number do not begin
again. -/
def localTime (period : ℚ) (k : ℕ) (u : ℚ) : ℚ := (k - maxPasses : ℕ) * period + u

theorem localTime_of_le {period : ℚ} {k : ℕ} (h : k ≤ maxPasses) (u : ℚ) :
    localTime period k u = u := by
  simp [localTime, Nat.sub_eq_zero_of_le h]

theorem localTime_succ {period : ℚ} {k : ℕ} (h : maxPasses ≤ k) (u : ℚ) :
    localTime period (k + 1) u = localTime period k u + period := by
  simp only [localTime, Nat.sub_add_comm h, Nat.cast_succ]
  ring

theorem le_localTime {period : ℚ} (h : 0 ≤ period) (k : ℕ) (u : ℚ) : u ≤ localTime period k u := by
  unfold localTime
  have hpassed : 0 ≤ ((k - maxPasses : ℕ) : ℚ) * period := by positivity
  linarith

def pass (period : ℚ) (offsets : List ℚ) (k : ℕ) : List ℚ := offsets.map fun u => k * period + u

/-- The moments at which every pass is looked at. The first one comes before all cues that have to
be awaited. -/
structure Sampling (cues : List Cue) (period : ℚ) (offsets : List ℚ) : Prop where
  rising : offsets.Pairwise (· < ·)
  within : ∀ u ∈ offsets, 0 ≤ u ∧ u < period
  first : ∀ u ∈ offsets.head?, ∀ c ∈ cues, 0 < c.start → u < c.start

namespace Sampling

variable {period : ℚ} {offsets : List ℚ}

theorem of_cons {us : List ℚ} (h : Sampling cues period (u :: offsets)) (hpart : us <+: offsets) :
    Sampling cues period (u :: us) := by
  have hsub := hpart.sublist.cons_cons u
  exact ⟨h.rising.sublist hsub, fun v hv => h.within v (hsub.subset hv), h.first⟩

theorem last_between (h : Sampling cues period (u :: offsets)) :
    u ≤ offsets.getLastD u ∧ offsets.getLastD u < period := by
  have hmem : offsets.getLastD u ∈ u :: offsets := List.getLastD_mem_cons
  refine ⟨?_, (h.within _ hmem).2⟩
  rcases List.mem_cons.1 hmem with heq | hmem
  · exact heq.ge
  · exact (List.rel_of_pairwise_cons h.rising hmem).le

end Sampling

theorem inForce_of_late (h : ∀ c ∈ cues, c.start ≤ v) :
    inForce cues v = cues.getLast?.map Cue.pattern := by
  have hall : cues.filter (fun c => c.start ≤ v) = cues := by
    rw [List.filter_eq_self]
    intro c hc
    simp [h c hc]
  rw [inForce, hall]

theorem Sampling.lastCue_first {period : ℚ} {offsets : List ℚ}
    (h : Sampling cues period (u :: offsets)) :
    lastCue cues u v = inForce (cues.filter fun c => 0 < c.start) v := by
  rw [lastCue, inForce, List.filter_filter]
  refine congrArg (fun due : List Cue => due.getLast?.map Cue.pattern)
    (List.filter_congr fun c hc => ?_)
  have hfirst : c.start ≤ u ↔ ¬ 0 < c.start := by
    constructor
    · intro hle hpos
      exact absurd (h.first u rfl c hc hpos) hle.not_gt
    · intro hpos
      exact (not_lt.1 hpos).trans (h.within u (List.mem_cons_self ..)).1
  simp only [hfirst, decide_not, Bool.not_not]

theorem exists_before (cues : List Cue) : ∃ m ≤ 0, ∀ c ∈ cues, m < c.start := by
  induction cues with
  | nil => exact ⟨0, le_rfl, by simp⟩
  | cons c cues ih =>
    obtain ⟨m, hm, hcues⟩ := ih
    refine ⟨min m (c.start - 1), (min_le_left _ _).trans hm, ?_⟩
    intro d hd
    rcases List.mem_cons.1 hd with rfl | hd
    · exact (min_le_right _ _).trans_lt (sub_one_lt _)
    · exact (min_le_left _ _).trans_lt (hcues d hd)

end

/-! ## One pass -/

section

variable [Elementary Exact] {body : List (Effect Exact)} {cues : List Cue}

inductive Scored : List (Effect Exact) → List Cue → Prop where
  | nil : Scored [] []
  | cue {rest : List (Effect Exact)} {cues : List Cue} (c : Cue) (stop : Exact)
      (h : Scored rest cues) : Scored (.shoot ⟨.finite c.start, stop, false⟩ c.pattern c.latch ::
      rest) (c :: cues)
  | quiet {e : Effect Exact} {rest : List (Effect Exact)} {cues : List Cue} (he : e.latches = [])
      (h : Scored rest cues) : Scored (e :: rest) cues

omit [Elementary Exact] in
theorem Scored.latches (h : Scored body cues) : Effect.latchesAll body = cues.map Cue.latch := by
  induction h with
  | nil => simp
  | cue c stop _ ih => simp [ih]
  | quiet he _ ih => simp [he, ih]

structure Cued (cues : List Cue) (v : ℚ) (p q : Progress Exact) : Prop where
  due : ∀ c ∈ cues, q.latches.getD c.latch true = decide (c.start ≤ v)
  other : ∀ latch, latch ∉ cues.map Cue.latch → q.latches.getD latch true =
    p.latches.getD latch true
  announced : q.announced = p.announced ++
    (cues.filter fun c => decide (c.start ≤ v) && !p.latches.getD c.latch true).map Cue.pattern

theorem Scored.cued (h : Scored body cues) (v : ℚ) {p : Progress Exact}
    (hdistinct : (cues.map Cue.latch).Nodup) (hbounds : ∀ c ∈ cues, c.latch < p.latches.size) :
    Cued cues v p (Effect.applyAll true (.finite v) p body) := by
  induction h generalizing p with
  | nil => exact ⟨by simp, fun _ _ => rfl, by simp [Effect.applyAll]⟩
  | @quiet e rest cues he _ ih =>
    obtain ⟨hlatches, hannounced⟩ := Effect.apply_silent true (.finite v) p e (Or.inr he)
    obtain ⟨hdue, hother, hall⟩ := ih (p := Effect.apply true (.finite v) p e) hdistinct
      (by rwa [hlatches])
    rw [hlatches] at hother hall
    rw [hannounced] at hall
    exact ⟨hdue, hother, hall⟩
  | @cue rest cues c stop _ ih =>
    rw [List.map_cons, List.nodup_cons] at hdistinct
    obtain ⟨hnew, hdistinct⟩ := hdistinct
    let w : Window Exact := ⟨.finite c.start, stop, false⟩
    have hlatch := change_latch p (w := w) rfl c.pattern
      (hbounds c (List.mem_cons_self ..)) (.finite v)
    have hannounced := change_announced p (w := w) rfl c.pattern c.latch (.finite v)
    -- latches are different, so the cues behind this one find theirs as they were
    have hapart : ∀ latch, latch ∈ cues.map Cue.latch → latch ≠ c.latch := by
      rintro latch hl rfl
      exact hnew hl
    obtain ⟨hdue, hother, hall⟩ := ih (p := p.change w c.pattern c.latch (.finite v)) hdistinct
      (by
        intro d hd
        rw [Progress.change_size]
        exact hbounds d (List.mem_cons_of_mem _ hd))
    refine ⟨?_, ?_, ?_⟩
    · intro d hd
      rcases List.mem_cons.1 hd with rfl | hd
      · refine (hother d.latch hnew).trans ?_
        rw [hlatch, if_pos rfl]
        simp [w, ← not_lt]
      · exact hdue d hd
    · intro latch hl
      rw [List.map_cons, List.mem_cons, not_or] at hl
      refine (hother latch hl.2).trans ?_
      rw [hlatch, if_neg hl.1]
    · have hsame : (cues.filter fun d =>
          decide (d.start ≤ v) && !(p.change w c.pattern c.latch (.finite v)).latches.getD
            d.latch true) =
          cues.filter fun d => decide (d.start ≤ v) && !p.latches.getD d.latch true := by
        refine List.filter_congr fun d hd => ?_
        rw [hlatch, if_neg (hapart _ (List.mem_map_of_mem hd))]
      rw [hsame, hannounced] at hall
      refine hall.trans ?_
      rw [List.append_assoc, List.filter_cons]
      by_cases hv : c.start ≤ v
      · cases p.latches.getD c.latch true <;> simp [w, hv, hv.not_gt]
      · simp [w, hv, lt_of_not_ge hv]

/-! ## Updates -/

structure Loops (program : Program Exact) (stage : ℕ) (cues : List Cue) (period : ℚ) : Prop where
  positive : 0 < period
  block : ∃ before body after reward,
    program.stages[stage]? = some ⟨before ++ .loop Window.whole body (.finite period) :: after,
      reward⟩ ∧
      Effect.latchesAll before = [] ∧ Effect.latchesAll after = [] ∧ Scored body cues
  sorted : cues.Pairwise fun c d => c.start ≤ d.start
  within : ∀ c ∈ cues, c.start < period

variable {τ : Type} {program : Program Exact} {stage : ℕ} {period u v : ℚ} {k : ℕ}
  {last : Option Packed} {f : Flight Exact τ} (origin : Vec Exact)

def Flight.sample (origin : Vec Exact) (f : Flight Exact τ) (times : List ℚ) : Flight Exact τ :=
  times.foldl (fun f t => (f.update origin (.finite t)).2.1) f

structure Playing (program : Program Exact) (stage : ℕ) (cues : List Cue) (v : ℚ)
    (last : Option Packed) (f : Flight Exact τ) : Prop where
  program_eq : f.program = program
  stage_eq : f.stage = stage
  size : f.latches.size = program.latches
  due : ∀ c ∈ cues, f.latches.getD c.latch true = decide (c.start ≤ v)
  last_eq : f.channel.last = last

theorem apply_block (body : List (Effect Exact)) (hperiod : 0 < period) (hzero : 0 ≤ u)
    (hless : u < period) (k : ℕ) (p : Progress Exact) : ∃ q, p.Moved q ∧
      Effect.apply true (.finite (k * period + u)) p (.loop Window.whole body (.finite period)) =
        Effect.applyAll true (.finite (localTime period k u)) q body := by
  have hlocal : (Window.whole : Window Exact).localTime (.finite (k * period + u)) =
      some (.finite (k * period + u)) := by
    have hstart : 0 ≤ k * period + u := by positivity
    have hstop : Exact.finite (k * period + u) < Scalar.infinity := rfl
    simp [Window.localTime, Window.whole, hstart, hstop]
  have hfloor : ⌊(k * period + u) / period⌋₊ = k := by
    rw [Nat.floor_eq_iff (by positivity), le_div_iff₀ hperiod, div_lt_iff₀ hperiod]
    constructor <;> linarith
  have hpasses : Scalar.truncate maxPasses (Exact.finite (k * period + u) / .finite period) =
      min maxPasses k := by
    rw [Exact.finite_div _ hperiod.ne']
    exact congrArg (min maxPasses) hfloor
  have htime : k * period + u - (min maxPasses k : ℕ) * period = localTime period k u := by
    unfold localTime
    rcases le_total k maxPasses with h | h
    · rw [min_eq_right h, Nat.sub_eq_zero_of_le h]
      ring
    · rw [min_eq_left h, Nat.cast_sub h]
      ring
  refine ⟨_, replays_moved p body (.finite period) (min maxPasses k), ?_⟩
  rw [Effect.apply, hlocal]
  dsimp only
  rw [if_pos (Exact.isFinite_eq.2 ⟨period, rfl⟩), hpasses, ← htime]
  rfl

omit [Elementary Exact] in
theorem Loops.distinct (h : Loops program stage cues period) (hnumbered : program.Numbered) :
    (cues.map Cue.latch).Sublist (List.range program.latches) := by
  obtain ⟨before, body, after, reward, hstage, hbefore, hafter, hscored⟩ := h.block
  have hsub := Program.stage_latches hnumbered (List.mem_of_getElem? hstage)
  have hall : Effect.latchesAll (before ++ .loop Window.whole body (.finite period) :: after) =
      cues.map Cue.latch := by
    simp [Effect.latchesAll_append, hbefore, hafter, hscored.latches]
  rwa [hall] at hsub

/-- One update hears what has become due since the last one, and nothing when a new pass has
begun. -/
theorem Playing.update (h : Playing program stage cues v last f)
    (hloops : Loops program stage cues period) (hnumbered : program.Numbered) (hzero : 0 ≤ u)
    (hless : u < period) (k : ℕ) :
    Playing program stage cues (localTime period k u)
      ((lastCue cues v (localTime period k u)).or last)
      (f.update origin (.finite (k * period + u))).2.1 := by
  obtain ⟨before, body, after, reward, hstage, hbefore, hafter, hscored⟩ := hloops.block
  have hsub := hloops.distinct hnumbered
  have hbounds : ∀ c ∈ cues, c.latch < f.latches.size := by
    intro c hc
    rw [h.size]
    exact List.mem_range.1 (hsub.subset (List.mem_map_of_mem hc))
  -- the effects before the block, the block and those after it, one after the other
  obtain ⟨time, htime⟩ : ∃ time, time = Exact.finite (k * period + u) := ⟨_, rfl⟩
  have hfirst := Effect.applyAll_silent true time ⟨origin, f.latches, []⟩ before (Or.inr hbefore)
  obtain ⟨q, hreplays, hblock⟩ := apply_block body hloops.positive hzero hless k
    (Effect.applyAll true time ⟨origin, f.latches, []⟩ before)
  rw [← htime] at hblock
  obtain ⟨hlatches, hannounced⟩ := hfirst.trans hreplays
  have hcued := hscored.cued (localTime period k u) (p := q) (hsub.nodup List.nodup_range)
      (by rwa [hlatches])
  have hlater := Effect.applyAll_silent true time
    (Effect.applyAll true (.finite (localTime period k u)) q body) after (Or.inr hafter)
  have hrun : f.program.run f.stage origin time f.latches =
      Effect.applyAll true time
        (Effect.applyAll true (.finite (localTime period k u)) q body) after := by
    rw [Program.run, h.program_eq, h.stage_eq, hstage]
    dsimp only
    rw [Effect.applyAll_append, Effect.applyAll, hblock]
  have hheard : (f.program.run f.stage origin time f.latches).announced =
      (cues.filter fun c => decide (c.start ≤ localTime period k u) && !decide (c.start ≤ v)).map
        Cue.pattern := by
    rw [hrun, hlater.2, hcued.announced, hannounced, hlatches]
    refine congrArg (List.map Cue.pattern) (List.filter_congr fun c hc => ?_)
    rw [h.due c hc]
  refine ⟨h.program_eq, h.stage_eq, ?_, ?_, ?_⟩
  · rw [← htime]
    exact (Program.run_size ..).trans h.size
  · intro c hc
    rw [← htime]
    change (f.program.run f.stage origin time f.latches).latches.getD c.latch true = _
    rw [hrun, hlater.1]
    exact hcued.due c hc
  · rw [← htime]
    change (f.channel.publishAll (f.program.run f.stage origin time f.latches).announced).1.last = _
    rw [Channel.publishAll_last, hheard, List.getLast?_map, h.last_eq]
    rfl

/-! ## Passes -/

variable {offsets : List ℚ}

theorem Flight.sample_append (times later : List ℚ) :
    f.sample origin (times ++ later) = (f.sample origin times).sample origin later :=
  List.foldl_append ..

theorem sample_pass_cons (u : ℚ) (us : List ℚ) (k : ℕ) :
    f.sample origin (pass period (u :: us) k) =
      Flight.sample origin (f.update origin (.finite (k * period + u))).2.1 (pass period us k) :=
  rfl

theorem Playing.forward (hloops : Loops program stage cues period)
    (hnumbered : program.Numbered) {begun : ℚ} {base : Option Packed} (k : ℕ) :
    ∀ {offsets : List ℚ} {v : ℚ} {f : Flight Exact τ},
      Playing program stage cues v ((lastCue cues begun v).or base) f → begun ≤ v →
      offsets.Pairwise (· < ·) → (∀ u ∈ offsets, v ≤ localTime period k u ∧ 0 ≤ u ∧ u < period) →
      Playing program stage cues ((offsets.map (localTime period k)).getLastD v)
        ((lastCue cues begun ((offsets.map (localTime period k)).getLastD v)).or base)
        (f.sample origin (pass period offsets k)) := by
  intro offsets
  induction offsets with
  | nil =>
    intro v f h _ _ _
    exact h
  | cons u offsets ih =>
    intro v f h hbegun hrising hoffsets
    obtain ⟨hu, hrising⟩ := List.pairwise_cons.1 hrising
    obtain ⟨hv, hzero, hless⟩ := hoffsets u (List.mem_cons_self ..)
    have hnext := h.update origin hloops hnumbered hzero hless k
    rw [lastCue_trans hloops.sorted hbegun hv] at hnext
    rw [sample_pass_cons, List.map_cons, List.getLastD_cons]
    refine ih hnext (hbegun.trans hv) hrising fun w hw => ?_
    obtain ⟨-, hzero, hless⟩ := hoffsets w (List.mem_cons_of_mem _ hw)
    refine ⟨?_, hzero, hless⟩
    unfold localTime
    linarith [hu w hw]

/-- The first moment of a pass that begins again is silent, and from there the block goes
forward. -/
theorem Playing.again (hloops : Loops program stage cues period) (hnumbered : program.Numbered)
    (h : Playing program stage cues v last f) (hback : localTime period k u ≤ v)
    (hrising : (u :: offsets).Pairwise (· < ·)) (hoffsets : ∀ w ∈ u :: offsets, 0 ≤ w ∧ w < period)
    :
    Playing program stage cues ((offsets.map (localTime period k)).getLastD (localTime period k u))
      ((lastCue cues (localTime period k u)
        ((offsets.map (localTime period k)).getLastD (localTime period k u))).or last)
      (f.sample origin (pass period (u :: offsets) k)) := by
  obtain ⟨hzero, hless⟩ := hoffsets u (List.mem_cons_self ..)
  have hnext := h.update origin hloops hnumbered hzero hless k
  rw [lastCue_of_le hback, ← lastCue_of_le (le_refl (localTime period k u))] at hnext
  obtain ⟨hu, hrising⟩ := List.pairwise_cons.1 hrising
  refine hnext.forward origin hloops hnumbered k le_rfl hrising fun w hw => ?_
  obtain ⟨hzero, hless⟩ := hoffsets w (List.mem_cons_of_mem _ hw)
  refine ⟨?_, hzero, hless⟩
  unfold localTime
  linarith [hu w hw]

theorem Playing.next {m w : ℚ} {base : Option Packed} (hloops : Loops program stage cues period)
    (hnumbered : program.Numbered)
    (h : Playing program stage cues (localTime period k w)
      ((lastCue cues m (localTime period k w)).or base) f)
    (hm : m ≤ u) (hu : u ≤ w) (hw : w < period) (hs : Sampling cues period (u :: offsets)) :
    Playing program stage cues (localTime period (k + 1) (offsets.getLastD u))
      (if k < maxPasses then (lastCue cues u (offsets.getLastD u)).or ((lastCue cues m w).or base)
        else (lastCue cues m (localTime period (k + 1) (offsets.getLastD u))).or base)
      (f.sample origin (pass period (u :: offsets) (k + 1))) := by
  by_cases hk : k < maxPasses
  · have hback : localTime period (k + 1) u ≤ localTime period k w := by
      rwa [localTime_of_le hk, localTime_of_le hk.le]
    have hnext := h.again origin hloops hnumbered hback hs.rising hs.within
    rw [List.getLastD_map, localTime_of_le hk, localTime_of_le hk, localTime_of_le hk.le] at hnext
    rw [if_pos hk, localTime_of_le hk]
    exact hnext
  · have hstart : m ≤ localTime period k w :=
      hm.trans (hu.trans (le_localTime hloops.positive.le k w))
    have hnext := h.forward origin hloops hnumbered (k + 1) hstart hs.rising fun v hv => by
      refine ⟨?_, hs.within v hv⟩
      rw [localTime_succ (Nat.le_of_not_lt hk)]
      unfold localTime
      linarith [(hs.within v hv).1]
    rw [List.map_cons, List.getLastD_cons, List.getLastD_map] at hnext
    rw [if_neg hk]
    exact hnext

theorem Playing.passed {m : ℚ} {base : Option Packed} (hloops : Loops program stage cues period)
    (hnumbered : program.Numbered) (h : Playing program stage cues m base f) (hm : m ≤ u)
    (hs : Sampling cues period (u :: offsets)) (k : ℕ) :
    Playing program stage cues (localTime period k (offsets.getLastD u))
      ((lastCue cues m (localTime period k (offsets.getLastD u))).or base)
      (f.sample origin ((List.range (k + 1)).flatMap (pass period (u :: offsets)))) := by
  have hlast := hs.last_between
  induction k with
  | zero =>
    have hbegin : Playing program stage cues m ((lastCue cues m m).or base) f := by
      rw [lastCue_of_le le_rfl]
      exact h
    have hpass := hbegin.forward origin hloops hnumbered 0 le_rfl hs.rising fun v hv => by
      refine ⟨?_, hs.within v hv⟩
      rw [localTime_of_le (Nat.zero_le _)]
      rcases List.mem_cons.1 hv with rfl | hv
      · exact hm
      · exact hm.trans (List.rel_of_pairwise_cons hs.rising hv).le
    rw [List.map_cons, List.getLastD_cons, List.getLastD_map] at hpass
    rw [List.range_one, List.flatMap_singleton]
    exact hpass
  | succ k ih =>
    rw [List.range_succ, List.flatMap_append, Flight.sample_append, List.flatMap_singleton]
    have hnext := ih.next origin hloops hnumbered hm hlast.1 hlast.2 hs
    by_cases hk : k < maxPasses
    · rw [if_pos hk, lastCue_again hloops.sorted hm hlast.1] at hnext
      rw [localTime_of_le hk] at hnext ⊢
      exact hnext
    · rw [if_neg hk] at hnext
      exact hnext

omit [Elementary Exact] in
theorem Playing.fresh {m : ℚ} (hloops : Loops program stage cues period)
    (hnumbered : program.Numbered)
    (hm : ∀ c ∈ cues, m < c.start) (hprogram : f.program = program) (hstage : f.stage = stage)
    (hcleared : f.latches = program.cleared) : Playing program stage cues m f.channel.last f := by
  have hsub := hloops.distinct hnumbered
  refine ⟨hprogram, hstage, by simp [hcleared, Program.cleared], fun c hc => ?_, rfl⟩
  have hlatch := List.mem_range.1 (hsub.subset (List.mem_map_of_mem hc))
  rw [hcleared, decide_eq_false (hm c hc).not_ge]
  simp [Program.cleared, hlatch]

/-- A block puts its patterns in force again in every pass, except for those it opens with: these
are heard in the first pass only, and later passes begin with what the one before has left. Beyond
the greatest number of passes nothing comes back. -/
theorem awaited_patterns_come_back {tokens : List (Token Exact)} {setting : Setting Exact}
    {words words' : Words} (hnest : Token.checkNesting 0 tokens = .ok ())
    (hcompile : compile setting tokens words = .ok (program, words'))
    (hloops : Loops program stage cues period) (hprogram : f.program = program)
    (hstage : f.stage = stage) (hcleared : f.latches = program.cleared)
    (hs : Sampling cues period offsets) (k : ℕ) {before : List ℚ} (hu : before ++ [u] <+: offsets)
    {w : ℚ} (hw : offsets.getLast? = some w) :
    (f.sample origin ((List.range k).flatMap (pass period offsets) ++
        pass period (before ++ [u]) k)).channel.last =
      if k = 0 then (inForce cues u).or f.channel.last
      else if k ≤ maxPasses then
        (inForce (cues.filter fun c => 0 < c.start) u).or ((inForce cues w).or f.channel.last)
      else (cues.getLast?.map Cue.pattern).or f.channel.last := by
  have hnumbered : program.Numbered := (mirrors_of_ok hnest hcompile).latches
  obtain ⟨m, hzero, hbefore⟩ := exists_before cues
  have hfresh := Playing.fresh hloops hnumbered hbefore hprogram hstage hcleared
  -- the run stops after the moment `u` of a pass that begins with `first`
  obtain ⟨first, us, hus⟩ : ∃ first us, before ++ [u] = first :: us := by
    cases before with
    | nil => exact ⟨u, [], rfl⟩
    | cons first before => exact ⟨first, before ++ [u], rfl⟩
  have hlast : us.getLastD first = u := by
    rw [← List.getLastD_cons (a := first), ← hus, List.getLastD_concat]
  rw [hus] at hu ⊢
  obtain ⟨rest, rfl⟩ := hu
  rw [List.cons_append] at hs hw ⊢
  have hm : m ≤ first := hzero.trans (hs.within first (List.mem_cons_self ..)).1
  have hend : (us ++ rest).getLastD first = w := by
    simpa [List.getLastD_eq_getLast?, List.getLast?_cons] using hw
  have hpart : Sampling cues period (first :: us) := hs.of_cons (List.prefix_append _ _)
  cases k with
  | zero =>
    have hpass := (hfresh.passed origin hloops hnumbered hm hpart 0).last_eq
    rw [hlast, localTime_of_le (Nat.zero_le _), lastCue_of_before hbefore, List.range_one,
      List.flatMap_singleton] at hpass
    rw [if_pos rfl]
    exact hpass
  | succ k =>
    have hbetween := hs.last_between
    have hpassed := hfresh.passed origin hloops hnumbered hm hs k
    have hnext := (hpassed.next origin hloops hnumbered hm hbetween.1 hbetween.2 hpart).last_eq
    rw [hlast, hend, lastCue_of_before hbefore, lastCue_of_before hbefore, hpart.lastCue_first,
      ← Flight.sample_append] at hnext
    rw [if_neg k.succ_ne_zero]
    by_cases hk : k < maxPasses
    · rw [if_pos (Nat.succ_le_of_lt hk)]
      rw [if_pos hk] at hnext
      exact hnext
    · have hlate : ∀ c ∈ cues, c.start ≤ localTime period (k + 1) u := by
        intro c hc
        have hu : 0 ≤ u := hlast ▸ (hs.within first (List.mem_cons_self ..)).1.trans
          hpart.last_between.1
        rw [localTime_succ (Nat.le_of_not_lt hk)]
        linarith [hloops.within c hc, le_localTime hloops.positive.le k u]
      rw [if_neg fun h => hk (Nat.lt_of_succ_le h), ← inForce_of_late hlate]
      rw [if_neg hk] at hnext
      exact hnext

end

section

local instance straight : Elementary Exact := ⟨fun x => x, fun _ => 0, fun _ => 1, fun _ _ => 0⟩

def threePatterns : List (Token Exact) :=
  [.opening, .shoot (.packed ⟨3⟩), .after (.literal 1), .shoot (.packed ⟨5⟩), .after (.literal 1),
    .shoot (.packed ⟨7⟩), .lasting (.literal 1), .closing]

def threeCues : List Cue := [⟨0, ⟨3⟩, 0⟩, ⟨1, ⟨5⟩, 1⟩, ⟨2, ⟨7⟩, 2⟩]

def threeProgram : Program Exact :=
  ⟨[⟨[.loop Window.whole (threeCues.map fun c =>
      .shoot ⟨.finite c.start, Scalar.infinity, false⟩ c.pattern c.latch) 3], none⟩], false, 3⟩

theorem compile_threePatterns :
    compile ⟨120, ⟨320, 180⟩⟩ threePatterns (Words.cycle #[]) =
      .ok (threeProgram, Words.cycle #[]) := by
  have hdraft : compile ⟨120, ⟨320, 180⟩⟩ threePatterns (Words.cycle #[]) =
      .ok (((((((Draft.blank.openBlock.shoot ⟨3⟩).shift 1 false).shoot ⟨5⟩).shift 1 false).shoot
        ⟨7⟩).last 1).closeBlock.program, Words.cycle #[]) := rfl
  rw [hdraft]
  simp [Draft.blank, Draft.openBlock, Draft.shoot, Draft.add, Draft.shift, Draft.last,
    Draft.closeBlock, Draft.program, Draft.closeStage, threeProgram, threeCues, Window.whole,
    Window.loopPeriod]
  norm_num

theorem second_pattern_comes_back :
    Loops threeProgram 0 threeCues 3 ∧ Sampling threeCues 3 [1 / 2, 3 / 2, 5 / 2] ∧
    ((Flight.start threeProgram (Channel.new : Channel Unit)).sample ⟨0, 0⟩
      ((List.range 1).flatMap (pass 3 [1 / 2, 3 / 2, 5 / 2]) ++
        pass 3 ([1 / 2] ++ [3 / 2]) 1)).channel.last = some ⟨5⟩ := by
  have hloops : Loops threeProgram 0 threeCues 3 := by
    refine ⟨by norm_num, ⟨[], _, [], none, rfl, rfl, rfl, ?_⟩, by decide +kernel, by decide +kernel⟩
    exact .cue ⟨0, ⟨3⟩, 0⟩ _ (.cue ⟨1, ⟨5⟩, 1⟩ _ (.cue ⟨2, ⟨7⟩, 2⟩ _ .nil))
  have hsampling : Sampling threeCues 3 [1 / 2, 3 / 2, 5 / 2] :=
    ⟨by decide +kernel, by decide +kernel, by decide +kernel⟩
  refine ⟨hloops, hsampling, ?_⟩
  have hpart : [1 / 2] ++ [3 / 2] <+: [1 / 2, 3 / 2, (5 / 2 : ℚ)] := ⟨[5 / 2], rfl⟩
  have hlast := awaited_patterns_come_back (f := Flight.start threeProgram
    (Channel.new : Channel Unit)) ⟨0, 0⟩
    rfl compile_threePatterns hloops rfl rfl rfl hsampling 1 hpart rfl
  refine hlast.trans ?_
  decide +kernel

/-- The second pass begins with the pattern that the first one has ended with. -/
theorem opening_pattern_does_not_come_back :
    ((Flight.start threeProgram (Channel.new : Channel Unit)).sample ⟨0, 0⟩
      ((List.range 1).flatMap (pass 3 [1 / 2, 3 / 2, 5 / 2]) ++
        pass 3 ([] ++ [1 / 2]) 1)).channel.last = some ⟨7⟩ ∧
    inForce threeCues (1 / 2) = some ⟨3⟩ := by
  decide +kernel

end

end Barrage.Trajectory
