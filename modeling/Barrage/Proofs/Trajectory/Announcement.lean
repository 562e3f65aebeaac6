import Barrage.Proofs.Scalar.Rounding
import Barrage.Proofs.Trajectory.Independence

/-! # The patterns of a stage

A pattern change that stands outside of all blocks is heard once in a stage, at the first moment
that finds its window begun, or not at all if a cancelling window is over by then. Its latch keeps
this in mind, and no other effect ever touches that latch. A flight clears all latches where a stage
begins. -/

namespace Barrage.Trajectory

open Pattern (Packed)

theorem filter_of_sorted {β : Type} {r : β → β → Prop} {l : List β} (old new : β → Bool)
    (hl : l.Pairwise r) (hdown : ∀ a b, r a b → old b = true → old a = true)
    (hkept : ∀ a ∈ l, old a = true → new a = true) :
    l.filter new = l.filter old ++ l.filter fun a => new a && !old a := by
  induction l with
  | nil => rfl
  | cons a l ih =>
    obtain ⟨ha, hl⟩ := List.pairwise_cons.1 hl
    have ih := ih hl fun b hb => hkept b (List.mem_cons_of_mem _ hb)
    by_cases hold : old a = true
    · have hnew := hkept a (List.mem_cons_self ..) hold
      simp [hold, hnew, ih]
    · -- from here on, nothing is old
      have hlater : ∀ b ∈ a :: l, ¬ old b = true := by
        intro b hb hb'
        rcases List.mem_cons.1 hb with rfl | hb
        · exact hold hb'
        · exact hold (hdown a b (ha b hb) hb')
      have hnone : (a :: l).filter old = [] := List.filter_eq_nil_iff.2 hlater
      rw [hnone, List.nil_append]
      refine List.filter_congr fun b hb => ?_
      simp [hlater b hb]

variable {α : Type} [Scalar α]

/-! ## Windows -/

namespace Window

/-- A window without a defined beginning has begun at every moment. -/
def Begun (w : Window α) (time : α) : Prop := ¬ time < w.start

def Over (w : Window α) (time : α) : Prop := w.cancelling = true ∧ w.stop < time

instance (w : Window α) (time : α) : Decidable (w.Begun time) := inferInstanceAs (Decidable (¬ _))

instance (w : Window α) (time : α) : Decidable (w.Over time) := inferInstanceAs (Decidable (_ ∧ _))

def Covers (w : Window α) (time : α) : Prop := w.Begun time ∧ ¬ w.Over time

instance (w : Window α) (time : α) : Decidable (w.Covers time) :=
  inferInstanceAs (Decidable (_ ∧ _))

variable [Scalar.Strict α] {w : Window α} {s t : α}

theorem Begun.mono (h : w.Begun s) (hst : s ≤ t) : w.Begun t := by
  intro ht
  exact h (Scalar.lt_of_le_of_lt hst ht)

theorem Over.mono (h : w.Over s) (hst : s ≤ t) : w.Over t :=
  ⟨h.1, Scalar.lt_of_lt_of_le h.2 hst⟩

theorem begun_iff (hstart : Scalar.Defined w.start) (ht : Scalar.Defined t) :
    w.Begun t ↔ w.start ≤ t :=
  Scalar.not_lt_iff hstart ht

theorem begun_iff_covers (h : w.Covers t) (hst : s ≤ t) : w.Begun s ↔ w.Covers s := by
  refine ⟨fun hs => ⟨hs, fun hover => ?_⟩, And.left⟩
  exact h.2 (hover.mono hst)

end Window

/-! ## One pattern change -/

section

variable {w : Window α} {latch : ℕ} {time : α}

theorem change_of_before (p : Progress α) (h : ¬ w.Begun time) (pattern : Packed) :
    p.change w pattern latch time = { p with latches := p.latches.setIfInBounds latch false } := by
  have hbefore : time < w.start := not_not.1 h
  rw [Progress.change, if_pos hbefore]

theorem change_of_begun (p : Progress α) (h : w.Begun time) (pattern : Packed) :
    p.change w pattern latch time =
      if w.Covers time ∧ p.latches.getD latch true = false then
        { p with latches := p.latches.setIfInBounds latch true, announced :=
          p.announced ++ [pattern] }
      else p := by
  rw [Progress.change, if_neg h]
  by_cases hover : w.Over time
  · have hcovers : ¬ w.Covers time := fun hcovers => hcovers.2 hover
    have hnot : (w.cancelling && decide (w.stop < time)) = true := by
      simpa [Window.Over] using hover
    rw [hnot, Bool.true_or, if_pos rfl, if_neg fun hboth => hcovers hboth.1]
  · have hcovers : w.Covers time := ⟨h, hover⟩
    have hnot : (w.cancelling && decide (w.stop < time)) = false := by
      simpa [Window.Over] using hover
    cases hset : p.latches.getD latch true <;> simp [hnot, hcovers]

theorem change_latches (p : Progress α) (pattern : Packed) (hlatch : latch < p.latches.size) :
    (p.change w pattern latch time).latches.getD latch true =
      (decide (w.Covers time) || decide (w.Begun time) && p.latches.getD latch true) := by
  by_cases hbegun : w.Begun time
  · rw [change_of_begun p hbegun]
    by_cases hcovers : w.Covers time <;> cases hset : p.latches.getD latch true <;> simp_all
  · have hcovers : ¬ w.Covers time := fun h => hbegun h.1
    simp [change_of_before p hbegun, hbegun, hcovers, hlatch]

/-- What a change announces: its pattern, if its window covers the moment and its latch is open. -/
def voice (w : Window α) (pattern : Packed) (set : Bool) (time : α) : List Packed :=
  if w.Covers time ∧ set = false then [pattern] else []

theorem change_voice (p : Progress α) (w : Window α) (pattern : Packed) (latch : ℕ) (time : α) :
    (p.change w pattern latch time).announced =
      p.announced ++ voice w pattern (p.latches.getD latch true) time := by
  rw [voice]
  by_cases hbegun : w.Begun time
  · rw [change_of_begun p hbegun]
    split_ifs <;> simp
  · have hcovers : ¬ w.Covers time := fun h => hbegun h.1
    simp [change_of_before p hbegun, hcovers]

theorem change_other (p : Progress α) (w : Window α) (pattern : Packed) {latch other : ℕ}
    (h : other ≠ latch) (time : α) :
    (p.change w pattern latch time).latches.getD other true =
      p.latches.getD other true := by
  unfold Progress.change
  split_ifs
  · simp [Array.getElem?_setIfInBounds_ne (Ne.symm h)]
  · rfl
  · simp [Array.getElem?_setIfInBounds_ne (Ne.symm h)]

end

/-- A pattern change outside of all blocks. -/
def Effect.change? : Effect α → Option (Window α × Packed)
  | shoot window pattern _ => some (window, pattern)
  | motion .. | loop .. => none

def Plain (effects : List (Effect α)) : Prop :=
  ∀ e ∈ effects, e.latches = [] ∨ ∃ w pattern latch, e = .shoot w pattern latch ∧
    w.cancelling = false

/-! ## Effects in a row -/

variable [Elementary α]

mutual

theorem Effect.apply_other (live : Bool) (time : α) (p : Progress α) {latch : ℕ} :
    ∀ e : Effect α, latch ∉ e.latches →
      (Effect.apply live time p e).latches.getD latch true = p.latches.getD latch true
  | .motion window m, _ => by
    rw [(Effect.apply_silent live time p _ (Or.inr (Effect.latches_motion window m))).1]
  | .shoot window pattern other, h => by
    unfold Effect.apply
    split
    · refine change_other p window pattern ?_ time
      simpa using h
    · rfl
  | .loop window body period, h => by
    rw [Effect.latches_loop] at h
    unfold Effect.apply
    split
    · rfl
    · split
      · rw [Effect.applyAll_other live _ _ body h, (replays_moved p body period _).1]
      · exact Effect.applyAll_other live _ p body h

theorem Effect.applyAll_other (live : Bool) (time : α) (p : Progress α) {latch : ℕ} :
    ∀ effects : List (Effect α), latch ∉ Effect.latchesAll effects →
      (Effect.applyAll live time p effects).latches.getD latch true = p.latches.getD latch true
  | [], _ => rfl
  | e :: rest, h => by
    rw [Effect.latchesAll_cons, List.mem_append, not_or] at h
    rw [Effect.applyAll, Effect.applyAll_other live time _ rest h.2,
      Effect.apply_other live time p e h.1]

end

mutual

theorem Effect.announced_prefix (live : Bool) (time : α) (p : Progress α) :
    ∀ e : Effect α, p.announced <+: (Effect.apply live time p e).announced
  | .motion window m => by
    rw [(Effect.apply_silent live time p _ (Or.inr (Effect.latches_motion window m))).2]
  | .shoot window pattern latch => by
    unfold Effect.apply
    split
    · rw [change_voice]
      exact List.prefix_append _ _
    · exact List.prefix_refl _
  | .loop window body period => by
    unfold Effect.apply
    split
    · exact List.prefix_refl _
    · split
      · -- the passes that are replayed say nothing, so only the last one adds to what has been
        -- announced
        next t _ _ =>
        let passes := Scalar.truncate maxPasses (t / period)
        have hlast := Effect.announcedAll_prefix live (t - Scalar.ofNat passes * period)
          (Nat.repeat (fun p => Effect.applyAll false period p body) passes p) body
        rwa [(replays_moved p body period passes).2] at hlast
      · exact Effect.announcedAll_prefix live _ p body

theorem Effect.announcedAll_prefix (live : Bool) (time : α) (p : Progress α) :
    ∀ effects : List (Effect α), p.announced <+: (Effect.applyAll live time p effects).announced
  | [] => List.prefix_refl _
  | e :: rest =>
    (Effect.announced_prefix live time p e).trans (Effect.announcedAll_prefix live time _ rest)

end

def Effect.voices (time : α) (p : Progress α) : List (Effect α) → List (List Packed)
  | [] => []
  | e :: rest =>
    let next := Effect.apply true time p e
    next.announced.drop p.announced.length :: Effect.voices time next rest

theorem Effect.length_voices (time : α) (p : Progress α) (effects : List (Effect α)) :
    (Effect.voices time p effects).length = effects.length := by
  induction effects generalizing p with
  | nil => rfl
  | cons e rest ih => exact congrArg (· + 1) (ih _)

/-- Nothing else is published, and the order of the effects is that of their patterns. -/
theorem Effect.announced_eq_voices (time : α) (p : Progress α) (effects : List (Effect α)) :
    (Effect.applyAll true time p effects).announced = p.announced ++
      (Effect.voices time p effects).flatten := by
  induction effects generalizing p with
  | nil => exact (List.append_nil _).symm
  | cons e rest ih =>
    obtain ⟨own, hown⟩ := Effect.announced_prefix true time p e
    rw [Effect.applyAll, ih, Effect.voices, List.flatten_cons, ← List.append_assoc, ← hown,
      List.drop_left]

theorem Effect.voices_append (time : α) (p : Progress α) (first second : List (Effect α)) :
    Effect.voices time p (first ++ second) =
      Effect.voices time p first ++ Effect.voices time (Effect.applyAll true time p first)
        second := by
  induction first generalizing p with
  | nil => rfl
  | cons e first ih => exact congrArg (_ :: ·) (ih _)

theorem Effect.voices_of_quiet (time : α) (p : Progress α) {effects : List (Effect α)} {i : ℕ}
    {e : Effect α} (hi : effects[i]? = some e) (he : e.latches = []) :
    (Effect.voices time p effects)[i]? = some [] := by
  induction effects generalizing p i with
  | nil => cases hi
  | cons first rest ih =>
    cases i with
    | zero =>
      obtain rfl : first = e := Option.some.inj hi
      have hsilent := (Effect.apply_silent true time p first (Or.inr he)).2
      rw [Effect.voices, List.getElem?_cons_zero, hsilent, List.drop_length]
    | succ i => exact ih _ hi

section

variable {effects : List (Effect α)} {i : ℕ} {w : Window α} {pattern : Packed} {latch : ℕ}
    {p : Progress α}

/-- A pattern change and the effects around it have nothing to do with each other. -/
theorem Effect.change_in_row (hdistinct : (Effect.latchesAll effects).Nodup)
    (hi : effects[i]? = some (.shoot w pattern latch)) (hlatch : latch < p.latches.size)
    (time : α) :
    (Effect.voices time p effects)[i]? = some (voice w pattern (p.latches.getD latch true) time) ∧
      (Effect.applyAll true time p effects).latches.getD latch true =
        (decide (w.Covers time) || decide (w.Begun time) && p.latches.getD latch true) := by
  obtain ⟨hlt, hget⟩ := List.getElem?_eq_some_iff.1 hi
  have hsplit : effects.take i ++ .shoot w pattern latch :: effects.drop (i + 1) = effects := by
    rw [← hget, ← List.drop_eq_getElem_cons hlt, List.take_append_drop]
  have hlength : (effects.take i).length = i := List.length_take_of_le hlt.le
  rw [← hsplit, Effect.latchesAll_append, Effect.latchesAll_cons, Effect.latches_shoot] at hdistinct
  obtain ⟨-, hback, hapart⟩ := List.nodup_append.1 hdistinct
  have hbefore : latch ∉ Effect.latchesAll (effects.take i) :=
    fun hmem => hapart _ hmem latch (by simp) rfl
  have hafter : latch ∉ Effect.latchesAll (effects.drop (i + 1)) := (List.nodup_cons.1 hback).1
  let q := Effect.applyAll true time p (effects.take i)
  have hq : q.latches.getD latch true = p.latches.getD latch true :=
    Effect.applyAll_other true time p _ hbefore
  have hsize : latch < q.latches.size := by
    rw [Effect.applyAll_size]
    exact hlatch
  have hchange : Effect.apply true time q (.shoot w pattern latch) =
      q.change w pattern latch time := by
    rw [Effect.apply, if_pos rfl]
  constructor
  · have hvoices := Effect.voices_append time p (effects.take i)
      (.shoot w pattern latch :: effects.drop (i + 1))
    rw [hsplit] at hvoices
    rw [hvoices, List.getElem?_append_right (by rw [Effect.length_voices, hlength]),
      Effect.length_voices, hlength, Nat.sub_self, Effect.voices, List.getElem?_cons_zero]
    change some (List.drop q.announced.length (Effect.apply true time q _).announced) = _
    rw [hchange, change_voice, List.drop_left, hq]
  · have happly := Effect.applyAll_append true time p (effects.take i)
      (.shoot w pattern latch :: effects.drop (i + 1))
    rw [hsplit] at happly
    rw [happly, Effect.applyAll, Effect.applyAll_other true time _ _ hafter]
    change (Effect.apply true time q _).latches.getD latch true = _
    rw [hchange, change_latches q pattern hsize, hq]

end

namespace Program

variable {program : Program α} {stage latch : ℕ}

omit [Scalar α] [Elementary α] in
theorem effects_latches (h : program.Numbered) (stage : ℕ) :
    (Effect.latchesAll (program.effects stage)).Sublist (List.range program.latches) := by
  unfold effects
  cases hs : program.stages[stage]? with
  | none => simp
  | some s => exact stage_latches h (List.mem_of_getElem? hs)

omit [Scalar α] [Elementary α] in
theorem effects_nodup (h : program.Numbered) (stage : ℕ) :
    (Effect.latchesAll (program.effects stage)).Nodup :=
  List.nodup_range.sublist (effects_latches h stage)

omit [Scalar α] [Elementary α] in
theorem latch_lt (h : program.Numbered) {w : Window α} {pattern : Packed}
    (hmem : Effect.shoot w pattern latch ∈ program.effects stage) : latch < program.latches := by
  have hall : latch ∈ Effect.latchesAll (program.effects stage) := by
    obtain ⟨front, back, hsplit⟩ := List.append_of_mem hmem
    rw [hsplit, Effect.latchesAll_append, Effect.latchesAll_cons, Effect.latches_shoot]
    simp
  exact List.mem_range.1 ((effects_latches h stage).subset hall)

end Program

/-! ## Stays in a stage -/

namespace Call

def moment? : Call α → Option α
  | update time => some time
  | completeStage | evaluate .. | publish _ => none

def moments (calls : List (Call α)) : List α := calls.filterMap moment?

omit [Scalar α] [Elementary α] in
theorem moments_append (earlier later : List (Call α)) :
    moments (earlier ++ later) = moments earlier ++ moments later :=
  List.filterMap_append

end Call

open Call (moments)

namespace Voyage

variable {τ : Type}

def voices (v : Voyage α τ) (time : α) : List (List Packed) :=
  Effect.voices time ⟨v.origin, v.flight.latches, []⟩ (v.flight.program.effects v.flight.stage)

def uttered (i : ℕ) (v : Voyage α τ) : List (Call α) → List Packed
  | [] => []
  | .update time :: rest => (v.voices time).getD i [] ++ uttered i (v.perform (.update time)) rest
  | c :: rest => uttered i (v.perform c) rest

/-- With the last of the calls, a stage begins. -/
def Begins (v : Voyage α τ) (calls : List (Call α)) : Prop :=
  calls = [] ∨ ∃ earlier, calls = earlier ++ [.completeStage] ∧
    (v.run earlier).flight.isLastStage = false

/-- The calls do not lead out of the stage, which may be the last one. -/
def Stays (v : Voyage α τ) (calls : List (Call α)) : Prop :=
  v.flight.isLastStage = true ∨ ∀ c ∈ calls, c.completes = false

variable {v : Voyage α τ} {program : Program α} {stage : ℕ} {past : List α} {time : α}

theorem announces_update (v : Voyage α τ) (time : α) :
    v.announces (.update time) = (v.voices time).flatten := by
  unfold announces voices Program.run Program.effects
  cases v.flight.program.stages[v.flight.stage]? with
  | none => rfl
  | some s => exact Effect.announced_eq_voices time _ s.effects

theorem update_latches (v : Voyage α τ) (time : α) :
    (v.perform (.update time)).flight.latches =
      (Effect.applyAll true time ⟨v.origin, v.flight.latches, []⟩
        (v.flight.program.effects v.flight.stage)).latches := by
  change (v.flight.program.run v.flight.stage v.origin time v.flight.latches).latches = _
  unfold Program.run Program.effects
  cases v.flight.program.stages[v.flight.stage]? <;> rfl

theorem uttered_snoc (i : ℕ) (v : Voyage α τ) (calls : List (Call α)) (c : Call α) :
    v.uttered i (calls ++ [c]) = v.uttered i calls ++ (v.run calls).uttered i [c] := by
  induction calls generalizing v with
  | nil => rfl
  | cons first calls ih =>
    cases first with
    | update time => exact (congrArg (_ ++ ·) (ih _)).trans (List.append_assoc ..).symm
    | completeStage | evaluate | publish => exact ih _

/-- A voyage has been updated at the `past` moments since its stage began. -/
structure Attends (program : Program α) (stage : ℕ) (past : List α) (v : Voyage α τ) : Prop where
  program_eq : v.flight.program = program
  stage_eq : v.flight.stage = stage
  size : v.flight.latches.size = program.latches
  latch : ∀ w pattern latch, Effect.shoot w pattern latch ∈ program.effects stage →
    v.flight.latches.getD latch true = decide (∃ m ∈ past, w.Covers m)

theorem attends_begin {before : List (Call α)} {channel : Channel τ} (hnumbered : program.Numbered)
    (hfresh : v.flight = Flight.start program channel) (hbegins : v.Begins before) :
    Attends program (v.run before).flight.stage [] (v.run before) := by
  have hprogram : ∀ calls, (v.run calls).flight.program = program := fun calls => by
    rw [run_program, hfresh]
    rfl
  have hcleared : (v.run before).flight.latches = program.cleared := by
    rcases hbegins with rfl | ⟨earlier, rfl, hlast⟩
    · exact congrArg Flight.latches hfresh
    · rw [run_append]
      change (Flight.completeStage _).2.latches = _
      rw [Flight.completeStage, if_neg (by simp [hlast]), hprogram]
  refine ⟨hprogram before, rfl, by simp [hcleared, Program.cleared], fun w pattern latch hmem => ?_⟩
  have hlt : latch < program.latches := Program.latch_lt hnumbered hmem
  simp [hcleared, Program.cleared, hlt]

theorem Attends.idle (h : Attends program stage past v) {c : Call α} (hc : c.moment? = none)
    (hstays : v.Stays [c]) : Attends program stage past (v.perform c) := by
  cases c with
  | update time => cases hc
  | evaluate | publish => exact ⟨h.program_eq, h.stage_eq, h.size, h.latch⟩
  | completeStage =>
    have hlast : v.flight.isLastStage = true := by
      refine hstays.resolve_right fun hnone => ?_
      cases hnone .completeStage (List.mem_singleton_self _)
    have hsame : (v.perform .completeStage).flight = v.flight := by
      change v.flight.completeStage.2 = v.flight
      rw [Flight.completeStage, if_pos hlast]
    obtain ⟨hprogram, hstage, hsize, hlatch⟩ := h
    exact ⟨hsame ▸ hprogram, hsame ▸ hstage, hsame ▸ hsize, hsame ▸ hlatch⟩

variable [Scalar.Strict α]

/-- A latch that is set says that the window has been met; one that is met later has not been left
before. -/
theorem Attends.update (h : Attends program stage past v) (hnumbered : program.Numbered)
    (hpast : ∀ m ∈ past, m ≤ time) :
    Attends program stage (past ++ [time]) (v.perform (.update time)) := by
  refine ⟨h.program_eq, h.stage_eq, ?_, fun w pattern latch hmem => ?_⟩
  · rw [update_latches, Effect.applyAll_size]
    exact h.size
  · have hlt : latch < v.flight.latches.size := h.size ▸ Program.latch_lt hnumbered hmem
    obtain ⟨i, hi⟩ := List.getElem?_of_mem hmem
    have hrow := (Effect.change_in_row (p := ⟨v.origin, v.flight.latches, []⟩)
      (Program.effects_nodup hnumbered stage) hi hlt time).2
    have hbegun : (∃ m ∈ past, w.Covers m) → w.Begun time :=
      fun ⟨m, hm, hcovers⟩ => hcovers.1.mono (hpast m hm)
    rw [update_latches, h.program_eq, h.stage_eq, hrow, h.latch w pattern latch hmem,
      ← Bool.decide_and, ← Bool.decide_or, decide_eq_decide, and_iff_right_of_imp hbegun]
    simp only [List.mem_append, List.mem_singleton, or_and_right, exists_or, exists_eq_left]
    exact or_comm

theorem Attends.voices_eq (h : Attends program stage past v) (hnumbered : program.Numbered)
    (hpast : ∀ m ∈ past, m ≤ time) {i : ℕ} {w : Window α} {pattern : Packed} {latch : ℕ}
    (hi : (program.effects stage)[i]? = some (.shoot w pattern latch)) :
    (v.voices time)[i]? =
      some (if w.Begun time ∧ ¬ w.Over time ∧ ∀ m ∈ past, ¬ w.Begun m then [pattern] else []) := by
  have hmem := List.mem_of_getElem? hi
  have hlt : latch < v.flight.latches.size := h.size ▸ Program.latch_lt hnumbered hmem
  have hrow := (Effect.change_in_row (p := ⟨v.origin, v.flight.latches, []⟩)
    (Program.effects_nodup hnumbered stage) hi hlt time).1
  rw [voices, h.program_eq, h.stage_eq, hrow, h.latch w pattern latch hmem, voice]
  refine congrArg some (if_congr ?_ rfl rfl)
  rw [decide_eq_false_iff_not, ← and_assoc]
  refine and_congr_right fun hcovers => ?_
  push Not
  exact forall₂_congr fun m hm => not_congr (Window.begun_iff_covers hcovers (hpast m hm)).symm

omit [Scalar α] [Elementary α] [Scalar.Strict α] in
theorem stays_append {earlier later : List (Call α)} (h : v.Stays (earlier ++ later)) :
    v.Stays earlier :=
  h.imp_right fun hnone c hc => hnone c (List.mem_append_left _ hc)

/-- To follow a stay, it is enough to follow its updates, each not before the one that it comes
after. -/
theorem Attends.induction {P : List (Call α) → Prop} (h : Attends program stage [] v)
    (hnumbered : program.Numbered) {calls : List (Call α)} (hstays : v.Stays calls)
    (hsorted : (moments calls).Pairwise (· ≤ ·)) (nil : P [])
    (idle : ∀ earlier c, c.moment? = none → P earlier → P (earlier ++ [c]))
    (update : ∀ earlier time, Attends program stage (moments earlier) (v.run earlier) →
      (∀ m ∈ moments earlier, m ≤ time) → P earlier → P (earlier ++ [.update time])) :
    Attends program stage (moments calls) (v.run calls) ∧ P calls := by
  induction calls using List.reverseRecOn with
  | nil => exact ⟨h, nil⟩
  | append_singleton calls c ih =>
    rw [Call.moments_append] at hsorted ⊢
    obtain ⟨hbefore, -, hlater⟩ := List.pairwise_append.1 hsorted
    obtain ⟨hcame, hP⟩ := ih (stays_append hstays) hbefore
    rw [run_append]
    cases hc : c.moment? with
    | none =>
      have hnone : moments [c] = [] := by simp [moments, hc]
      rw [hnone, List.append_nil]
      refine ⟨hcame.idle hc ?_, idle calls c hc hP⟩
      rcases hstays with hlast | hnone
      · refine Or.inl ?_
        have hprogram := hcame.program_eq.trans h.program_eq.symm
        have hstage := hcame.stage_eq.trans h.stage_eq.symm
        rw [Flight.isLastStage, hprogram, hstage]
        exact hlast
      · exact Or.inr fun d hd => hnone d (List.mem_append_right _ hd)
    | some time =>
      obtain rfl : c = .update time := by
        cases c <;> simp_all [Call.moment?]
      have hpast : ∀ m ∈ moments calls, m ≤ time := fun m hm =>
        hlater m hm time (List.mem_singleton_self _)
      exact ⟨hcame.update hnumbered hpast, update calls time hcame hpast hP⟩

variable {i : ℕ} {w : Window α} {pattern : Packed} {latch : ℕ} {calls : List (Call α)}

theorem Attends.uttered_eq (h : Attends program stage [] v) (hnumbered : program.Numbered)
    (hstays : v.Stays calls) (hsorted : (moments calls).Pairwise (· ≤ ·))
    (hi : (program.effects stage)[i]? = some (.shoot w pattern latch)) : v.uttered i calls =
      match (moments calls).find? fun m => w.Begun m with
      | some time => if w.Over time then [] else [pattern]
      | none => [] := by
  refine (h.induction (P := fun calls => v.uttered i calls =
    match (moments calls).find? fun m => w.Begun m with
    | some time => if w.Over time then [] else [pattern]
    | none => []) hnumbered hstays hsorted rfl ?_ ?_).2
  · intro earlier c hc ih
    have hnone : moments [c] = [] := by simp [moments, hc]
    have hsilent : (v.run earlier).uttered i [c] = [] := by
      cases c <;> first | rfl | cases hc
    rw [uttered_snoc, ih, hsilent, Call.moments_append, hnone, List.append_nil, List.append_nil]
  · intro earlier time hcame hpast ih
    have hsaid : (v.run earlier).uttered i [.update time] =
        if w.Begun time ∧ ¬ w.Over time ∧ ∀ m ∈ moments earlier, ¬ w.Begun m then
          [pattern] else [] := by
      rw [uttered, List.getD_eq_getElem?_getD, hcame.voices_eq hnumbered hpast hi]
      exact List.append_nil _
    have hmoments : moments (earlier ++ [.update time]) = moments earlier ++ [time] :=
      Call.moments_append ..
    rw [uttered_snoc, ih, hsaid, hmoments, List.find?_append]
    cases hfirst : (moments earlier).find? fun m => w.Begun m with
    | some m =>
      have hm : m ∈ moments earlier := List.mem_of_find?_eq_some hfirst
      have hbegun : w.Begun m := by simpa using List.find?_some hfirst
      rw [if_neg fun hall => hall.2.2 m hm hbegun, List.append_nil, Option.some_or]
    | none =>
      have hnone : ∀ m ∈ moments earlier, ¬ w.Begun m := by simpa using hfirst
      by_cases hbegun : w.Begun time
      · by_cases hover : w.Over time
        · simp [hbegun, hover]
        · simpa [hbegun, hover] using hnone
      · simp [hbegun]

/-! ### The channel -/

omit [Scalar.Strict α] in
theorem announces_of_plain (said : Window α → Bool) (hplain : Plain (program.effects stage))
    (hvoices : ∀ (i : ℕ) w pattern latch, (program.effects stage)[i]? =
      some (.shoot w pattern latch) →
      (v.voices time)[i]? = some (if said w then [pattern] else []))
    (hprogram : v.flight.program = program) (hstage : v.flight.stage = stage) :
    v.announces (.update time) =
      (((program.effects stage).filterMap Effect.change?).filter fun c => said c.1).map
        Prod.snd := by
  have hall : v.voices time = (program.effects stage).map fun e =>
      ((e.change?.toList).filter fun c => said c.1).map Prod.snd := by
    refine List.ext_getElem? fun i => ?_
    rw [List.getElem?_map]
    cases hi : (program.effects stage)[i]? with
    | none =>
      rw [List.getElem?_eq_none_iff] at hi
      refine List.getElem?_eq_none ?_
      rw [voices, Effect.length_voices, hprogram, hstage]
      exact hi
    | some e =>
      rcases hplain e (List.mem_of_getElem? hi) with hquiet | ⟨w, pattern, latch, rfl, -⟩
      · have hnone : e.change? = none := by
          cases e <;> first | rfl | simp at hquiet
        have hsilent : (v.voices time)[i]? = some [] := by
          rw [voices, hprogram, hstage]
          exact Effect.voices_of_quiet time _ hi hquiet
        rw [hsilent, Option.map_some, hnone]
        rfl
      · rw [hvoices i w pattern latch hi, Option.map_some]
        cases hsaid : said w <;> simp [Effect.change?, hsaid]
  rw [announces_update, hall, ← List.flatMap_def]
  induction program.effects stage with
  | nil => rfl
  | cons e rest ih =>
    rw [List.flatMap_cons, ih]
    cases hchange : e.change? with
    | none => simp [hchange]
    | some c => cases hsaid : said c.1 <;> simp [hchange, hsaid]

omit [Elementary α] in
theorem filter_begun {changes : List (Window α × Packed)}
    (hstarts : changes.Pairwise fun c d => c.1.start ≤ d.1.start) (past : List α) (time : α) :
    (changes.filter fun c => decide (∃ m ∈ past ++ [time], c.1.Begun m)) =
      (changes.filter fun c => decide (∃ m ∈ past, c.1.Begun m)) ++
        changes.filter fun c => decide (c.1.Begun time ∧ ∀ m ∈ past, ¬ c.1.Begun m) := by
  rw [filter_of_sorted (fun c => decide (∃ m ∈ past, c.1.Begun m)) _ hstarts]
  · refine congrArg _ (List.filter_congr fun c _ => ?_)
    rw [← decide_not, ← Bool.decide_and, decide_eq_decide]
    constructor
    · rintro ⟨⟨m, hm, hbegun⟩, hnone⟩
      push Not at hnone
      rcases List.mem_append.1 hm with hm | hm
      · exact absurd hbegun (hnone m hm)
      · exact ⟨List.mem_singleton.1 hm ▸ hbegun, hnone⟩
    · rintro ⟨hbegun, hnone⟩
      push Not
      exact ⟨⟨time, by simp, hbegun⟩, hnone⟩
  · intro c d hcd hd
    obtain ⟨m, hm, hbegun⟩ := of_decide_eq_true hd
    exact decide_eq_true ⟨m, hm, fun hbefore => hbegun (Scalar.lt_of_lt_of_le hbefore hcd)⟩
  · intro c _ hc
    obtain ⟨m, hm, hbegun⟩ := of_decide_eq_true hc
    exact decide_eq_true ⟨m, List.mem_append_left _ hm, hbegun⟩

def lastBegun (effects : List (Effect α)) (past : List α) : Option Packed :=
  ((effects.filterMap Effect.change?).filter fun c => decide (∃ m ∈ past, c.1.Begun m)).getLast?.map
    Prod.snd

theorem Attends.channel_last (h : Attends program stage [] v) (hnumbered : program.Numbered)
    (hstays : v.Stays calls) (hsorted : (moments calls).Pairwise (· ≤ ·))
    (hplain : Plain (program.effects stage))
    (hstarts : ((program.effects stage).filterMap Effect.change?).Pairwise
      fun c d => c.1.start ≤ d.1.start)
    (halone : ∀ c ∈ calls, c.publishes = false) :
    (v.run calls).flight.channel.last =
      (lastBegun (program.effects stage) (moments calls)).or v.flight.channel.last := by
  revert halone
  refine (h.induction (P := fun calls => (∀ c ∈ calls, c.publishes = false) →
      (v.run calls).flight.channel.last =
        (lastBegun (program.effects stage) (moments calls)).or v.flight.channel.last)
    hnumbered hstays hsorted ?_ ?_ ?_).2
  · intro _
    have hnone : moments ([] : List (Call α)) = [] := rfl
    simp [hnone, run, lastBegun]
  · intro earlier c hc ih halone
    have hnone : moments [c] = [] := by simp [moments, hc]
    have hsilent : (v.run earlier).announces c = [] := by
      cases c <;> first | rfl | cases hc
    have hchannel := congrArg Prod.fst (perform_channel (halone c (by simp)) (v.run earlier))
    rw [hsilent] at hchannel
    rw [Call.moments_append, hnone, List.append_nil,
      ← ih fun d hd => halone d (List.mem_append_left _ hd), run_append]
    exact (congrArg Channel.last hchannel).symm
  · intro earlier time hcame hpast ih halone
    have hvoices : ∀ (i : ℕ) w pattern latch,
        (program.effects stage)[i]? = some (.shoot w pattern latch) →
        ((v.run earlier).voices time)[i]? =
          some (if decide (w.Begun time ∧ ∀ m ∈ moments earlier, ¬ w.Begun m) then
            [pattern] else []) := by
      intro i w pattern latch hi
      -- no change is taken back, so each is heard when its window begins
      have hover : ¬ w.Over time := by
        rcases hplain _ (List.mem_of_getElem? hi) with hquiet | ⟨_, _, _, heq, hcancelling⟩
        · simp at hquiet
        · cases heq
          simp [Window.Over, hcancelling]
      rw [hcame.voices_eq hnumbered hpast hi]
      simp [hover]
    have hmoments : moments (earlier ++ [.update time]) = moments earlier ++ [time] :=
      Call.moments_append ..
    have hsaid := announces_of_plain
      (fun w => decide (w.Begun time ∧ ∀ m ∈ moments earlier, ¬ w.Begun m)) hplain
      hvoices hcame.program_eq hcame.stage_eq
    have hchannel := congrArg Prod.fst (perform_channel (halone (.update time) (by simp))
      (v.run earlier))
    have hlast := congrArg Channel.last hchannel
    rw [Channel.publishAll_last, hsaid, ih fun d hd => halone d (List.mem_append_left _ hd),
      List.getLast?_map, ← Option.or_assoc, lastBegun, ← Option.map_or, ← List.getLast?_append,
      ← filter_begun hstarts] at hlast
    rw [run_append, hmoments]
    exact hlast.symm

omit [Elementary α] in
theorem lastBegun_snoc (effects : List (Effect α)) (hpast : ∀ m ∈ past, m ≤ time) :
    lastBegun effects (past ++ [time]) =
      ((effects.filterMap Effect.change?).filter fun c => decide (c.1.Begun time)).getLast?.map
        Prod.snd := by
  unfold lastBegun
  congr 2
  refine List.filter_congr fun c _ => decide_eq_decide.2 ⟨?_, fun hbegun => ⟨time, by simp, hbegun⟩⟩
  rintro ⟨m, hm, hbegun⟩
  rcases List.mem_append.1 hm with hm | hm
  · exact hbegun.mono (hpast m hm)
  · exact List.mem_singleton.1 hm ▸ hbegun

end Voyage

/-! ## The main statement -/

/-- In a stage, a pattern change outside of all blocks is heard at the first moment of its window,
if it does not come too late for a window that cancels, and at no other; what is due at one moment
is heard in the order of the effects. So where all changes of a stage are of this kind and none
cancels, and their windows begin in their own order, the channel always carries the last one whose
window has begun. -/
theorem top_level_patterns_are_heard_once {τ : Type} [Scalar.Strict α] {program : Program α}
    {tokens : List (Token α)} {setting : Setting α} {words words' : Words}
    (hnest : Token.checkNesting 0 tokens = .ok ())
    (hcompile : compile setting tokens words = .ok (program, words')) {voyage : Voyage α τ}
    {channel : Channel τ} (hvoyage : voyage.flight = Flight.start program channel)
    {before stay : List (Call α)} (hbegins : voyage.Begins before)
    (hstays : (voyage.run before).Stays stay) (hsorted : (moments stay).Pairwise (· ≤ ·)) :
    let arrived := voyage.run before
    let effects := program.effects arrived.flight.stage
    (∀ earlier time later, stay = earlier ++ .update time :: later →
      (arrived.run earlier).announces (.update time) = ((arrived.run earlier).voices time).flatten ∧
        ((arrived.run earlier).voices time).length = effects.length ∧
        ∀ (i : ℕ) (w : Window α) (pattern : Packed) (latch : ℕ),
          effects[i]? = some (.shoot w pattern latch) →
          ((arrived.run earlier).voices time)[i]? =
            some (if w.Begun time ∧ ¬ w.Over time ∧ ∀ m ∈ moments earlier, ¬ w.Begun m then
              [pattern] else [])) ∧
    (∀ (i : ℕ) (w : Window α) (pattern : Packed) (latch : ℕ),
      effects[i]? = some (.shoot w pattern latch) →
      arrived.uttered i stay =
        match (moments stay).find? fun m => w.Begun m with
        | some time => if w.Over time then [] else [pattern]
        | none => []) ∧
    (Plain effects →
      (effects.filterMap Effect.change?).Pairwise (fun c d => c.1.start ≤ d.1.start) →
      (∀ c ∈ stay, c.publishes = false) →
      ∀ earlier time later, stay = earlier ++ .update time :: later →
        (arrived.run (earlier ++ [.update time])).flight.channel.last =
          (((effects.filterMap Effect.change?).filter fun c => decide (c.1.Begun time)).getLast?.map
            Prod.snd).or arrived.flight.channel.last) ∧
    ∀ (w : Window α) (time : α), Scalar.Defined w.start → Scalar.Defined time →
      (w.Begun time ↔ w.start ≤ time) := by
  intro arrived effects
  have hnumbered : program.Numbered := (mirrors_of_ok hnest hcompile).latches
  have hfresh : Voyage.Attends program arrived.flight.stage [] arrived :=
    Voyage.attends_begin hnumbered hvoyage hbegins
  have hpart : ∀ earlier later, stay = earlier ++ later →
      arrived.Stays earlier ∧ (moments earlier).Pairwise (· ≤ ·) := by
    rintro earlier later rfl
    rw [Call.moments_append] at hsorted
    exact ⟨Voyage.stays_append hstays, (List.pairwise_append.1 hsorted).1⟩
  have hpast : ∀ earlier time later, stay = earlier ++ .update time :: later →
      ∀ m ∈ moments earlier, m ≤ time := by
    rintro earlier time later rfl m hm
    rw [Call.moments_append] at hsorted
    exact (List.pairwise_append.1 hsorted).2.2 m hm time (List.mem_cons_self ..)
  refine ⟨?_, ?_, ?_, fun w time hstart htime => Window.begun_iff hstart htime⟩
  · intro earlier time later hstay
    obtain ⟨hearlier, htimes⟩ := hpart earlier _ hstay
    have hcame := (hfresh.induction (P := fun _ => True) hnumbered hearlier htimes trivial
      (fun _ _ _ _ => trivial) fun _ _ _ _ _ => trivial).1
    refine ⟨Voyage.announces_update _ time, ?_, ?_⟩
    · rw [Voyage.voices, Effect.length_voices, hcame.program_eq, hcame.stage_eq]
    · intro i w pattern latch hi
      exact hcame.voices_eq hnumbered (hpast earlier time later hstay) hi
  · intro i w pattern latch hi
    exact hfresh.uttered_eq hnumbered hstays hsorted hi
  · intro hplain hstarts halone earlier time later hstay
    have hmoments : moments (earlier ++ [.update time]) = moments earlier ++ [time] :=
      Call.moments_append ..
    have hsplit : stay = (earlier ++ [.update time]) ++ later := by
      rw [hstay, List.append_assoc]
      rfl
    obtain ⟨hupdated, htimes⟩ := hpart _ later hsplit
    have hlast := hfresh.channel_last hnumbered hupdated htimes hplain hstarts fun c hc =>
      halone c (hsplit ▸ List.mem_append_left _ hc)
    rw [hlast, hmoments, Voyage.lastBegun_snoc effects (hpast earlier time later hstay)]

/-- A pattern, and in the stage behind it two more that come one second and two seconds later. -/
def twoSignals : List (Token Float32) :=
  [.shoot (.packed ⟨3⟩), .stage "Gem", .after (.literal 1), .shoot (.packed ⟨5⟩),
    .linear .left (.literal 20), .after (.literal 1), .shoot (.packed ⟨7⟩)]

def twoSignalsProgram : Program Float32 :=
  ⟨[⟨[.shoot ⟨0, Scalar.infinity, false⟩ ⟨3⟩ 0], some 'G'⟩,
    ⟨[.shoot ⟨1, Scalar.infinity, false⟩ ⟨5⟩ 1, .motion ⟨1, Scalar.infinity, false⟩
      (.linear .left 20), .shoot ⟨2, Scalar.infinity, false⟩ ⟨7⟩ 2], none⟩], false, 3⟩

theorem compile_twoSignals :
    compile ⟨120, ⟨320, 180⟩⟩ twoSignals (Words.cycle #[]) =
      .ok (twoSignalsProgram, Words.cycle #[]) := by
  rfl

def signalled : Voyage Float32 Unit :=
  ⟨⟨10, 20⟩, ⟨0, 0⟩, Flight.start twoSignalsProgram Channel.new⟩

def signalCalls : List (Call Float32) := [.update 0, .evaluate 0 2, .update 3, .update 4]

theorem skipped_signals_are_heard_in_one_update :
    Token.checkNesting 0 twoSignals = .ok () ∧ signalled.Begins [.update 5, .completeStage] ∧
    (signalled.run [.update 5, .completeStage]).Stays signalCalls ∧
    (moments signalCalls).Pairwise (· ≤ ·) ∧
    ((signalled.run [.update 5, .completeStage]).run [.update 0, .evaluate 0 2]).announces
      (.update 3) = [⟨5⟩, ⟨7⟩] ∧
    (signalled.run [.update 5, .completeStage]).uttered 2 signalCalls = [⟨7⟩] ∧
    ((signalled.run [.update 5, .completeStage]).run
      ([.update 0, .evaluate 0 2, .update 3] ++ [.update 4])).flight.channel.last = some ⟨7⟩ := by
  have hfresh : signalled.flight = Flight.start twoSignalsProgram Channel.new := rfl
  have hbegins : signalled.Begins [.update 5, .completeStage] := Or.inr ⟨[.update 5], rfl, rfl⟩
  have hstays : (signalled.run [.update 5, .completeStage]).Stays signalCalls := Or.inr (by decide)
  have hsorted : (moments signalCalls).Pairwise (· ≤ ·) := by decide +kernel
  obtain ⟨heach, hwhole, hlast, -⟩ := top_level_patterns_are_heard_once rfl compile_twoSignals
    hfresh hbegins hstays hsorted
  have hstage : (signalled.run [.update 5, .completeStage]).flight.stage = 1 := rfl
  have hplain : Plain (twoSignalsProgram.effects
      (signalled.run [.update 5, .completeStage]).flight.stage) := by
    rw [hstage]
    rintro e (_ | ⟨_, _ | ⟨_, _ | ⟨_, ⟨⟩⟩⟩⟩)
    · exact Or.inr ⟨_, _, _, rfl, rfl⟩
    · exact Or.inl (Effect.latches_motion ..)
    · exact Or.inr ⟨_, _, _, rfl, rfl⟩
  have hstarts : ((twoSignalsProgram.effects
      (signalled.run [.update 5, .completeStage]).flight.stage).filterMap
      Effect.change?).Pairwise fun c d => c.1.start ≤ d.1.start := by decide +kernel
  have halone : ∀ c ∈ signalCalls, c.publishes = false := by decide
  refine ⟨rfl, hbegins, hstays, hsorted, ?_, ?_, ?_⟩
  · obtain ⟨hannounces, -⟩ := heach [.update 0, .evaluate 0 2] 3 [.update 4] rfl
    refine hannounces.trans ?_
    decide +kernel
  · refine (hwhole 2 ⟨2, Scalar.infinity, false⟩ ⟨7⟩ 2 rfl).trans ?_
    decide +kernel
  · rw [hlast hplain hstarts halone [.update 0, .evaluate 0 2, .update 3] 4 [] rfl]
    decide +kernel

end Barrage.Trajectory
