import Barrage.Proofs.Firing

/-! # What a scheduler asks and fires

A rhythm can be made to enter every call it answers in a record. Nothing else changes by that, so
what is in the record is what a scheduler asks and fires with the rhythm alone, over its whole
life. -/

namespace Barrage

inductive Scheduler.Entry (α : Type) where
  | asked (count : ℕ) (left delay : α)
  | fired (firing : Firing α) (goesOn : Bool)
  deriving DecidableEq

def Rhythm.recorded {α σ : Type} (r : Rhythm α σ) : Rhythm α (σ × List (Scheduler.Entry α)) where
  delay count left c :=
    let (delay, context) := r.delay count left c.1
    (delay, context, c.2 ++ [.asked count left delay])
  act firing c :=
    let (goesOn, context) := r.act firing c.1
    (goesOn, context, c.2 ++ [.fired firing goesOn])

def Rhythm.every {α : Type} (delay : α) : Rhythm α Unit where
  delay _ _ context := (delay, context)
  act _ context := (true, context)

namespace Scheduler

section Entries

variable {α : Type}

def firings (calls : List (Entry α)) : List (Firing α) :=
  calls.filterMap fun
    | .asked .. => none
    | .fired firing _ => some firing

def heard (initial : Option α) (calls : List (Entry α)) : List α :=
  initial.toList ++ calls.filterMap fun
    | .asked _ _ delay => some delay
    | .fired .. => none

structure Round (α : Type) where
  firing : Firing α
  goesOn : Bool
  delay : α

def Round.calls (x : Round α) : List (Entry α) :=
  [.fired x.firing x.goesOn, .asked x.firing.count x.firing.lag x.delay]

@[simp] theorem firings_append (earlier later : List (Entry α)) :
    firings (earlier ++ later) = firings earlier ++ firings later :=
  List.filterMap_append

@[simp] theorem firings_round (x : Round α) : firings x.calls = [x.firing] := rfl

@[simp] theorem heard_append (initial : Option α) (earlier later : List (Entry α)) :
    heard initial (earlier ++ later) = heard initial earlier ++ heard none later := by
  simp [heard]

@[simp] theorem heard_round (x : Round α) : heard none x.calls = [x.delay] := rfl

end Entries

variable {α σ : Type} [Scalar α]

/-- A scheduler is made, and one update follows the other. -/
def life (r : Rhythm α σ) (initial : Option α) (context : σ) (dts : List α) : Scheduler α × σ :=
  dts.foldl (fun p dt => p.1.update r p.2 dt) (start r initial context)

def record (r : Rhythm α σ) (initial : Option α) (context : σ) (dts : List α) : List (Entry α) :=
  (life r.recorded initial (context, []) dts).2.2

/-- What is asked when a scheduler is made. -/
def opening (r : Rhythm α σ) (initial : Option α) (context : σ) : List (Entry α) :=
  match initial with
  | some _ => []
  | none => [.asked 0 0 (r.delay 0 0 context).1]

def firing (s : Scheduler α) : Firing α :=
  ⟨s.count + 1, s.window, s.total, Scalar.max (s.window - s.delay) 0⟩

def onward (s : Scheduler α) (x : Round α) : Scheduler α :=
  ⟨x.delay, x.firing.lag, s.total, x.firing.count, x.goesOn⟩

variable {initial : Option α} {context : σ} {s : Scheduler α} {dt : α}

def round (r : Rhythm α σ) (s : Scheduler α) (context : σ) : Round α :=
  ⟨s.firing, (s.fire r context).1.running, (s.fire r context).1.delay⟩

theorem fire_recorded (r : Rhythm α σ) (s : Scheduler α) (context : σ) (calls : List (Entry α)) :
    s.fire r.recorded (context, calls) =
      (s.onward (s.round r context), (s.fire r context).2, calls ++ (s.round r context).calls) := by
  simp [fire, Rhythm.recorded, round, Round.calls, onward, firing]

theorem onward_count {x : Round α} (hx : x.firing = s.firing) :
    (s.onward x).count = s.count + 1 := by
  change x.firing.count = _
  rw [hx]
  rfl

/-! ## The record changes nothing -/

theorem fireDue_recorded (r : Rhythm α σ) (bound : ℕ) (s : Scheduler α) (context : σ)
    (calls : List (Entry α)) : ∃ new, fireDue r.recorded bound s (context, calls) =
      ((fireDue r bound s context).1, (fireDue r bound s context).2, calls ++ new) := by
  induction bound generalizing s context calls with
  | zero => exact ⟨[], by simp [fireDue]⟩
  | succ bound ih =>
    unfold fireDue
    by_cases hdue : s.isDue = true
    · have hfire : s.onward (s.round r context) = (s.fire r context).1 := rfl
      simp only [hdue, if_true, fire_recorded, hfire]
      by_cases hgoes : (s.fire r context).1.running = true
      · simp only [hgoes, if_true]
        obtain ⟨new, hnew⟩ := ih (s.fire r context).1 (s.fire r context).2 _
        exact ⟨_, by rw [hnew, List.append_assoc]⟩
      · simp only [hgoes]
        exact ⟨_, rfl⟩
    · simp only [hdue]
      exact ⟨[], by simp⟩

theorem update_recorded (r : Rhythm α σ) (s : Scheduler α) (context : σ)
    (calls : List (Entry α)) (dt : α) : ∃ new, s.update r.recorded (context, calls) dt =
      ((s.update r context dt).1, (s.update r context dt).2, calls ++ new) := by
  unfold update
  split
  · exact ⟨[], by simp⟩
  · exact fireDue_recorded r maxFirings _ context calls

theorem start_recorded (r : Rhythm α σ) (initial : Option α) (context : σ) :
    start r.recorded initial (context, []) =
      ((start r initial context).1, (start r initial context).2, opening r initial context) := by
  cases initial with
  | none => rfl
  | some delay => rfl

theorem life_append (r : Rhythm α σ) (initial : Option α) (context : σ) (dts more : List α) :
    life r initial context (dts ++ more) =
      more.foldl (fun p dt => p.1.update r p.2 dt) (life r initial context dts) :=
  List.foldl_append

theorem life_recorded (r : Rhythm α σ) (initial : Option α) (context : σ) (dts : List α) :
    life r.recorded initial (context, []) dts =
      ((life r initial context dts).1, (life r initial context dts).2,
        record r initial context dts) := by
  induction dts using List.reverseRecOn with
  | nil => simp [record, life, start_recorded]
  | append_singleton dts dt ih =>
    obtain ⟨new, hnew⟩ := update_recorded r (life r initial context dts).1
      (life r initial context dts).2 (record r initial context dts) dt
    have hlife : life r.recorded initial (context, []) (dts ++ [dt]) =
        ((life r initial context (dts ++ [dt])).1, (life r initial context (dts ++ [dt])).2,
          record r initial context dts ++ new) := by
      rw [life_append, life_append, ih]
      exact hnew
    rw [record, hlife]

theorem record_snoc (r : Rhythm α σ) (initial : Option α) (context : σ) (dts : List α) (dt : α) :
    ∃ new, record r initial context (dts ++ [dt]) = record r initial context dts ++ new := by
  obtain ⟨new, hnew⟩ := update_recorded r (life r initial context dts).1
    (life r initial context dts).2 (record r initial context dts) dt
  refine ⟨new, ?_⟩
  rw [record, life_append, life_recorded]
  exact congrArg (fun p => p.2.2) hnew

/-- What holds when a scheduler is made, while time passes and over every firing holds all its life.
The action may answer anything, and so may the generator, whose answers are its own in some
context. -/
theorem record_induction {P : Scheduler α → List (Entry α) → Prop} {r : Rhythm α σ} {dts : List α}
    (hstart : P (start r initial context).1 (opening r initial context))
    (hawait : ∀ s calls, ∀ dt ∈ dts, ¬ dt ≤ 0 → P s calls → P (s.await dt) calls)
    (hfire : ∀ s calls x, s.isDue = true → s.running = true → x.firing = s.firing →
      (∃ c, x.delay = (r.delay x.firing.count x.firing.lag c).1) → P s calls →
      P (s.onward x) (calls ++ x.calls)) :
    P (life r initial context dts).1 (record r initial context dts) := by
  have hrecorded : P (life r.recorded initial (context, []) dts).1
      (life r.recorded initial (context, []) dts).2.2 := by
    induction dts using List.reverseRecOn with
    | nil => simpa [life, start_recorded] using hstart
    | append_singleton dts dt ih =>
      have hbefore := ih fun s calls dt hmem => hawait s calls dt (List.mem_append_left _ hmem)
      rw [life_append, List.foldl_cons, List.foldl_nil]
      generalize life r.recorded initial (context, []) dts = p at hbefore
      by_cases hdt : dt ≤ 0
      · simpa [update, hdt] using hbefore
      by_cases hrun : p.1.running = true
      · refine update_induction (P := fun s (c : σ × List (Entry α)) => P s c.2) hdt hrun ?_
          (hawait _ _ dt (by simp) hdt hbefore)
        intro s c hdue hgoes hP
        rw [fire_recorded]
        exact hfire s c.2 _ hdue hgoes rfl ⟨_, rfl⟩ hP
      · rw [update_stopped _ (Bool.eq_false_iff.2 hrun)]
        exact hbefore
  rw [life_recorded] at hrecorded
  exact hrecorded

end Scheduler

end Barrage
