import Barrage.Proofs.Scalar.Rounding
import Barrage.Proofs.Scheduler.Record

/-! # Turns of action and generator

A life is made of rounds, numbered from one: the action fires, and then the generator is asked for
the next delay. The action ends it with the first answer that is not to go on, a delay that is not
finite ends it as well, and an update breaks off after so many rounds. No rhythm can change that,
whatever it answers. -/

namespace Barrage.Scheduler

variable {α σ : Type} [Scalar α] {r : Rhythm α σ} {initial : Option α} {context : σ}
  {s : Scheduler α} {calls : List (Entry α)} {rounds : List (Round α)} {dt : α}

/-- How a scheduler stands after its rounds so far. What is left of a window when its delay is taken
out of it is the lag of the firing and what the generator is asked with. -/
structure InTurn (initial : Option α) (opening calls : List (Entry α)) (s : Scheduler α)
    (rounds : List (Round α)) : Prop where
  calls_eq : calls = opening ++ rounds.flatMap Round.calls
  counts : rounds.map (·.firing.count) = List.range' 1 s.count
  goes_on : s.running = true → ∀ x ∈ rounds, x.goesOn = true
  stops : s.running = false →
    ∃ earlier x, rounds = earlier ++ [x] ∧ x.goesOn = false ∧ ∀ y ∈ earlier, y.goesOn = true
  heard_length : (heard initial calls).length = s.count + 1
  pending : (heard initial calls).getLast? = some s.delay
  left : ∀ (k : ℕ) (x : Round α), rounds[k]? = some x → ∃ d, (heard initial calls)[k]? = some d ∧
    x.firing.lag = Scalar.max (x.firing.inWindow - d) 0

omit [Scalar α] in
theorem heard_stays {k : ℕ} {d : α} (later : List (Entry α))
    (h : (heard initial calls)[k]? = some d) : (heard initial (calls ++ later))[k]? = some d := by
  rw [heard_append, List.getElem?_append_left (List.getElem?_eq_some_iff.1 h).1]
  exact h

theorem heard_opening (r : Rhythm α σ) (initial : Option α) (context : σ) :
    heard initial (opening r initial context) = [(start r initial context).1.delay] := by
  cases initial with
  | none => rfl
  | some delay => rfl

theorem inTurn_start (r : Rhythm α σ) (initial : Option α) (context : σ) :
    InTurn initial (opening r initial context) (opening r initial context)
      (start r initial context).1 [] := by
  have hcount : (start r initial context).1.count = 0 := by cases initial <;> rfl
  have hruns : (start r initial context).1.running = true := by cases initial <;> rfl
  constructor
  · simp
  · simp [hcount]
  · intro _ x hx
    cases hx
  · intro hstops
    rw [hruns] at hstops
    cases hstops
  · rw [heard_opening, hcount]
    rfl
  · rw [heard_opening]
    rfl
  · intro k x hx
    cases hx

theorem InTurn.await {opening : List (Entry α)} (h : InTurn initial opening calls s rounds)
    (dt : α) : InTurn initial opening calls (s.await dt) rounds :=
  ⟨h.calls_eq, h.counts, h.goes_on, h.stops, h.heard_length, h.pending, h.left⟩

theorem InTurn.length_eq {opening : List (Entry α)} (h : InTurn initial opening calls s rounds) :
    rounds.length = s.count := by
  simpa using congrArg List.length h.counts

theorem inTurn_fire {opening : List (Entry α)} {x : Round α}
    (h : InTurn initial opening calls s rounds) (hruns : s.running = true)
    (hx : x.firing = s.firing) :
    InTurn initial opening (calls ++ x.calls) (s.onward x) (rounds ++ [x]) := by
  have hcount : x.firing.count = s.count + 1 := onward_count hx
  have hlength := h.length_eq
  constructor
  · rw [h.calls_eq]
    simp
  · rw [List.map_append, h.counts, List.map_singleton, hcount, onward_count hx,
      List.range'_1_concat, Nat.add_comm 1]
  · intro hgoes y hy
    rcases List.mem_append.1 hy with hy | hy
    · exact h.goes_on hruns y hy
    · rw [List.mem_singleton.1 hy]
      exact hgoes
  · intro hstops
    exact ⟨rounds, x, rfl, hstops, h.goes_on hruns⟩
  · rw [heard_append, heard_round, List.length_append, List.length_singleton, h.heard_length,
      onward_count hx]
  · rw [heard_append, heard_round, List.getLast?_concat]
    rfl
  · intro k y hy
    rcases lt_or_ge k rounds.length with hk | hk
    · rw [List.getElem?_append_left hk] at hy
      obtain ⟨d, hd, hleft⟩ := h.left k y hy
      exact ⟨d, heard_stays x.calls hd, hleft⟩
    · obtain ⟨hlast, rfl⟩ : k = rounds.length ∧ x = y := by
        have hlt := (List.getElem?_eq_some_iff.1 hy).1
        rw [List.length_append, List.length_singleton] at hlt
        obtain rfl : k = rounds.length := by omega
        exact ⟨rfl, by simpa using hy⟩
      have hpending := h.pending
      rw [List.getLast?_eq_getElem?, h.heard_length, Nat.add_sub_cancel, ← hlength, ← hlast]
        at hpending
      exact ⟨s.delay, heard_stays x.calls hpending, by rw [hx]; rfl⟩

theorem inTurn (r : Rhythm α σ) (initial : Option α) (context : σ) (dts : List α) :
    ∃ rounds, InTurn initial (opening r initial context) (record r initial context dts)
      (life r initial context dts).1 rounds := by
  refine record_induction (P := fun s calls => ∃ rounds, InTurn initial
    (opening r initial context) calls s rounds) ⟨[], inTurn_start r initial context⟩ ?_ ?_
  · rintro s calls dt - - ⟨rounds, h⟩
    exact ⟨rounds, h.await dt⟩
  · rintro s calls x - hruns hx - ⟨rounds, h⟩
    exact ⟨rounds ++ [x], inTurn_fire h hruns hx⟩

/-! ## What the rounds say -/

omit [Scalar α] in
theorem firings_rounds (rounds : List (Round α)) :
    firings (rounds.flatMap Round.calls) = rounds.map Round.firing := by
  induction rounds with
  | nil => rfl
  | cons x rounds ih =>
    rw [List.flatMap_cons, firings_append, firings_round, ih, List.map_cons]; rfl

theorem firings_opening (r : Rhythm α σ) (initial : Option α) (context : σ) :
    firings (opening r initial context) = [] := by
  cases initial <;> rfl

theorem firing_counts (r : Rhythm α σ) (initial : Option α) (context : σ) (dts : List α) :
    (firings (record r initial context dts)).map Firing.count =
      List.range' 1 (life r initial context dts).1.count := by
  obtain ⟨rounds, h⟩ := inTurn r initial context dts
  rw [h.calls_eq, firings_append, firings_opening, firings_rounds, List.nil_append, List.map_map]
  exact h.counts

theorem firings_length (r : Rhythm α σ) (initial : Option α) (context : σ) (dts : List α) :
    (firings (record r initial context dts)).length = (life r initial context dts).1.count := by
  simpa using congrArg List.length (firing_counts r initial context dts)

theorem InTurn.running_eq {opening : List (Entry α)} (h : InTurn initial opening calls s rounds) :
    s.running = (rounds.getLast?.map Round.goesOn).getD true := by
  cases hrun : s.running with
  | true =>
    cases hlast : rounds.getLast? with
    | none => rfl
    | some x => exact (h.goes_on hrun x (List.mem_of_getLast? hlast)).symm
  | false =>
    obtain ⟨earlier, x, rfl, hx, -⟩ := h.stops hrun
    simp [hx]

/-- An answer that is not to go on is the last of the action, and one question follows it. -/
theorem InTurn.last_of_refused {f : Firing α}
    (h : InTurn initial (opening r initial context) calls s rounds) (hf : .fired f false ∈ calls) :
    s.running = false ∧ ∃ earlier d, calls = earlier ++ [.fired f false,
      .asked f.count f.lag d] := by
  have hround : ∃ x ∈ rounds, x.firing = f ∧ x.goesOn = false := by
    rw [h.calls_eq, List.mem_append, List.mem_flatMap] at hf
    rcases hf with hf | ⟨x, hx, hf⟩
    · cases initial with
      | none => simp [opening] at hf
      | some => cases hf
    · obtain ⟨rfl, hrefused⟩ : f = x.firing ∧ x.goesOn = false := by simpa [Round.calls] using hf
      exact ⟨x, hx, rfl, hrefused⟩
  obtain ⟨x, hx, rfl, hrefused⟩ := hround
  cases hrun : s.running with
  | true =>
    rw [h.goes_on hrun x hx] at hrefused
    cases hrefused
  | false =>
    obtain ⟨earlier, y, hrounds, -, hearlier⟩ := h.stops hrun
    have hlast : x = y := by
      rw [hrounds] at hx
      rcases List.mem_append.1 hx with hx | hx
      · rw [hearlier x hx] at hrefused
        cases hrefused
      · exact List.mem_singleton.1 hx
    refine ⟨rfl, opening r initial context ++ earlier.flatMap Round.calls, x.delay, ?_⟩
    rw [h.calls_eq, hrounds, hlast, List.flatMap_append, List.append_assoc]
    rw [hlast] at hrefused
    simp [Round.calls, hrefused]

/-! ## How a life ends -/

theorem life_stopped {dts : List α} (h : (life r initial context dts).1.running = false)
    (more : List α) : life r initial context (dts ++ more) = life r initial context dts := by
  induction more using List.reverseRecOn with
  | nil => rw [List.append_nil]
  | append_singleton more dt ih =>
    rw [← List.append_assoc, life_append, ih]
    exact update_stopped r h _ dt

theorem update_endless (r : Rhythm α σ) (h : Scalar.isFinite s.delay = false)
    (context : σ) (dt : α) :
    (s.update r context dt).1.delay = s.delay ∧ (s.update r context dt).2 = context := by
  unfold update
  split
  · exact ⟨rfl, rfl⟩
  · unfold maxFirings fireDue
    simp [isDue, h]

theorem life_endless {dts : List α}
    (h : Scalar.isFinite (life r initial context dts).1.delay = false) (more : List α) :
    (life r initial context (dts ++ more)).1.delay = (life r initial context dts).1.delay ∧
      (life r initial context (dts ++ more)).2 = (life r initial context dts).2 := by
  induction more using List.reverseRecOn with
  | nil => rw [List.append_nil]; exact ⟨rfl, rfl⟩
  | append_singleton more dt ih =>
    rw [← List.append_assoc, life_append]
    rw [← ih.1] at h
    obtain ⟨hdelay, hcontext⟩ := update_endless r h (life r initial context (dts ++ more)).2 dt
    exact ⟨hdelay.trans ih.1, hcontext.trans ih.2⟩

/-- Neither has the last update stopped the scheduler, nor has it broken off. -/
def CaughtUp (r : Rhythm α σ) (initial : Option α) (context : σ) (dts : List α) : Prop :=
  ∃ earlier dt, dts = earlier ++ [dt] ∧ (life r initial context dts).1.running = true ∧
    (life r initial context dts).1.count < (life r initial context earlier).1.count + maxFirings

theorem CaughtUp.not_due {dts : List α} (h : CaughtUp r initial context dts)
    (hdts : ∀ dt ∈ dts, ¬ dt ≤ 0) : (life r initial context dts).1.isDue = false := by
  obtain ⟨earlier, dt, rfl, hrun, hcount⟩ := h
  have hdt := hdts dt (by simp)
  rw [life_append, List.foldl_cons, List.foldl_nil] at hrun hcount ⊢
  cases hbefore : (life r initial context earlier).1.running with
  | false =>
    rw [update_stopped r hbefore, hbefore] at hrun
    cases hrun
  | true =>
    rw [update_eq r _ hdt hbefore] at hrun hcount ⊢
    exact not_due_of_lt maxFirings hrun hcount

/-- Whatever a rhythm answers and however time is cut: the calls of a life are the question that
makes the scheduler, if no delay is given for it, and then rounds numbered from one, in each of
which the action is told of a firing and the generator asked with its number and with what is left
of the window. An update makes so many rounds at most, and its result is the last answer of the
action. The first answer that is not to go on is the last, and with a delay that is not finite no
call comes any more. -/
theorem calls_take_turns [Scalar.Linear α] (r : Rhythm α σ) (initial : Option α) (context : σ)
    (dts : List α) :
    ∃ (s : Scheduler α) (c : σ) (calls : List (Entry α)) (rounds : List (Round α)),
      life r initial context dts = (s, c) ∧
      life r.recorded initial (context, []) dts = (s, c, calls) ∧
      calls = opening r initial context ++ rounds.flatMap Round.calls ∧
      rounds.map (·.firing.count) = List.range' 1 s.count ∧
      (∀ (k : ℕ) (x : Round α), rounds[k]? = some x → ∃ d, (heard initial calls)[k]? = some d ∧
        x.firing.lag = Scalar.max (x.firing.inWindow - d) 0 ∧ 0 ≤ x.firing.lag) ∧
      s.running = (rounds.getLast?.map Round.goesOn).getD true ∧
      (∀ dt, ∃ new, record r initial context (dts ++ [dt]) = calls ++ new ∧
        (firings new).length ≤ maxFirings) ∧
      (∀ f, .fired f false ∈ calls →
        (∃ earlier d, calls = earlier ++ [.fired f false, .asked f.count f.lag d]) ∧
        ∀ more, life r.recorded initial (context, []) (dts ++ more) = (s, c, calls)) ∧
      (Scalar.isFinite s.delay = false →
        ∀ more, record r initial context (dts ++ more) = calls) := by
  obtain ⟨rounds, h⟩ := inTurn r initial context dts
  have hlife := life_recorded r initial context dts
  refine ⟨_, _, _, rounds, rfl, hlife, h.calls_eq, h.counts, ?_, h.running_eq, ?_, ?_, ?_⟩
  · intro k x hx
    obtain ⟨d, hd, hleft⟩ := h.left k x hx
    refine ⟨d, hd, hleft, ?_⟩
    rw [hleft]
    exact Scalar.zero_le_max _
  · intro dt
    obtain ⟨new, hnew⟩ := record_snoc r initial context dts dt
    refine ⟨new, hnew, ?_⟩
    have hbefore := firings_length r initial context dts
    have hafter := firings_length r initial context (dts ++ [dt])
    have hcount := update_count_le r (life r initial context dts).1
      (life r initial context dts).2 dt
    rw [hnew, firings_append, List.length_append, hbefore, life_append] at hafter
    change _ = ((life r initial context dts).1.update r _ dt).1.count at hafter
    omega
  · intro f hf
    obtain ⟨hstopped, hlast⟩ := h.last_of_refused hf
    have hrecorded : (life r.recorded initial (context, []) dts).1.running = false := by
      rw [hlife, hstopped]
    exact ⟨hlast, fun more => (life_stopped hrecorded more).trans hlife⟩
  · intro hendless more
    have hrecorded :
        Scalar.isFinite (life r.recorded initial (context, []) dts).1.delay = false := by
      rw [hlife]
      exact hendless
    exact congrArg Prod.snd (life_endless hrecorded more).2

def twoBeats : Rhythm Float32 Unit where
  delay _ _ context := (0.5, context)
  act firing context := (decide (firing.count < 2), context)

theorem second_beat_is_the_last :
    Scalar.Linear Float32 ∧
    .fired ⟨2, 1.25, 1.75, 0.75⟩ false ∈ record twoBeats none () [0.75, 1] ∧
    (∃ earlier d, record twoBeats none () [0.75, 1] =
      earlier ++ [.fired ⟨2, 1.25, 1.75, 0.75⟩ false, .asked 2 0.75 d]) ∧
    ∀ more, life twoBeats.recorded none ((), []) ([0.75, 1] ++ more) =
      life twoBeats.recorded none ((), []) [0.75, 1] := by
  have hrefused : Entry.fired ⟨2, 1.25, 1.75, 0.75⟩ false ∈
      (life twoBeats.recorded none ((), []) [0.75, 1]).2.2 := by
    decide +kernel
  obtain ⟨s, c, calls, rounds, -, hlife, -, -, -, -, -, hlast, -⟩ :=
    calls_take_turns twoBeats none () [0.75, 1]
  have hcalls : record twoBeats none () [0.75, 1] = calls := by rw [record, hlife]
  rw [hlife] at hrefused ⊢
  rw [hcalls]
  obtain ⟨hcall, hmore⟩ := hlast _ hrefused
  exact ⟨inferInstance, hrefused, hcall, hmore⟩

end Barrage.Scheduler
