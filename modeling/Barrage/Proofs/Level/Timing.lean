import Barrage.Proofs.Level.DueTime
import Barrage.Proofs.Level.Punctual
import Barrage.Proofs.Level.Turn

/-! # Lines at their times

In exact arithmetic a line is due when the waits before it are over, and it runs in the frame in
which that moment lies, however time is cut into frames. What it starts is dated to the moment
itself. -/

namespace Barrage.Level

open Script (Instruction)

def Turn.delay (t : Turn Exact) : ℚ := delayOf t.level t.instruction

def Turn.modulus? (t : Turn Exact) : Option Exact :=
  match t.instruction with
  | .waitUntilClear modulus =>
    match modulus.resolve t.level.tempo t.level.words with
    | .ok (m, _) => some m
    | .error _ => none
  | _ => none

/-- The sum of the waits of some lines. -/
def awaited (turns : List (Turn Exact)) : ℚ := (turns.map Turn.delay).sum

structure Turn.Meets (T q d : ℚ) (t : Turn Exact) : Prop where
  offset_eq : t.offset = .finite (d - T)
  unclamped : .finite q + t.level.wait = t.offset
  after : T ≤ d
  within : d ≤ T + q

structure Reckoned (script : List (Instruction Exact)) (now : ℚ) (h : Frame Exact)
    (turns : List (Turn Exact)) : Prop where
  script_eq : h.level.script = script
  tempo_eq : ∃ tempo, h.level.tempo = .finite tempo
  wait_eq : ∃ wait, h.level.wait = .finite wait
  clock_eq : h.level.clock = .finite now
  held : h.level.waitingForClear = true → turns.getLast?.bind Turn.modulus? = some h.level.wait

variable {script : List (Instruction Exact)} {T now q : ℚ} {h f : Frame Exact}
  {turns : List (Turn Exact)} {world : Vec Exact} {i : Instruction Exact} {offset dt : Exact}

theorem awaited_append (earlier later : List (Turn Exact)) :
    awaited (earlier ++ later) = awaited earlier + awaited later := by
  simp [awaited]

theorem awaited_nonneg (hturns : ∀ t ∈ turns, 0 ≤ t.delay) : 0 ≤ awaited turns := by
  refine List.sum_nonneg fun d hd => ?_
  obtain ⟨t, ht, rfl⟩ := List.mem_map.1 hd
  exact hturns t ht

theorem awaited_mono {earlier : List (Turn Exact)} (hpart : earlier <+: turns)
    (hturns : ∀ t ∈ turns, 0 ≤ t.delay) : awaited earlier ≤ awaited turns := by
  obtain ⟨later, rfl⟩ := hpart
  have hlater : 0 ≤ awaited later := awaited_nonneg fun t ht =>
      hturns t (List.mem_append_right _ ht)
  rw [awaited_append]
  linarith

theorem Call.time_nonneg {c : Call Exact}
    (hc : ∀ world dt, c = .update world dt → ∃ q, 0 < q ∧ dt = .finite q) : 0 ≤ c.time := by
  cases c with
  | release => exact le_refl _
  | update world dt =>
    obtain ⟨q, hq, rfl⟩ := hc world dt rfl
    exact hq.le

theorem elapsed_nonneg {calls : List (Call Exact)}
    (hcalls : ∀ world dt, .update world dt ∈ calls → ∃ q, 0 < q ∧ dt = .finite q) :
    0 ≤ elapsed calls := by
  refine List.sum_nonneg fun x hx => ?_
  obtain ⟨c, hc, rfl⟩ := List.mem_map.1 hx
  exact Call.time_nonneg fun world dt heq => hcalls world dt (heq ▸ hc)

/-- What holds when a level starts, and is kept when an enemy is gone and in each frame, holds after
every history, at the time that has passed in it. -/
theorem timed_induction {Q : ℚ → Frame Exact → List (Turn Exact) → Prop} {l : Level Exact}
    {calls : List (Call Exact)} (hcalls : ∀ world dt, .update world dt ∈ calls →
      ∃ q, 0 < q ∧ dt = .finite q)
    (start : Q 0 ⟨l, [], []⟩ [])
    (release : ∀ T h turns, Q T h turns → Q T ⟨h.level.release, h.journal, h.events⟩ turns)
    (update : ∀ T h f turns world q, 0 ≤ T → 0 < q → Q T h turns →
      h.level.update world (.finite q) = .ok f →
      Q (T + q) (f.behind h.journal h.events)
        (turns ++ h.level.callTurns (.update world (.finite q))))
    (hrun : l.run calls = .ok f) : Q (elapsed calls) f (l.turns calls) := by
  refine turns_induction (Q := fun calls f turns => Q (elapsed calls) f turns) start ?_ hrun
  intro earlier c before last hpart _ hQ hcall
  rw [elapsed_append]
  cases c with
  | release =>
    cases hcall
    rw [elapsed_release, add_zero, callTurns, List.append_nil, Frame.behind, List.append_nil,
      List.append_nil]
    exact release _ _ _ hQ
  | update world dt =>
    obtain ⟨q, hq, rfl⟩ := hcalls world dt (hpart.subset (by simp))
    have hnow : 0 ≤ elapsed earlier :=
      elapsed_nonneg fun w d hmem => hcalls w d (hpart.subset (List.mem_append_left _ hmem))
    rw [elapsed_update]
    exact update _ _ _ _ _ _ hnow hq hQ hcall

/-! ## Reckoning -/

theorem reckoned_start (script : List (Instruction Exact)) (tempo : ℚ) (words : Words) :
    Reckoned script 0 ⟨start script (.finite tempo) words, [], []⟩ [] := by
  refine ⟨rfl, ⟨tempo, rfl⟩, ⟨0, by simp [start]⟩, by simp [start], ?_⟩
  intro hwaits
  cases hwaits

namespace Reckoned

theorem enter (hR : Reckoned script now h turns) (q : ℚ) :
    Reckoned script (now + q) ⟨h.level.enter (.finite q), h.journal, h.events⟩ turns := by
  obtain ⟨wait, hwait⟩ := hR.wait_eq
  have hclock : h.level.clock + .finite q = .finite (now + q) := by
    rw [hR.clock_eq, Exact.finite_add]
  refine ⟨?_, ?_, ?_, ?_, ?_⟩
  · rw [enter_script]
    exact hR.script_eq
  · rw [enter_tempo]
    exact hR.tempo_eq
  · unfold Level.enter
    by_cases hw : h.level.waitingForClear = true
    · rw [if_pos hw]
      change ∃ wait, (if 0 < h.level.wait then h.level.wait - Scalar.remainder
        (h.level.clock + .finite q) h.level.wait
        else h.level.wait) = .finite wait
      rw [hwait, hclock]
      by_cases hpos : 0 < wait
      · refine ⟨wait - (now + q - wait * Exact.wholePart ((now + q) / wait)), ?_⟩
        rw [if_pos (by simpa using hpos)]
        change Exact.finite wait - (if wait = 0 then _ else _) = _
        rw [if_neg hpos.ne', Exact.finite_sub]
      · exact ⟨wait, if_neg (by simpa using hpos)⟩
    · rw [if_neg hw]
      exact ⟨wait - q, by rw [hwait, Exact.finite_sub]⟩
  · rw [enter_clock]
    exact hclock
  · rw [enter_waitingForClear]
    intro hw
    cases hw

theorem hold (hR : Reckoned script now h turns) (q : ℚ) : Reckoned script (now + q)
    ⟨{ h.level with clock := h.level.clock + .finite q }, h.journal, h.events⟩ turns := by
  have hclock : h.level.clock + .finite q = .finite (now + q) := by
    rw [hR.clock_eq, Exact.finite_add]
  exact ⟨hR.script_eq, hR.tempo_eq, hR.wait_eq, hclock, hR.held⟩

theorem release (hR : Reckoned script now h turns) :
    Reckoned script now ⟨h.level.release, h.journal, h.events⟩ turns :=
  ⟨hR.script_eq, hR.tempo_eq, hR.wait_eq, hR.clock_eq, hR.held⟩

theorem pass (hR : Reckoned script now h turns) :
    Reckoned script now ⟨h.level.pass, h.journal, h.events⟩ turns :=
  ⟨hR.script_eq, hR.tempo_eq, hR.wait_eq, hR.clock_eq, hR.held⟩

theorem execute (hR : Reckoned script now h turns) (hscript : ∀ i ∈ script, Rational i)
    (hclear : h.level.waitingForClear = false) (hget : h.level.script[h.level.next]? = some i)
    (hfirst : h.level.pass.execute world h.level.next offset i = .ok f) :
    Reckoned script now (f.behind (h.journal ++ [.executed h.level.next offset]) h.events)
      (turns ++ [⟨h.level, i, offset⟩]) := by
  have hrational : Rational i := hscript i (hR.script_eq ▸ List.mem_of_getElem? hget)
  have hout := execute_outcome hfirst
  obtain ⟨tempo, htempo⟩ := hR.tempo_eq
  obtain ⟨wait, hwait⟩ := hR.wait_eq
  have htempo' : h.level.pass.tempo = .finite tempo := htempo
  have hmusic : ∃ tempo, f.level.tempo = .finite tempo :=
    tempo_execute hrational ⟨tempo, htempo'⟩ hfirst
  refine ⟨hout.script_eq.trans hR.script_eq, hmusic, ?_, hout.clock_eq.trans hR.clock_eq, ?_⟩
  · rw [behind_level]
    cases hout with
    | wait htime =>
      rw [htempo'] at htime
      obtain ⟨r, rfl⟩ := Number.resolve_finite (hrational _ (List.mem_singleton.2 rfl)) htime
      refine ⟨wait + r, ?_⟩
      change h.level.wait + .finite r = _
      rw [hwait, Exact.finite_add]
    | waitUntilClear hmodulus =>
      rw [htempo'] at hmodulus
      exact Number.resolve_finite (hrational _ (List.mem_singleton.2 rfl)) hmodulus
    | spawn hstart =>
      obtain ⟨words, opened, rfl, -⟩ := startGroup_ok hstart
      exact ⟨wait, hwait⟩
    | told | goto | spawnRepeatedly => exact ⟨wait, hwait⟩
  · rw [behind_level, List.getLast?_concat, Option.bind_some]
    intro hw
    cases hout with
    | @waitUntilClear modulus m words hmodulus =>
      have hdraw : modulus.resolve h.level.tempo h.level.words = .ok (m, words) := hmodulus
      simp only [Turn.modulus?, hdraw]
    | spawn hstart =>
      obtain ⟨words, opened, rfl, -⟩ := startGroup_ok hstart
      exact absurd (hclear.symm.trans hw) Bool.false_ne_true
    | told | goto | spawnRepeatedly | wait => exact absurd (hclear.symm.trans hw) Bool.false_ne_true

theorem advance (hR : Reckoned script now h turns)
    (hadv : h.level.advanceSchedulers world dt = .ok f) :
    Reckoned script now (f.behind h.journal h.events) turns := by
  obtain ⟨⟨words, repeaters, spawners, live, hf⟩, -⟩ := advance_frame hadv
  rw [Frame.behind, hf]
  exact ⟨hR.script_eq, hR.tempo_eq, hR.wait_eq, hR.clock_eq, hR.held⟩

theorem update (hR : Reckoned script now h turns) (hscript : ∀ i ∈ script, Rational i) (hq : 0 < q)
    (hcall : h.level.update world (.finite q) = .ok f) :
    Reckoned script (now + q) (f.behind h.journal h.events)
      (turns ++ h.level.callTurns (.update world (.finite q))) := by
  have hdt : ¬ (Exact.finite q) ≤ 0 := by simpa using hq
  refine update_induction (P := Reckoned script (now + q)) turns hdt ?_ ?_ ?_ ?_ ?_ hcall
  · exact fun f _ _ hadv => (hR.hold q).advance hadv
  · exact fun _ => hR.enter q
  · exact fun g turns hg _ => hg.pass
  · exact fun g turns i offset first hg hclear _ _ hget _ hfirst =>
      hg.execute hscript hclear hget hfirst
  · exact fun g f turns hg _ hadv => hg.advance hadv

end Reckoned

theorem run_rational (hscript : ∀ i ∈ script, Rational i) (tempo : Exact) (words : Words)
    {calls : List (Call Exact)} (hcalls : ∀ world dt, .update world dt ∈ calls →
      ∃ q, 0 < q ∧ dt = .finite q) :
    ∃ f, (start script tempo words).run calls = .ok f := by
  have hsure : Sure True _ := run_sure (fun _ i hi n hn => (hscript i hi n hn).measured) tempo words
    fun world dt hmem _ => by
      obtain ⟨q, hq, rfl⟩ := hcalls world dt hmem
      simpa using hq.le
  exact hsure.result trivial

theorem reckoned_run {tempo : ℚ} {words : Words} {calls : List (Call Exact)}
    (hscript : ∀ i ∈ script, Rational i)
    (hcalls : ∀ world dt, .update world dt ∈ calls → ∃ q, 0 < q ∧ dt = .finite q)
    (hrun : (start script (.finite tempo) words).run calls = .ok f) :
    Reckoned script (elapsed calls) f ((start script (.finite tempo) words).turns calls) := by
  refine timed_induction (Q := Reckoned script) hcalls
    (reckoned_start script tempo words) ?_ ?_ hrun
  · exact fun T h turns hR => hR.release
  · exact fun T h f turns world q _ hq hR hcall => hR.update hscript hq hcall

/-! ## Lines without a hold -/

structure Timely (script : List (Instruction Exact)) (now : ℚ) (h : Frame Exact)
    (turns : List (Turn Exact)) : Prop where
  reckoned : Reckoned script now h turns
  due : DueAt (awaited turns) now h.level
  past : ∀ k < turns.length, awaited (turns.take k) ≤ now

theorem Timely.execute (hT : Timely script (T + q) h turns) (hscript : ∀ i ∈ script, Rational i)
    (hhold : ∀ modulus, .waitUntilClear modulus ∉ script) (hahead : T ≤ awaited turns)
    (hwait : h.level.wait ≤ 0) (hget : h.level.script[h.level.next]? = some i)
    (hoffset : Scalar.clamp (.finite q + h.level.wait) 0 (.finite q) = .ok offset)
    (hfirst : h.level.pass.execute world h.level.next offset i = .ok f) :
    Timely script (T + q) (f.behind (h.journal ++ [.executed h.level.next offset]) h.events)
        (turns ++ [⟨h.level, i, offset⟩]) ∧
      Turn.Meets T q (awaited turns) ⟨h.level, i, offset⟩ := by
  have hmem : i ∈ script := hT.reckoned.script_eq ▸ List.mem_of_getElem? hget
  obtain ⟨tempo, htempo⟩ := hT.reckoned.tempo_eq
  obtain ⟨heq, hsum, hdue⟩ := hT.due.clamped hahead hwait hoffset
  have hnext := hT.due.execute (hscript i hmem) htempo (fun modulus hi => hhold modulus (hi ▸ hmem))
    (execute_outcome hfirst)
  refine ⟨⟨hT.reckoned.execute hscript hT.due.clear hget hfirst, ?_, ?_⟩, ⟨heq, hsum, hahead, hdue⟩⟩
  · have htotal : awaited (turns ++ [⟨h.level, i, offset⟩]) =
        awaited turns + delayOf h.level i := by
      rw [awaited_append]
      simp [awaited, Turn.delay]
    rw [htotal, behind_level]
    exact hnext
  · intro k hk
    rw [List.length_append, List.length_singleton] at hk
    rw [List.take_append_of_le_length (Nat.le_of_lt_succ hk)]
    rcases Nat.lt_succ_iff_lt_or_eq.1 hk with hk | rfl
    · exact hT.past k hk
    · rw [List.take_length]
      exact hdue

structure Passing (script : List (Instruction Exact)) (T q : ℚ) (before : ℕ) (h : Frame Exact)
    (turns : List (Turn Exact)) : Prop where
  timely : Timely script (T + q) h turns
  ahead : h.level.next < script.length → T ≤ awaited turns
  meets : ∀ k t, before ≤ k → turns[k]? = some t → t.Meets T q (awaited (turns.take k))

theorem Passing.execute {before : ℕ} (hP : Passing script T q before h turns)
    (hscript : ∀ i ∈ script, Rational i) (hhold : ∀ modulus, .waitUntilClear modulus ∉ script)
    (hdelay : 0 ≤ delayOf h.level i) (hwait : h.level.wait ≤ 0)
    (hget : h.level.script[h.level.next]? = some i)
    (hoffset : Scalar.clamp (.finite q + h.level.wait) 0 (.finite q) = .ok offset)
    (hfirst : h.level.pass.execute world h.level.next offset i = .ok f) :
    Passing script T q before (f.behind (h.journal ++ [.executed h.level.next offset]) h.events)
      (turns ++ [⟨h.level, i, offset⟩]) := by
  have hlt : h.level.next < script.length := hP.timely.reckoned.script_eq ▸
    (List.getElem?_eq_some_iff.1 hget).1
  have hahead := hP.ahead hlt
  obtain ⟨htimely, hmeets⟩ := hP.timely.execute hscript hhold hahead hwait hget hoffset hfirst
  refine ⟨htimely, fun _ => ?_, fun k t hk ht => ?_⟩
  · have htotal : awaited [⟨h.level, i, offset⟩] = delayOf h.level i := by
      simp [awaited, Turn.delay]
    rw [awaited_append, htotal]
    linarith
  · by_cases hold : k < turns.length
    · rw [List.getElem?_append_left hold] at ht
      rw [List.take_append_of_le_length hold.le]
      exact hP.meets k t hk ht
    · obtain rfl : k = turns.length := by
        have hle := (List.getElem?_eq_some_iff.1 ht).1
        rw [List.length_append, List.length_singleton] at hle
        omega
      rw [List.getElem?_concat_length] at ht
      obtain rfl := Option.some.inj ht
      rw [List.take_left]
      exact hmeets

/-- A frame runs its lines at their times, and the next line is due behind it. -/
theorem passing_update (hscript : ∀ i ∈ script, Rational i)
    (hhold : ∀ modulus, .waitUntilClear modulus ∉ script)
    (hq : 0 < q) (hT : Timely script T h turns)
    (hahead : h.level.next < script.length → T ≤ awaited turns)
    (hcall : h.level.update world (.finite q) = .ok f)
    (hdelays : ∀ t ∈ turns ++ h.level.callTurns (.update world (.finite q)), 0 ≤ t.delay) :
    Passing script T q turns.length (f.behind h.journal h.events)
        (turns ++ h.level.callTurns (.update world (.finite q))) ∧
      (f.level.next < script.length → T + q < awaited
        (turns ++ h.level.callTurns (.update world (.finite q)))) := by
  have hdt : ¬ (Exact.finite q) ≤ 0 := by simpa using hq
  refine update_induction (P := fun g ts => (∀ t ∈ ts, 0 ≤ t.delay) →
    Passing script T q turns.length g ts) (E := fun g ts => (∀ t ∈ ts, 0 ≤ t.delay) →
      Passing script T q turns.length g ts ∧ (g.level.next < script.length → T + q < awaited ts))
    turns hdt ?_ ?_ ?_ ?_ ?_ hcall hdelays
  · intro f hw _ _
    rw [hT.due.clear] at hw
    cases hw
  · intro _ _
    refine ⟨⟨hT.reckoned.enter q, hT.due.enter q, fun k hk => ?_⟩, ?_, fun k t hk ht => ?_⟩
    · linarith [hT.past k hk]
    · rw [enter_next]
      exact hahead
    · have hlt := (List.getElem?_eq_some_iff.1 ht).1
      omega
  · intro g ts hP _ hts
    obtain ⟨htimely, hahead, hmeets⟩ := hP hts
    exact ⟨⟨htimely.reckoned.pass, htimely.due.of_eq rfl rfl, htimely.past⟩,
      fun hlt => hahead (Nat.lt_of_succ_lt hlt), hmeets⟩
  · intro g ts i offset first hP _ hwait _ hget hoffset hfirst hts
    have hbefore : ∀ t ∈ ts, 0 ≤ t.delay := fun t ht => hts t (List.mem_append_left _ ht)
    have hdelay : 0 ≤ delayOf g.level i := hts ⟨g.level, i, offset⟩ (by simp)
    exact (hP hbefore).execute hscript hhold hdelay hwait hget hoffset hfirst
  · -- a frame stops at a line that is due behind its end
    intro g f ts hP hrests hadv hts
    obtain ⟨htimely, hahead, hmeets⟩ := hP hts
    have hdue := htimely.due.advance hadv
    have hnext : f.level.next = g.level.next := by
      obtain ⟨⟨words, repeaters, spawners, live, hf⟩, -⟩ := advance_frame hadv
      rw [hf]
    rw [behind_level, hnext]
    refine ⟨⟨⟨htimely.reckoned.advance hadv, hdue, htimely.past⟩, ?_, hmeets⟩, fun hlt => ?_⟩
    · rw [behind_level, hnext]
      exact hahead
    · exact htimely.due.lt_of_rests hrests
        (hlt.trans_eq (congrArg List.length htimely.reckoned.script_eq.symm))

theorem Timely.ahead_le (hT : Timely script now h turns) (hnow : 0 ≤ now)
    (hahead : 0 < now → h.level.next < script.length → now < awaited turns)
    (hdelays : ∀ t ∈ turns, 0 ≤ t.delay) (hlt : h.level.next < script.length) :
    now ≤ awaited turns := by
  rcases hnow.eq_or_lt with rfl | hpos
  · exact awaited_nonneg hdelays
  · exact (hahead hpos hlt).le

theorem timely_run {tempo : ℚ} {words : Words} {calls : List (Call Exact)}
    (hscript : ∀ i ∈ script, Rational i) (hhold : ∀ modulus, .waitUntilClear modulus ∉ script)
    (hcalls : ∀ world dt, .update world dt ∈ calls → ∃ q, 0 < q ∧ dt = .finite q)
    (hrun : (start script (.finite tempo) words).run calls = .ok f)
    (hdelays : ∀ t ∈ (start script (.finite tempo) words).turns calls, 0 ≤ t.delay) :
    Timely script (elapsed calls) f ((start script (.finite tempo) words).turns calls) ∧
      (0 < elapsed calls → f.level.next < script.length →
        elapsed calls < awaited ((start script (.finite tempo) words).turns calls)) := by
  refine timed_induction (Q := fun T f turns => (∀ t ∈ turns, 0 ≤ t.delay) →
    Timely script T f turns ∧ (0 < T → f.level.next < script.length → T < awaited turns))
    hcalls ?_ ?_ ?_ hrun hdelays
  · intro _
    refine ⟨⟨reckoned_start script tempo words, ⟨rfl, ?_⟩, nofun⟩,
      fun hpos => absurd hpos (lt_irrefl _)⟩
    simp [start, awaited]
  · intro T h turns hQ hturns
    obtain ⟨⟨hR, hdue, hpast⟩, hahead⟩ := hQ hturns
    exact ⟨⟨hR.release, hdue.of_eq rfl rfl, hpast⟩, hahead⟩
  · intro T h f turns world q hnow hq hQ hcall hturns
    have hbefore : ∀ t ∈ turns, 0 ≤ t.delay := fun t ht => hturns t (List.mem_append_left _ ht)
    obtain ⟨htimely, hahead⟩ := hQ hbefore
    have hle := htimely.ahead_le hnow hahead hbefore
    obtain ⟨hpassing, hlater⟩ := passing_update hscript hhold hq htimely hle hcall hturns
    exact ⟨hpassing.timely, fun _ => hlater⟩

/-- The line of the path at the place `k` has run as soon as a frame ends at its time or later. -/
theorem ran_iff_due {tempo : ℚ} {words : Words} {earlier calls : List (Call Exact)}
    (hscript : ∀ i ∈ script, Rational i) (hhold : ∀ modulus, .waitUntilClear modulus ∉ script)
    (hcalls : ∀ world dt, .update world dt ∈ calls → ∃ q, 0 < q ∧ dt = .finite q)
    (hrun : (start script (.finite tempo) words).run calls = .ok f)
    (hdelays : ∀ t ∈ (start script (.finite tempo) words).turns calls, 0 ≤ t.delay)
    (hpart : earlier <+: calls) (hpos : 0 < elapsed earlier) {k : ℕ}
    (hinside : path script k < script.length) :
    k < ((start script (.finite tempo) words).turns earlier).length ↔
      awaited (((start script (.finite tempo) words).turns calls).take k) ≤ elapsed earlier := by
  have hfirst := turns_mono hpart hrun
  obtain ⟨later, hsplit⟩ := hpart
  rw [← hsplit, run_append] at hrun
  obtain ⟨before, hbefore, -⟩ := parts_of_ok hrun
  have hcalls' : ∀ world dt, .update world dt ∈ earlier → ∃ q, 0 < q ∧ dt = .finite q :=
    fun world dt hmem => hcalls world dt (hsplit ▸ List.mem_append_left _ hmem)
  obtain ⟨htimely, hahead⟩ := timely_run hscript hhold hcalls' hbefore fun t ht =>
    hdelays t (hfirst.subset ht)
  constructor
  · intro hlt
    have htake := List.prefix_iff_eq_take.1 ((List.take_prefix k _).trans hfirst)
    rw [List.length_take, min_eq_left hlt.le] at htake
    rw [← htake]
    exact htimely.past k hlt
  · intro hdue
    by_contra hge
    -- otherwise the next line comes no later than this one, and yet behind the end of the frame
    have hpath := onPath_run hbefore
    have hmax := hpath.ahead
    rw [executedLines_of_run hbefore, List.length_map] at hmax
    have hmono := (path_strictMono script).monotone (not_lt.1 hge)
    have hnext : before.level.next < script.length := by omega
    have hbelow : (start script (.finite tempo) words).turns earlier <+:
        ((start script (.finite tempo) words).turns calls).take k := by
      rw [List.prefix_take_iff]
      exact ⟨hfirst, not_lt.1 hge⟩
    have hlate := awaited_mono hbelow fun t ht => hdelays t (List.mem_of_mem_take ht)
    have hnow := hahead hpos hnext
    linarith

theorem meets_in_frame {tempo : ℚ} {words : Words} {earlier calls : List (Call Exact)}
    (hscript : ∀ i ∈ script, Rational i) (hhold : ∀ modulus, .waitUntilClear modulus ∉ script)
    (hcalls : ∀ world dt, .update world dt ∈ calls → ∃ q, 0 < q ∧ dt = .finite q)
    (hrun : (start script (.finite tempo) words).run calls = .ok f)
    (hdelays : ∀ t ∈ (start script (.finite tempo) words).turns calls, 0 ≤ t.delay)
    (hpart : earlier ++ [.update world (.finite q)] <+: calls) {k : ℕ} {t : Turn Exact}
    (hk : ((start script (.finite tempo) words).turns earlier).length ≤ k)
    (ht : ((start script (.finite tempo) words).turns
      (earlier ++ [.update world (.finite q)]))[k]? = some t) :
    t.Meets (elapsed earlier) q
      (awaited (((start script (.finite tempo) words).turns calls).take k)) := by
  have hfirst := turns_mono hpart hrun
  have hbelow := turns_mono ((List.prefix_append _ _).trans hpart) hrun
  obtain ⟨later, hsplit⟩ := hpart
  rw [← hsplit, run_append] at hrun
  obtain ⟨after, hafter, -⟩ := parts_of_ok hrun
  obtain ⟨before, last, hbefore, hlast, -⟩ := run_snoc hafter
  have hcalls' : ∀ world dt, .update world dt ∈ earlier → ∃ q, 0 < q ∧ dt = .finite q :=
    fun world dt hmem => hcalls world dt (hsplit ▸ by simp [hmem])
  have hq : 0 < q := by
    obtain ⟨q', hq', heq⟩ := hcalls world (.finite q) (hsplit ▸ by simp)
    exact Exact.finite.inj heq ▸ hq'
  have hdelays' : ∀ t ∈ (start script (.finite tempo) words).turns earlier, 0 ≤ t.delay :=
    fun t ht => hdelays t (hbelow.subset ht)
  obtain ⟨htimely, hahead⟩ := timely_run hscript hhold hcalls' hbefore hdelays'
  have hstart := htimely.ahead_le (elapsed_nonneg hcalls') hahead hdelays'
  have hsnoc := turns_snoc hbefore (.update world (.finite q))
  obtain ⟨hpassing, -⟩ := passing_update hscript hhold hq htimely hstart hlast
    fun t ht => hdelays t (hfirst.subset (hsnoc ▸ ht))
  have htake := List.prefix_iff_eq_take.1 ((List.take_prefix k _).trans hfirst)
  rw [List.length_take, min_eq_left (List.getElem?_eq_some_iff.1 ht).1.le] at htake
  rw [← htake]
  rw [hsnoc] at ht ⊢
  exact hpassing.meets k t hk ht

/-! ## The main statement -/

/-- However time is cut into frames, a script of rational numbers without a hold plays without a
fault, along its path. A line is due when the waits of the lines before it are over, if none of
these is negative. By the end of a frame just the lines that are due by then have run; each has run
at its time, and the place of that moment in the frame is what the level has worked out, with
nothing to be put right. -/
theorem lines_run_when_due (script : List (Instruction Exact)) (tempo : ℚ) (words : Words)
    (calls : List (Call Exact)) (hscript : ∀ i ∈ script, Rational i)
    (hhold : ∀ modulus, .waitUntilClear modulus ∉ script)
    (hcalls : ∀ world dt, .update world dt ∈ calls → ∃ q, 0 < q ∧ dt = .finite q)
    (hdelays : ∀ t ∈ (start script (.finite tempo) words).turns calls, 0 ≤ t.delay) :
    let turns := (start script (.finite tempo) words).turns
    ∃ f, (start script (.finite tempo) words).run calls = .ok f ∧
      f.level.clock = .finite (elapsed calls) ∧
      f.journal.filterMap Entry.line? = (turns calls).map Turn.line ∧
      (turns calls).map Turn.index = (List.range (turns calls).length).map (path script) ∧
      (∀ t ∈ turns calls, script[t.index]? = some t.instruction) ∧
      (∀ earlier, earlier <+: calls → 0 < elapsed earlier → ∀ k, path script k < script.length →
        (k < (turns earlier).length ↔ awaited ((turns calls).take k) ≤ elapsed earlier)) ∧
      ∀ earlier world q, earlier ++ [.update world (.finite q)] <+: calls →
        ∀ k t, (turns earlier).length ≤ k →
          (turns (earlier ++ [.update world (.finite q)]))[k]? = some t →
          t.Meets (elapsed earlier) q (awaited ((turns calls).take k)) := by
  intro turns
  obtain ⟨f, hrun⟩ := run_rational hscript (.finite tempo) words hcalls
  refine ⟨f, hrun, (reckoned_run hscript hcalls hrun).clock_eq, lines_of_run hrun,
    indices_of_run hrun, (placed_run hrun).instruction_eq, ?_, ?_⟩
  · intro earlier hpart hpos k hinside
    exact ran_iff_due hscript hhold hcalls hrun hdelays hpart hpos hinside
  · intro earlier world q hpart k t hk ht
    exact meets_in_frame hscript hhold hcalls hrun hdelays hpart hk ht

def unevenScript : List (Instruction Exact) :=
  [.wait (.literal (.finite (1 / 2))), .goto 4, .finish, .wait (.beats (.finite (3 / 2))),
    .spawnRepeatedly (.literal 1) (.literal 1) pulse, .wait (.literal 3)]

def unevenFrames : List (Call Exact) :=
  [.update ⟨320, 180⟩ (.finite (3 / 4)), .release, .update ⟨320, 180⟩ (.finite (3 / 2))]

theorem repeated_group_meets_its_time :
    (∀ t ∈ (start unevenScript (.finite 120) (Words.cycle #[])).turns unevenFrames, 0 ≤ t.delay) ∧
    ∃ f, (start unevenScript (.finite 120) (Words.cycle #[])).run unevenFrames = .ok f ∧
      f.level.clock = .finite (9 / 4) ∧
      ∃ t, ((start unevenScript (.finite 120) (Words.cycle #[])).turns unevenFrames)[3]? = some t ∧
        unevenScript[t.index]? = some t.instruction ∧ t.Meets (3 / 4) (3 / 2) (5 / 4) := by
  have hscript : ∀ i ∈ unevenScript, Rational i := by
    refine rational_of_checked ?_
    simp [unevenScript, pulse, Instruction.numbers, Script.Group.numbers, Number.isRational,
      Exact.isFinite]
  have hhold : ∀ modulus, .waitUntilClear modulus ∉ unevenScript := by
    simp [unevenScript]
  have hcalls : ∀ world dt, .update world dt ∈ unevenFrames → ∃ q, 0 < q ∧ dt = .finite q := by
    intro world dt hmem
    rcases List.mem_cons.1 hmem with heq | hmem
    · exact ⟨3 / 4, by norm_num, (Call.update.inj heq).2⟩
    rcases List.mem_cons.1 hmem with heq | hmem
    · cases heq
    · exact ⟨3 / 2, by norm_num, (Call.update.inj (List.mem_singleton.1 hmem)).2⟩
  have hdelays :
      ∀ t ∈ (start unevenScript (.finite 120) (Words.cycle #[])).turns unevenFrames,
        0 ≤ t.delay := by
    decide +kernel
  have hlength : 3 < ((start unevenScript (.finite 120) (Words.cycle #[])).turns
      unevenFrames).length := by
    decide +kernel
  have helapsed : elapsed unevenFrames = 9 / 4 := by
    decide +kernel
  have hdue : awaited (((start unevenScript (.finite 120) (Words.cycle #[])).turns
      unevenFrames).take 3) = 5 / 4 := by
    decide +kernel
  obtain ⟨f, hrun, hclock, -, -, hplaced, -, hmeets⟩ :=
    lines_run_when_due unevenScript 120 (Words.cycle #[]) unevenFrames hscript hhold hcalls hdelays
  obtain ⟨t, ht⟩ : ∃ t, ((start unevenScript (.finite 120) (Words.cycle #[])).turns
    unevenFrames)[3]? = some t :=
    ⟨_, List.getElem?_eq_getElem hlength⟩
  rw [helapsed] at hclock
  refine ⟨hdelays, f, hrun, hclock, t, ht, hplaced t (List.mem_of_getElem? ht), ?_⟩
  have hmeets := hmeets [.update ⟨320, 180⟩ (.finite (3 / 4)), .release] ⟨320, 180⟩ (3 / 2)
    (List.prefix_refl _) 3 t (by decide +kernel) ht
  rw [hdue] at hmeets
  have hstart : elapsed [.update ⟨320, 180⟩ (.finite (3 / 4)), .release] = 3 / 4 := by
    decide +kernel
  rwa [hstart] at hmeets

end Barrage.Level
