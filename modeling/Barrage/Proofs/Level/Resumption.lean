import Barrage.Proofs.Level.Timing

/-! # Going on in phase

A level that has waited for its enemies goes on when its clock comes to the next multiple of a
modulus. The frame in which it notices that they are gone sets the time; the frames up to there only
bring it nearer. -/

namespace Barrage.Level

open Script (Instruction)

/-- The multiple of `m` that comes next behind `c`. -/
def nextMultiple (m c : ℚ) : ℚ := (⌊c / m⌋ + 1) * m

structure Pending (script : List (Instruction Exact)) (place : ℕ) (d now : ℚ)
    (l : Level Exact) : Prop where
  script_eq : l.script = script
  place_eq : max l.next l.gate = place
  due : DueAt d now l

variable {script : List (Instruction Exact)} {place : ℕ} {d m c T now q : ℚ} {l : Level Exact}
  {h f : Frame Exact} {turns : List (Turn Exact)} {world : Vec Exact} {dt : Exact}

theorem isLeast_nextMultiple (hm : 0 < m) (c : ℚ) :
    IsLeast {x | c < x ∧ ∃ n : ℤ, x = n * m} (nextMultiple m c) := by
  constructor
  · refine ⟨?_, ⌊c / m⌋ + 1, by push_cast; rfl⟩
    exact (div_lt_iff₀ hm).1 (Int.lt_floor_add_one _)
  · rintro x ⟨hlt, n, rfl⟩
    have hfloor : ⌊c / m⌋ < n := Int.floor_lt.2 ((div_lt_iff₀ hm).2 hlt)
    have hle : ((⌊c / m⌋ + 1 : ℤ) : ℚ) ≤ n := by exact_mod_cast hfloor
    push_cast at hle
    exact mul_le_mul_of_nonneg_right hle hm.le

namespace Pending

theorem advance (hP : Pending script place d now l) (hadv : l.advanceSchedulers world dt = .ok f) :
    Pending script place d now f.level := by
  have hdue := hP.due.advance hadv
  obtain ⟨⟨words, repeaters, spawners, live, hf⟩, -⟩ := advance_frame hadv
  rw [hf] at hdue ⊢
  exact ⟨hP.script_eq, hP.place_eq, hdue⟩

theorem enter (hP : Pending script place d now l) (q : ℚ) :
    Pending script place d (now + q) (l.enter (.finite q)) := by
  refine ⟨(enter_script _ _).trans hP.script_eq, ?_, hP.due.enter q⟩
  rw [enter_next, enter_gate]
  exact hP.place_eq

theorem quiet (hP : Pending script place d now (l.enter dt)) (hdt : ¬ dt ≤ 0)
    (hclear : l.waitingForClear = true → l.live = 0) (hlt : now < d)
    (hcall : l.update world dt = .ok f) :
    Pending script place d now f.level ∧ l.callTurns (.update world dt) = [] := by
  have hwait : ¬ (l.enter dt).wait ≤ 0 := by
    rw [hP.due.due_iff]
    exact not_le.2 hlt
  rcases turns_cases hcall with ⟨hle, -⟩ | ⟨-, hw, hlive, -⟩ |
    ⟨-, -, hturns, first, last, hdue, hadv, rfl⟩
  · exact absurd hle hdt
  · rw [hclear hw] at hlive
    exact absurd hlive (lt_irrefl _)
  · rw [runDue_of_wait _ hwait] at hdue
    cases hdue
    exact ⟨hP.advance hadv, hturns.trans (turnsDue_of_wait _ hwait)⟩

theorem resumes (hP : Pending script place d now (l.enter dt)) (hdt : ¬ dt ≤ 0)
    (hclear : l.waitingForClear = true → l.live = 0) (hinside : place < script.length)
    (hle : d ≤ now) (hcall : l.update world dt = .ok f) :
    ∃ t rest, l.callTurns (.update world dt) = t :: rest ∧ t.index = place ∧
      t.level.wait = (l.enter dt).wait ∧
      Scalar.clamp (dt + (l.enter dt).wait) 0 dt = .ok t.offset := by
  rcases turns_cases hcall with ⟨hle, -⟩ | ⟨-, hw, hlive, -⟩ |
    ⟨-, -, hturns, first, last, hdue, hadv, rfl⟩
  · exact absurd hle hdt
  · rw [hclear hw] at hlive
    exact absurd hlive (lt_irrefl _)
  · have hahead : max (l.enter dt).next (l.enter dt).gate < (l.enter dt).script.length := by
      rw [hP.place_eq, hP.script_eq]
      exact hinside
    obtain ⟨t, rest, hfirst, hindex, hfound⟩ :=
      turnsDue_of_due (by simp) (hP.due.due_iff.2 hle) hahead hdue
    exact ⟨t, rest, hturns.trans hfirst, hindex.trans hP.place_eq, hfound⟩

theorem meets (hP : Pending script place d T l) (hq : 0 < q) (hinside : place < script.length)
    (hlt : T ≤ d) (hle : d ≤ T + q) (hcall : l.update world (.finite q) = .ok f) :
    ∃ t rest, l.callTurns (.update world (.finite q)) = t :: rest ∧ t.index = place ∧
      t.Meets T q d := by
  have hdt : ¬ (Exact.finite q) ≤ 0 := by simpa using hq
  have hentered := hP.enter q
  obtain ⟨t, rest, hturns, hindex, hwait, hoffset⟩ :=
    hentered.resumes hdt hP.due.playing hinside hle hcall
  obtain ⟨heq, hsum, -⟩ := hentered.due.clamped hlt (hentered.due.due_iff.2 hle) hoffset
  exact ⟨t, rest, hturns, hindex, heq, hwait ▸ hsum, hlt, hle⟩

theorem run {calls : List (Call Exact)} (hP : Pending script place d T l) (hlt : T < d)
    (hinside : place < script.length)
    (hcalls : ∀ world dt, .update world dt ∈ calls → ∃ q, 0 < q ∧ dt = .finite q)
    (hrun : l.run calls = .ok f) :
    (T + elapsed calls < d → Pending script place d (T + elapsed calls) f.level ∧
      l.turns calls = []) ∧
      (d ≤ T + elapsed calls → l.turns calls ≠ []) := by
  refine timed_induction (Q := fun t f turns =>
    (T + t < d → Pending script place d (T + t) f.level ∧ turns = []) ∧
    (d ≤ T + t → turns ≠ [])) hcalls ?_ ?_ ?_ hrun
  · rw [add_zero]
    exact ⟨fun _ => ⟨hP, rfl⟩, fun hle => absurd hlt (not_lt.2 hle)⟩
  · intro t h turns hQ
    obtain ⟨hbefore, hafter⟩ := hQ
    refine ⟨fun hlt => ?_, hafter⟩
    obtain ⟨hquiet, hnone⟩ := hbefore hlt
    exact ⟨⟨hquiet.script_eq, hquiet.place_eq, hquiet.due.of_eq rfl rfl⟩, hnone⟩
  · intro t h f turns world q _ hq hQ hcall
    obtain ⟨hbefore, hafter⟩ := hQ
    have hdt : ¬ (Exact.finite q) ≤ 0 := by simpa using hq
    rw [← add_assoc, behind_level]
    -- either the time is still to come when the frame begins, or the line has run before
    by_cases hearly : T + t < d
    · obtain ⟨hquiet, hnone⟩ := hbefore hearly
      rw [hnone, List.nil_append]
      refine ⟨fun hlt => (hquiet.enter q).quiet hdt hquiet.due.playing hlt hcall, fun hle => ?_⟩
      obtain ⟨first, rest, hturns, -⟩ := hquiet.meets hq hinside hearly.le hle hcall
      rw [hturns]
      exact List.cons_ne_nil _ _
    · have hran := hafter (not_lt.1 hearly)
      exact ⟨fun hlt => absurd (by linarith) hearly, fun _ hnone =>
        hran (List.append_eq_nil_iff.1 hnone).1⟩

theorem frame {between : List (Call Exact)} (hP : Pending script place d T l) (hlt : T < d)
    (hinside : place < script.length)
    (hcalls : ∀ w dt, .update w dt ∈ between ++ [.update world (.finite q)] →
      ∃ q, 0 < q ∧ dt = .finite q)
    (hrun : l.run (between ++ [.update world (.finite q)]) = .ok f)
    (hbefore : T + elapsed between < d) (hle : d ≤ T + elapsed between + q) :
    ∃ t rest, l.turns (between ++ [.update world (.finite q)]) = t :: rest ∧ t.index = place ∧
      t.Meets (T + elapsed between) q d := by
  obtain ⟨before, last, hbetween, hlast, -⟩ := run_snoc hrun
  have hcalls' : ∀ world dt, .update world dt ∈ between → ∃ q, 0 < q ∧ dt = .finite q :=
    fun world dt hmem => hcalls world dt (List.mem_append_left _ hmem)
  obtain ⟨hquiet, hnone⟩ := (hP.run hlt hinside hcalls' hbetween).1 hbefore
  have hq : 0 < q := by linarith
  rw [turns_snoc hbetween, hnone, List.nil_append]
  exact hquiet.meets hq hinside hbefore.le hle hlast

/-- The line has run as soon as its time has come, however the time is cut into frames. -/
theorem schedule {calls : List (Call Exact)} (hP : Pending script place d T l) (hlt : T < d)
    (hinside : place < script.length)
    (hcalls : ∀ w dt, .update w dt ∈ calls → ∃ q, 0 < q ∧ dt = .finite q)
    (hrun : l.run calls = .ok f) : (0 < (l.turns calls).length ↔ d ≤ T + elapsed calls) ∧
      ∀ between world q, between ++ [.update world (.finite q)] <+: calls →
        T + elapsed between < d →
        d ≤ T + elapsed between + q →
        ∃ t rest, l.turns (between ++ [.update world (.finite q)]) = t :: rest ∧
          t.index = place ∧ t.Meets (T + elapsed between) q d := by
  obtain ⟨hsoon, hcome⟩ := hP.run hlt hinside hcalls hrun
  refine ⟨⟨fun hran => ?_, fun hle => List.length_pos_iff.2 (hcome hle)⟩, ?_⟩
  · by_contra hearly
    rw [(hsoon (not_le.1 hearly)).2] at hran
    exact lt_irrefl _ hran
  · rintro between w q ⟨rest, rfl⟩ hearly hle
    rw [run_append] at hrun
    obtain ⟨middle, hmiddle, -⟩ := parts_of_ok hrun
    exact hP.frame hlt hinside (fun w dt hmem => hcalls w dt (List.mem_append_left _ hmem))
      hmiddle hearly hle

end Pending

/-! ## Clearing -/

/-- The level sets the time as soon as it notices that its enemies are gone. -/
theorem pending_of_held (hscript : l.script = script) (hw : l.waitingForClear = true)
    (hclock : l.clock = .finite now) (hwait : l.wait = .finite m) (hm : 0 < m) (hc : 0 ≤ now + q) :
    Pending script (max l.next l.gate) (nextMultiple m (now + q)) (now + q)
      (l.enter (.finite q)) := by
  refine ⟨(enter_script _ _).trans hscript,
    by rw [enter_next, enter_gate], enter_waitingForClear _ _, ?_⟩
  have hrebased : (l.enter (.finite q)).wait = .finite m - Scalar.remainder (.finite (now + q))
      (.finite m) := by
    rw [Level.enter, if_pos hw]
    change
      (if 0 < l.wait then l.wait - Scalar.remainder (l.clock + .finite q) l.wait else l.wait) = _
    rw [hwait, hclock, Exact.finite_add, if_pos (by simpa using hm)]
  have hremainder : Scalar.remainder (.finite (now + q)) (.finite m) =
      Exact.finite (now + q - m * ⌊(now + q) / m⌋) := by
    change (if m = 0 then _ else _) = _
    rw [if_neg hm.ne', Exact.wholePart, if_pos (div_nonneg hc hm.le)]
  rw [hrebased, hremainder, Exact.finite_sub, nextMultiple]
  congr 1
  ring

theorem pending_of_free (hscript : l.script = script) (hw : l.waitingForClear = true)
    (hwait : l.wait = .finite m) (hm : m ≤ 0) (now : ℚ) (dt : Exact) :
    Pending script (max l.next l.gate) (now + m) now (l.enter dt) := by
  refine ⟨(enter_script _ _).trans hscript,
    by rw [enter_next, enter_gate], enter_waitingForClear _ _, ?_⟩
  have hkept : (l.enter dt).wait = .finite m := by
    rw [Level.enter, if_pos hw]
    change (if 0 < l.wait then _ else l.wait) = _
    rw [hwait, if_neg (by simpa using hm)]
  rw [hkept]
  congr 1
  ring

theorem Reckoned.clears (hR : Reckoned script now h turns) (hw : h.level.waitingForClear = true)
    (hlive : h.level.live = 0) (hwait : h.level.wait = .finite m) (hm : 0 < m) (hnow : 0 ≤ now)
    (hq : 0 < q) (hcall : h.level.update world (.finite q) = .ok f) :
    ∃ d, IsLeast {x | now + q < x ∧ ∃ n : ℤ, x = n * m} d ∧
      Pending script (max h.level.next h.level.gate) d (now + q) f.level ∧
      h.level.callTurns (.update world (.finite q)) = [] := by
  have hleast := isLeast_nextMultiple hm (now + q)
  have hpending := pending_of_held hR.script_eq hw hR.clock_eq hwait hm (add_nonneg hnow hq.le)
  exact ⟨_, hleast, hpending.quiet (by simpa using hq) (fun _ => hlive) hleast.1.1 hcall⟩

/-! ## The main statement -/

/-- Whatever the host did before, a level without living enemies ends its wait in the next update.
With a period `m` above zero, no line runs in this update, and the next line of the path runs at the
multiple `d` of `m` that comes next behind its end, in the frame that this moment lies in, however
time is cut into frames. Without such a period, the next line runs in the update itself. -/
theorem level_resumes_in_phase (script : List (Instruction Exact)) (tempo : ℚ) (words : Words)
    (earlier later : List (Call Exact)) (world : Vec Exact) (q : ℚ) (h : Frame Exact)
    (hscript : ∀ i ∈ script, Rational i)
    (hcalls : ∀ w dt, .update w dt ∈ earlier ++ [.update world (.finite q)] ++ later →
      ∃ q, 0 < q ∧ dt = .finite q)
    (hrun : (start script (.finite tempo) words).run earlier = .ok h)
    (hwaiting : h.level.waitingForClear = true) (hlive : h.level.live = 0) :
    let turns := (start script (.finite tempo) words).turns
    let cleared := earlier ++ [.update world (.finite q)]
    let k := (turns earlier).length
    ∃ f m, (start script (.finite tempo) words).run (cleared ++ later) = .ok f ∧
      f.level.clock = .finite (elapsed (cleared ++ later)) ∧
      f.journal.filterMap Entry.line? = (turns (cleared ++ later)).map Turn.line ∧
      (turns earlier).getLast?.bind Turn.modulus? = some (.finite m) ∧
      (0 < m → turns cleared = turns earlier ∧
        ∃ d, IsLeast {x | elapsed cleared < x ∧ ∃ n : ℤ, x = n * m} d ∧
          (path script k < script.length →
            (k < (turns (cleared ++ later)).length ↔ d ≤ elapsed (cleared ++ later)) ∧
            ∀ between world q, between ++ [.update world (.finite q)] <+: later →
              elapsed (cleared ++ between) < d → d ≤ elapsed (cleared ++ between) + q →
              ∃ t, (turns (cleared ++ (between ++ [.update world (.finite q)])))[k]? = some t ∧
                t.index = path script k ∧ t.Meets (elapsed (cleared ++ between)) q d)) ∧
      (m ≤ 0 → path script k < script.length → ∃ t, (turns cleared)[k]? = some t ∧
        t.index = path script k) := by
  intro turns cleared k
  obtain ⟨f, hall⟩ := run_rational hscript (.finite tempo) words hcalls
  have hearlier : ∀ w dt, .update w dt ∈ earlier → ∃ q, 0 < q ∧ dt = .finite q :=
    fun w dt hmem => hcalls w dt (by simp [hmem])
  have hlater : ∀ w dt, .update w dt ∈ later → ∃ q, 0 < q ∧ dt = .finite q :=
    fun w dt hmem => hcalls w dt (by simp [hmem])
  have hq : 0 < q := by
    obtain ⟨q', hq', heq⟩ := hcalls world (.finite q) (by simp)
    exact Exact.finite.inj heq ▸ hq'
  have hdt : ¬ (Exact.finite q) ≤ 0 := by simpa using hq
  have hR := reckoned_run hscript hearlier hrun
  obtain ⟨wait, hwait⟩ := hR.wait_eq
  have hplace : max h.level.next h.level.gate = path script k := by
    have hahead := (onPath_run hrun).ahead
    rwa [executedLines_of_run hrun, List.length_map] at hahead
  -- the run comes in three parts: what was before, the update that ends the wait, and the rest
  have hparts := hall
  rw [run_append] at hparts
  obtain ⟨after, hafter, hparts⟩ := parts_of_ok hparts
  obtain ⟨last, hlast, -⟩ := parts_of_ok hparts
  obtain ⟨before, first, hbefore, hfirst, rfl⟩ := run_snoc hafter
  obtain rfl := Except.ok.inj (hbefore.symm.trans hrun)
  have hcleared :
      turns cleared = turns earlier ++ before.level.callTurns (.update world (.finite q)) :=
    turns_snoc hrun _
  have htime : elapsed cleared = elapsed earlier + q := by
    rw [elapsed_append, elapsed_update]
  refine ⟨f, wait, hall, (reckoned_run hscript hcalls hall).clock_eq, lines_of_run hall, ?_, ?_, ?_⟩
  · rw [hR.held hwaiting, hwait]
  · intro hm
    obtain ⟨d, hleast, hquiet, hnone⟩ :=
      hR.clears hwaiting hlive hwait hm (elapsed_nonneg hearlier) hq hfirst
    rw [← htime] at hleast hquiet
    rw [hplace] at hquiet
    have hsame : turns cleared = turns earlier := by
      rw [hcleared, hnone, List.append_nil]
    have hturns (calls) : turns (cleared ++ calls) = turns earlier ++ first.level.turns calls := by
      rw [← hsame]
      exact turns_append hafter calls
    refine ⟨hsame, d, hleast, fun hinside => ?_⟩
    obtain ⟨hran, hframe⟩ := hquiet.schedule hleast.1.1 hinside hlater hlast
    constructor
    · rw [hturns, List.length_append, elapsed_append, ← hran]
      omega
    · intro between w p hpart hearly hle
      rw [elapsed_append] at hearly hle ⊢
      obtain ⟨t, rest, hrest, hindex, hmeets⟩ := hframe between w p hpart hearly hle
      refine ⟨t, ?_, hindex, hmeets⟩
      rw [hturns, hrest]
      simp [k]
  · intro hm hinside
    have hpending := pending_of_free hR.script_eq hwaiting hwait hm (elapsed cleared) (.finite q)
    rw [hplace] at hpending
    obtain ⟨t, rest, hturns, hindex, -⟩ := hpending.resumes hdt (fun _ => hlive) hinside
      (by linarith) hfirst
    refine ⟨t, ?_, hindex⟩
    rw [hcleared, hturns]
    simp [k]

def hauntedScript : List (Instruction Exact) :=
  [.spawn pulse, .waitUntilClear (.literal 2), .finish]

def hauntedFrames : List (Call Exact) :=
  [.update ⟨320, 180⟩ (.finite (5 / 4)), .update ⟨320, 180⟩ (.finite (1 / 2)), .release, .release]

def quietFrames : List (Call Exact) :=
  [.update ⟨320, 180⟩ (.finite 1), .update ⟨320, 180⟩ (.finite 1)]

theorem last_line_waits_for_the_beat :
    ∃ (h f : Frame Exact) (t : Turn Exact),
      (start hauntedScript (.finite 120) (Words.cycle #[])).run hauntedFrames = .ok h ∧
      h.level.waitingForClear = true ∧ h.level.live = 0 ∧
      (start hauntedScript (.finite 120) (Words.cycle #[])).run
        (hauntedFrames ++ [.update ⟨320, 180⟩ (.finite (3 / 4))] ++ quietFrames) = .ok f ∧
      f.level.clock = .finite (9 / 2) ∧ t.index = 2 ∧ t.Meets (7 / 2) 1 4 := by
  have hscript : ∀ i ∈ hauntedScript, Rational i := by
    refine rational_of_checked ?_
    simp [hauntedScript, pulse, Instruction.numbers, Script.Group.numbers, Number.isRational,
      Exact.isFinite]
  have hcalls : ∀ w dt,
      .update w dt ∈ hauntedFrames ++ [.update ⟨320, 180⟩ (.finite (3 / 4))] ++ quietFrames →
      ∃ q, 0 < q ∧ dt = .finite q := by
    simp only [hauntedFrames, quietFrames, List.cons_append, List.nil_append, List.mem_cons,
      Call.update.injEq, reduceCtorEq, List.not_mem_nil, or_false, false_or]
    rintro w dt (⟨-, rfl⟩ | ⟨-, rfl⟩ | ⟨-, rfl⟩ | ⟨-, rfl⟩ | ⟨-, rfl⟩)
    · exact ⟨5 / 4, by norm_num, rfl⟩
    · exact ⟨1 / 2, by norm_num, rfl⟩
    · exact ⟨3 / 4, by norm_num, rfl⟩
    · exact ⟨1, by norm_num, rfl⟩
    · exact ⟨1, by norm_num, rfl⟩
  have hview : ((start hauntedScript (.finite 120) (Words.cycle #[])).run hauntedFrames).map
      (fun h => (h.level.waitingForClear, h.level.live)) = .ok (true, 0) := by
    decide +kernel
  obtain ⟨h, hrun, hheld⟩ := ok_of_map hview
  obtain ⟨hwaiting, hlive⟩ := Prod.mk.inj hheld
  have hmodulus : ((start hauntedScript (.finite 120) (Words.cycle #[])).turns
      hauntedFrames).getLast?.bind Turn.modulus? = some (.finite 2) := by
    decide +kernel
  have hplace : path hauntedScript
      ((start hauntedScript (.finite 120) (Words.cycle #[])).turns hauntedFrames).length = 2 := by
    decide +kernel
  obtain ⟨f, m, hall, hclock, -, hm, hphase, -⟩ :=
    level_resumes_in_phase hauntedScript 120 (Words.cycle #[])
    hauntedFrames quietFrames ⟨320, 180⟩ (3 / 4) h hscript hcalls hrun hwaiting hlive
  obtain rfl : m = 2 := Exact.finite.inj (Option.some.inj (hm.symm.trans hmodulus))
  obtain ⟨-, d, hleast, hresumes⟩ := hphase (by norm_num)
  have hcleared : elapsed (hauntedFrames ++ [.update ⟨320, 180⟩ (.finite (3 / 4))]) = 5 / 2 := by
    decide +kernel
  have hmiddle : elapsed (hauntedFrames ++ [.update ⟨320, 180⟩ (.finite (3 / 4))] ++
      [.update ⟨320, 180⟩ (.finite 1)]) = 7 / 2 := by
    decide +kernel
  have htotal : elapsed (hauntedFrames ++ [.update ⟨320, 180⟩ (.finite (3 / 4))] ++ quietFrames) =
      9 / 2 := by
    decide +kernel
  obtain rfl : d = 4 := by
    rw [hcleared] at hleast
    rw [hleast.unique (isLeast_nextMultiple (by norm_num) _)]
    norm_num [nextMultiple]
  rw [hplace] at hresumes
  obtain ⟨-, hframe⟩ := hresumes (by decide)
  obtain ⟨t, -, hindex, hmeets⟩ := hframe [.update ⟨320, 180⟩ (.finite 1)] ⟨320, 180⟩ 1
    (List.prefix_refl _) (by rw [hmiddle]; norm_num) (by rw [hmiddle]; norm_num)
  rw [hmiddle] at hmeets
  exact ⟨h, f, t, hrun, hwaiting, hlive, hall, htotal ▸ hclock, hindex, hmeets⟩

end Barrage.Level
