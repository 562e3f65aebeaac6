import Barrage.Proofs.Level.DueTime
import Barrage.Proofs.Level.Timetable

/-! # Lines on time

The wait is counted down to the end of a frame at once, while schedulers still stand at its
beginning. What a line starts is put off by as much as the line comes after them, so it starts at
the time of the line. -/

namespace Barrage.Level

open Script (Instruction)

/-- Nothing is left to chance, and no line holds the level back or changes its tempo. -/
structure Regular (script : List (Instruction Exact)) (tempo : ℚ) : Prop where
  rational : ∀ i ∈ script, ∀ n ∈ i.numbers, n.isRational = true
  no_music : ∀ i ∈ script, i.isMusic = false
  no_hold : ∀ modulus, .waitUntilClear modulus ∉ script
  waits : ∀ time, .wait time ∈ script → 0 ≤ time.worth tempo
  windows : ∀ i ∈ script, ∀ group, i.group? = some group → 0 ≤ group.window.worth tempo

variable {script : List (Instruction Exact)} {tempo T now q : ℚ} {h f : Frame Exact}
  {world : Vec Exact}

theorem Regular.delay_nonneg (hR : Regular script tempo) {i : Instruction Exact} (hi : i ∈ script) :
    0 ≤ delay tempo i := by
  cases i with
  | wait time => exact hR.waits time hi
  | _ => exact le_refl _

theorem Regular.due_mono (hR : Regular script tempo) : Monotone (due script tempo) := by
  refine monotone_nat_of_le_succ fun k => ?_
  cases hget : script[path script k]? with
  | none => simp [due, hget]
  | some i =>
    have hdelay := hR.delay_nonneg (List.mem_of_getElem? hget)
    rw [due_succ hget]
    linarith

/-! ## Lines -/

/-- The frame ends at the time `now`, and up to then the wait is what the next line of the path is
short of. Schedulers stand at the time `T`, and no line is left behind them. -/
structure Pace (script : List (Instruction Exact)) (tempo T now : ℚ) (h : Frame Exact) : Prop where
  tempo_eq : h.level.tempo = .finite tempo
  clear : h.level.waitingForClear = false
  wait_eq : h.level.wait = .finite (due script tempo (executedLines h.journal).length - now)
  ahead : h.level.next < script.length → T ≤ due script tempo (executedLines h.journal).length

theorem pace_start (script : List (Instruction Exact)) (tempo : ℚ) (words : Words) :
    Pace script tempo 0 0 ⟨start script (.finite tempo) words, [], []⟩ := by
  refine ⟨rfl, rfl, ?_, fun _ => le_refl _⟩
  simp [start, executedLines, due]

theorem Pace.due_at (hP : Pace script tempo T now h) :
    DueAt (due script tempo (executedLines h.journal).length) now h.level :=
  ⟨hP.clear, hP.wait_eq⟩

theorem pace_enter (hP : Pace script tempo T now h) (q : ℚ) :
    Pace script tempo T (now + q) ⟨h.level.enter (.finite q), h.journal, h.events⟩ := by
  have hdue := hP.due_at.enter q
  refine ⟨(enter_tempo _ _).trans hP.tempo_eq, hdue.clear, hdue.wait_eq, ?_⟩
  rw [enter_next]
  exact hP.ahead

theorem pace_skip (hP : Pace script tempo T now h) :
    Pace script tempo T now ⟨h.level.pass, h.journal, h.events⟩ :=
  ⟨hP.tempo_eq, hP.clear, hP.wait_eq, fun hlt => hP.ahead (Nat.lt_of_succ_lt hlt)⟩

theorem Pace.lt_of_rests (hP : Pace script tempo T now h) (hrests : h.level.Rests)
    (hscript : h.level.script = script) (hlt : h.level.next < script.length) :
    now < due script tempo (executedLines h.journal).length :=
  hP.due_at.lt_of_rests hrests (hscript ▸ hlt)

theorem Pace.offset_eq {offset : Exact} (hP : Pace script tempo T (T + q) h)
    (hlt : h.level.next < script.length) (hwait : h.level.wait ≤ 0)
    (hoffset : Scalar.clamp (.finite q + h.level.wait) 0 (.finite q) = .ok offset) :
    offset = .finite (due script tempo (executedLines h.journal).length - T) :=
  (hP.due_at.clamped (hP.ahead hlt) hwait hoffset).1

theorem delayOf_eq {l : Level Exact} {i : Instruction Exact}
    (hrational : ∀ n ∈ i.numbers, n.isRational = true) (htempo : l.tempo = .finite tempo) :
    delayOf l i = delay tempo i := by
  cases i with
  | wait time =>
    have hworth := Number.resolve_rational (hrational time (List.mem_singleton.2 rfl)) tempo l.words
    simp only [delayOf, htempo, hworth, delay, Exact.value]
  | _ => rfl

theorem pace_execute {i : Instruction Exact} {offset : Exact} (hR : Regular script tempo)
    (hO : OnPath script h) (hP : Pace script tempo T now h) (hgate : h.level.gate ≤ h.level.next)
    (hget : h.level.script[h.level.next]? = some i)
    (hout : Outcome h.level.pass world h.level.next offset i f) :
    Pace script tempo T now (f.behind (h.journal ++ [.executed h.level.next offset]) h.events) := by
  rw [hO.script_eq] at hget
  have hmem : i ∈ script := List.mem_of_getElem? hget
  have hlt : h.level.next < script.length := (List.getElem?_eq_some_iff.1 hget).1
  have hlength : (executedLines (f.behind (h.journal ++ [.executed h.level.next offset])
      h.events).journal).length = (executedLines h.journal).length + 1 := by
    rw [executedLines_execute hout, List.length_append, List.length_singleton]
  have hdue : due script tempo ((executedLines h.journal).length + 1) =
      due script tempo (executedLines h.journal).length + delay tempo i :=
    due_succ (hO.next_eq hgate ▸ hget) tempo
  have hahead := hP.ahead hlt
  have hdelay := hR.delay_nonneg hmem
  have hnext := hP.due_at.execute (rational_of_checked hR.rational i hmem) hP.tempo_eq
    (fun modulus hi => hR.no_hold modulus (hi ▸ hmem)) hout
  rw [delayOf_eq (hR.rational i hmem) hP.tempo_eq, ← hdue, ← hlength] at hnext
  refine ⟨(hout.tempo_eq (hR.no_music i hmem)).trans hP.tempo_eq, hnext.clear, hnext.wait_eq,
    fun _ => ?_⟩
  rw [hlength, hdue]
  linarith

/-- Schedulers leave the lines alone, and when they have reached the end of a frame that has run all
its lines, no line is left behind them. -/
theorem pace_advance {l : Level Exact} {dt : Exact}
    (hP : Pace script tempo T now ⟨l, h.journal, h.events⟩) (hscript : l.script = script)
    (hrests : l.Rests) (hadv : l.advanceSchedulers world dt = .ok f) :
    Pace script tempo now now (f.behind h.journal h.events) := by
  obtain ⟨⟨words, repeaters, spawners, live, hf⟩, hjournal, -⟩ := advance_frame hadv
  have hlines : executedLines (f.behind h.journal h.events).journal = executedLines h.journal := by
    rw [behind_journal, executedLines_append, executedLines_eq_nil hjournal, List.append_nil]
  constructor
  · rw [behind_level, hf]
    exact hP.tempo_eq
  · rw [behind_level, hf]
    exact hP.clear
  · rw [hlines, behind_level, hf]
    exact hP.wait_eq
  · intro hlt
    rw [behind_level, hf] at hlt
    rw [hlines]
    exact (hP.lt_of_rests hrests hscript hlt).le

end Barrage.Level
