import Barrage.Proofs.Level.Run
import Barrage.Scalar.Single

/-! # The path through a script

Which lines run, and in which order, is settled by the script alone: a line is followed by the next
one, and a jump leads on to its target, but never back. Every history of a level runs a first part
of this path. -/

namespace Barrage.Level

open Script (Instruction)

variable {α : Type}

/-- The line that runs after a line. Jumps count lines from one and only lead forward. -/
def successor (script : List (Instruction α)) (i : ℕ) : ℕ :=
  match script[i]? with
  | some (.goto line) => max (i + 1) (line - 1)
  | _ => i + 1

def path (script : List (Instruction α)) : ℕ → ℕ
  | 0 => 0
  | k + 1 => successor script (path script k)

def executedLines (journal : List (Entry α)) : List ℕ := journal.filterMap Entry.executed?

theorem lt_successor (script : List (Instruction α)) (i : ℕ) : i < successor script i := by
  unfold successor
  split <;> omega

theorem path_strictMono (script : List (Instruction α)) : StrictMono (path script) :=
  strictMono_nat_of_lt_succ fun k => lt_successor script (path script k)

theorem successor_of_tells {script : List (Instruction α)} {i : ℕ} {instruction : Instruction α}
    (h : script[i]? = some instruction) (hgoto : ∀ line, instruction ≠ .goto line) :
    successor script i = i + 1 := by
  unfold successor
  split
  · next line heq =>
    rw [h] at heq
    exact absurd (Option.some.inj heq) (hgoto line)
  · rfl

@[simp] theorem executedLines_append (j₁ j₂ : List (Entry α)) :
    executedLines (j₁ ++ j₂) = executedLines j₁ ++ executedLines j₂ := List.filterMap_append

theorem executedLines_eq_nil {journal : List (Entry α)} (h : ∀ e ∈ journal, e.executed? = none) :
    executedLines journal = [] := List.filterMap_eq_nil_iff.2 h

/-- The lines run so far are the first lines of the path, and the larger of the next line and the
gate is the line of the path that comes next. -/
structure OnPath (script : List (Instruction α)) (h : Frame α) : Prop where
  script_eq : h.level.script = script
  lines_eq : executedLines h.journal =
    (List.range (executedLines h.journal).length).map (path script)
  ahead : max h.level.next h.level.gate = path script (executedLines h.journal).length
  inside : ∀ i ∈ executedLines h.journal, i < script.length

variable {script : List (Instruction α)} {h f : Frame α}

theorem onPath_skip (hP : OnPath script h) (hgate : h.level.next < h.level.gate) :
    OnPath script ⟨h.level.pass, h.journal, h.events⟩ := by
  refine ⟨hP.script_eq, hP.lines_eq, ?_, hP.inside⟩
  rw [← hP.ahead]
  change max (h.level.next + 1) h.level.gate = max h.level.next h.level.gate
  omega

theorem OnPath.of_eq (hP : OnPath script h) (hscript : f.level.script = h.level.script)
    (hnext : f.level.next = h.level.next) (hgate : f.level.gate = h.level.gate)
    (hlines : executedLines f.journal = executedLines h.journal) : OnPath script f := by
  constructor
  · rw [hscript, hP.script_eq]
  · rw [hlines]; exact hP.lines_eq
  · rw [hlines, hnext, hgate]; exact hP.ahead
  · rw [hlines]; exact hP.inside

theorem OnPath.next_eq (hP : OnPath script h) (hgate : h.level.gate ≤ h.level.next) :
    h.level.next = path script (executedLines h.journal).length := by
  rw [← hP.ahead]
  omega

variable [Scalar α] {world : Vec α} {dt : α}

theorem onPath_start (script : List (Instruction α)) (tempo : α) (words : Words) :
    OnPath script ⟨start script tempo words, [], []⟩ :=
  ⟨rfl, rfl, rfl, by simp [executedLines]⟩

theorem Outcome.no_line {l : Level α} {index : ℕ} {offset : α} {i : Instruction α}
    (hout : Outcome l world index offset i f) : executedLines f.journal = [] := by
  cases hout <;> rfl

/-- After a line, the next line and the gate point at its successor on the path. -/
theorem Outcome.max_next_gate {l : Level α} {index : ℕ} {offset : α} {i : Instruction α}
    (hget : script[index]? = some i) (hnext : l.next = index + 1) (hgate : l.gate ≤ index)
    (hout : Outcome l world index offset i f) :
    max f.level.next f.level.gate = successor script index := by
  have stay (hi : ∀ line, i ≠ .goto line) (h : f.level.gate = l.gate) :
      max f.level.next f.level.gate = successor script index := by
    rw [successor_of_tells hget hi, hout.next_eq, h]
    omega
  cases hout with
  | told _ _ htells => exact stay (by rintro line rfl; cases htells) rfl
  | goto line => simp [successor, hget, hnext]
  | spawn hstart => exact stay nofun (by obtain ⟨_, _, rfl, -⟩ := startGroup_ok hstart; rfl)
  | spawnRepeatedly => exact stay nofun rfl
  | wait => exact stay nofun rfl
  | waitUntilClear => exact stay nofun rfl

theorem executedLines_execute {l : Level α} {index : ℕ} {offset : α} {i : Instruction α}
    (hout : Outcome l world index offset i f) (journal : List (Entry α)) (events : List (Event α)) :
    executedLines (f.behind (journal ++ [.executed index offset]) events).journal =
      executedLines journal ++ [index] := by
  rw [behind_journal, executedLines_append, executedLines_append, hout.no_line, List.append_nil]
  rfl

theorem onPath_execute {i : Instruction α} {offset : α} (hP : OnPath script h)
    (hgate : h.level.gate ≤ h.level.next) (hget : h.level.script[h.level.next]? = some i)
    (hout : Outcome h.level.pass world h.level.next offset i f) :
    OnPath script (f.behind (h.journal ++ [.executed h.level.next offset]) h.events) := by
  have hhere := hP.next_eq hgate
  have hlines := executedLines_execute hout h.journal h.events
  rw [hP.script_eq] at hget
  constructor
  · exact hout.script_eq.trans hP.script_eq
  · rw [hlines, List.length_append, List.length_singleton, List.range_succ, List.map_append,
      ← hP.lines_eq]
    simp [← hhere]
  · rw [hlines, List.length_append, List.length_singleton]
    have hmax := hout.max_next_gate (l := h.level.pass) hget rfl hgate
    rwa [hhere] at hmax
  · rw [hlines]
    intro j hj
    rcases List.mem_append.1 hj with hj | hj
    · exact hP.inside j hj
    · rw [List.mem_singleton.1 hj]
      exact (List.getElem?_eq_some_iff.1 hget).1

theorem onPath_enter (hP : OnPath script h) (dt : α) :
    OnPath script ⟨h.level.enter dt, h.journal, h.events⟩ :=
  hP.of_eq (enter_script _ _) (enter_next _ _) (enter_gate _ _) rfl

theorem onPath_runDue {rest : List (Instruction α)} (hP : OnPath script h)
    (hrest : rest <+: script.drop h.level.next)
    (hrun : runDue world dt rest (h.level.enter dt) = .ok f) :
    OnPath script (f.behind h.journal h.events) := by
  refine (runDue_induction (P := OnPath script) (h := ⟨h.level.enter dt, h.journal, h.events⟩)
    ?_ ?_ ?_ ?_ (onPath_enter hP dt) hrun).1
  · intro g hg _ _ hgate _
    exact onPath_skip hg hgate
  · intro g i offset first hg _ _ hgate hget _ hout
    exact onPath_execute hg hgate hget hout
  · simpa [hP.script_eq] using hrest
  · exact enter_waitingForClear _ _

theorem onPath_advance {l : Level α} (hP : OnPath script ⟨l, h.journal, h.events⟩)
    (hadv : l.advanceSchedulers world dt = .ok f) :
    OnPath script (f.behind h.journal h.events) := by
  obtain ⟨⟨words, repeaters, spawners, live, hf⟩, hjournal, -⟩ := advance_frame hadv
  refine hP.of_eq ?_ ?_ ?_ ?_
  · simp [hf]
  · simp [hf]
  · simp [hf]
  · simp [executedLines_eq_nil hjournal]

theorem onPath_call {c : Call α} (hP : OnPath script h) (hcall : h.level.call c = .ok f) :
    OnPath script (f.behind h.journal h.events) := by
  cases c with
  | release =>
    cases hcall
    exact hP.of_eq rfl rfl rfl (by simp)
  | update world dt =>
    rcases update_cases hcall with ⟨-, rfl⟩ | ⟨-, -, -, hadv⟩ | ⟨-, -, first, last, hdue, hadv, rfl⟩
    · exact hP.of_eq rfl rfl rfl (by simp)
    · exact onPath_advance (l := { h.level with clock := h.level.clock + dt })
        (hP.of_eq rfl rfl rfl rfl) hadv
    · have hfirst := onPath_runDue hP (by rw [hP.script_eq]) hdue
      have hlast := onPath_advance (h := first.behind h.journal h.events) hfirst hadv
      simpa [behind_behind] using hlast

theorem onPath_run {tempo : α} {words : Words} {calls : List (Call α)}
    (hrun : (start script tempo words).run calls = .ok f) : OnPath script f :=
  run_induction (onPath_start script tempo words)
    (fun _ _ _ _ _ _ hP hcall _ => onPath_call hP hcall) hrun

/-! ## Finished levels -/

theorem advance_idle {l : Level α} (hr : l.repeaters = []) (hs : l.spawners = []) :
    l.advanceSchedulers world dt = .ok ⟨l, [], []⟩ := by
  obtain ⟨_, _, _, _, _, _, _, _, _, _, _⟩ := l
  cases hr
  cases hs
  rfl

omit [Scalar α] in
theorem isFinished_iff {l : Level α} :
    l.isFinished = true ↔ l.script.length ≤ l.next ∧ l.spawners = [] ∧ l.repeaters = [] := by
  simp [isFinished, activeSchedulers]

theorem finished_enter {l : Level α} (hl : l.isFinished = true) (dt : α) :
    (l.enter dt).isFinished = true := by
  simpa [isFinished_iff] using hl

theorem finished_call {l : Level α} (hl : l.isFinished = true) (c : Call α) :
    ∃ l', l.call c = .ok ⟨l', [], []⟩ ∧ l'.isFinished = true := by
  obtain ⟨hscript, hs, hr⟩ := isFinished_iff.1 hl
  cases c with
  | release => exact ⟨l.release, rfl, hl⟩
  | update world dt =>
    by_cases hdt : dt ≤ 0
    · exact ⟨l, update_paused l world hdt, hl⟩
    by_cases hheld : l.waitingForClear = true ∧ 0 < l.live
    · refine ⟨{ l with clock := l.clock + dt }, ?_, hl⟩
      rw [call, update_held world hdt hheld.1 hheld.2]
      exact advance_idle hr hs
    · refine ⟨l.enter dt, ?_, finished_enter hl dt⟩
      rw [call, update_playing world hdt fun hw => Nat.eq_zero_of_not_pos fun hl => hheld ⟨hw, hl⟩,
        List.drop_eq_nil_of_le hscript]
      change (l.enter dt).advanceSchedulers world dt >>= _ = _
      rw [advance_idle (by simpa using hr) (by simpa using hs)]
      rfl

theorem finished_run {l : Level α} (hl : l.isFinished = true) (later : List (Call α)) :
    ∃ l', l.run later = .ok ⟨l', [], []⟩ ∧ l'.isFinished = true := by
  induction later generalizing l with
  | nil => exact ⟨l, rfl, hl⟩
  | cons c later ih =>
    obtain ⟨l₁, hcall, hl₁⟩ := finished_call hl c
    obtain ⟨l₂, hrun, hl₂⟩ := ih hl₁
    refine ⟨l₂, ?_, hl₂⟩
    simp only [run, hcall, bind, Except.bind, hrun]
    rfl

/-! ## The main statement -/

/-- Whatever the frames, draws and hosts, a level runs the first lines of the static path of its
script, each line once and in rising order; a frame that faults has also run no other. When the
script is over, the whole path has run. A finished level stays finished and says nothing more. -/
theorem lines_run_along_path (script : List (Instruction α)) (tempo : α) (words : Words)
    (calls : List (Call α)) (f : Frame α)
    (hrun : (start script tempo words).run calls = .ok f) :
    (∃ k, executedLines f.journal = (List.range k).map (path script) ∧
      (script.length ≤ f.level.next → script.length ≤ path script k)) ∧
    (executedLines f.journal).Pairwise (· < ·) ∧
    (∀ i ∈ executedLines f.journal, i < script.length) ∧
    (∀ world dt n part,
      runDue world dt ((script.drop f.level.next).take n) (f.level.enter dt) = .ok part →
      ∃ k, executedLines (f.journal ++ part.journal) = (List.range k).map (path script)) ∧
    (f.level.isFinished = true → ∀ later, ∃ l, f.level.run later = .ok ⟨l, [], []⟩ ∧
      l.isFinished = true) := by
  have hP := onPath_run hrun
  refine ⟨⟨_, hP.lines_eq, fun hover => ?_⟩, ?_, hP.inside, ?_, ?_⟩
  · rw [← hP.ahead]
    exact hover.trans (le_max_left _ _)
  · rw [hP.lines_eq]
    exact List.pairwise_map.2 (List.pairwise_lt_range.imp fun hab => path_strictMono script hab)
  · intro world dt n part hpart
    exact ⟨_, (onPath_runDue hP (List.take_prefix _ _) hpart).lines_eq⟩
  · exact fun hfinished later => finished_run hfinished later

def jumpingScript : List (Instruction Float32) :=
  [.goto 3, .finish, .wait (.literal 1), .finish]

theorem jump_leaves_a_line_out :
    ∃ f, (start jumpingScript 120 (Words.cycle #[])).run
        [.update ⟨320, 180⟩ 1, .update ⟨320, 180⟩ 1] = .ok f ∧
      executedLines f.journal = [0, 2, 3] ∧
      (executedLines f.journal).Pairwise (· < ·) ∧
      ∃ k, executedLines f.journal = (List.range k).map (path jumpingScript) := by
  have hview : ((start jumpingScript 120 (Words.cycle #[])).run
      [.update ⟨320, 180⟩ 1, .update ⟨320, 180⟩ 1]).map (fun f => executedLines f.journal) =
      .ok [0, 2, 3] := by
    decide +kernel
  obtain ⟨f, hrun, hlines⟩ := ok_of_map hview
  obtain ⟨⟨k, hk, -⟩, hrising, -⟩ := lines_run_along_path jumpingScript _ _ _ f hrun
  exact ⟨f, hrun, hlines, hrising, k, hk⟩

end Barrage.Level
