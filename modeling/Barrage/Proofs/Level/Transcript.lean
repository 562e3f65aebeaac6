import Barrage.Proofs.Level.Comments
import Barrage.Proofs.Text.Lines
import Barrage.Scalar.Single
import Barrage.Script.Reader

/-! # Texts without comments

The lines of a text that mean nothing can be left out of it. What is left is read as the same script
without its comments, and plays as the text did. -/

namespace Barrage

namespace Script

def isCommentLine (text : List Char) : Bool :=
  match Instruction.read text with
  | .ok instruction => instruction.isComment
  | .error _ => false

/-- The lines of a text that mean something. -/
def keptLines (source : String) : List (List Char) :=
  (Text.lines source.toList).filter fun text => !isCommentLine text

theorem readLine_ok {line : ℕ} {text : List Char} {i : Instruction Float32}
    (h : Instruction.readLine line text = .ok i) : Instruction.read text = .ok i := by
  unfold Instruction.readLine at h
  split at h
  · next hread => rw [hread, Except.ok.inj h]
  · cases h

/-- Lines are read one by one, and so the others are read as before. -/
theorem readFrom_kept {lines : List (List Char)} {script : List (Instruction Float32)} {line : ℕ}
    (h : readFrom line lines = .ok script) (line' : ℕ) :
    readFrom line' (lines.filter fun text => !isCommentLine text) = .ok (meaningful script) := by
  induction lines generalizing script line line' with
  | nil =>
    obtain rfl := Except.ok.inj h
    rfl
  | cons text rest ih =>
    unfold readFrom at h
    cases hline : Instruction.readLine line text with
    | error e =>
      rw [hline] at h
      cases h
    | ok i =>
      cases hrest : readFrom (line + 1) rest with
      | error e =>
        rw [hline, hrest] at h
        cases h
      | ok later =>
        rw [hline, hrest] at h
        obtain rfl := Except.ok.inj h
        have hread := readLine_ok hline
        have hkind : isCommentLine text = i.isComment := by rw [isCommentLine, hread]
        by_cases hcomment : i.isComment = true
        · obtain rfl := isComment_iff.1 hcomment
          rw [List.filter_cons_of_neg (by simp [hkind, Instruction.isComment]), meaningful_comment]
          exact ih hrest line'
        · have hmeans := Bool.eq_false_iff.2 hcomment
          have hline' : Instruction.readLine line' text = .ok i := by
            rw [Instruction.readLine, hread]
          rw [List.filter_cons_of_pos (by simp [hkind, hmeans]), meaningful_cons hmeans,
            readFrom, hline', ih hrest (line' + 1)]
          rfl

theorem exists_keptText (source : String) :
    ∃ text : String, Text.lines text.toList = keptLines source := by
  refine ⟨String.ofList (Text.ofLines (keptLines source)), ?_⟩
  rw [String.toList_ofList]
  exact Text.lines_ofLines fun line hline => Text.no_feed_of_mem_lines
    (List.mem_of_mem_filter hline)

end Script

namespace Level

open Script (meaningful lineNumber keptLines)

/-- In a script without jumps, all lines that are read as comments can be left out of the text:
unknown keywords, unknown commands for music, blank lines and remarks. The other lines can be had as
a text, which is read as the same instructions, and their numbers keep the lines apart. A host that
decides by what it sees of a level, call by call, sees the same of both: the same events in the same
order, with the same spawn requests, and the same source of chance, clock, tempo, number of living
enemies, waiting flag and number of schedulers. Only where the length of a frame is undefined may
the text with comments give up when the other does not. -/
theorem comments_are_inert (source : String) (script : List (Script.Instruction Float32))
    (hread : Script.read source = .ok script) (hstays : ∀ i ∈ script, i.isJump = false) :
    (∃ text : String, Text.lines text.toList = keptLines source) ∧
    (∀ text : String, Text.lines text.toList = keptLines source →
      Script.read text = .ok (meaningful script)) ∧
    (∀ line line' i, script[line]? = some i → i.isComment = false → line < line' →
      lineNumber script line < lineNumber script line') ∧
    ∀ (tempo : Float32) (words : Words) (host : Host Float32) (n : ℕ),
      (∀ l seen, (start script tempo words).play host n = .ok (l, seen) →
        ∃ l', (start (meaningful script) tempo words).play host n = .ok (l', seen)) ∧
      ((∀ seen, ¬ (host seen).Unmeasured) →
        ((start (meaningful script) tempo words).play host n).map Prod.snd =
          ((start script tempo words).play host n).map Prod.snd) := by
  refine ⟨Script.exists_keptText source, fun text htext => ?_, ?_, fun tempo words host n => ?_⟩
  · rw [Script.read, htext]
    exact Script.readFrom_kept hread 1
  · intro line line' i hget hmeans hlt
    exact Script.lineNumber_lt hget hmeans hlt
  · have hplay := play_uncommented (l := start script tempo words) hstays rfl host n
    have hstart : (start script tempo words).uncommented = start (meaningful script) tempo words :=
      rfl
    rw [hstart] at hplay
    constructor
    · intro l seen hok
      obtain ⟨q, hq, -, -, rfl⟩ := hplay.of_ok hok
      exact ⟨_, hq⟩
    · intro hmeasured
      refine hplay.map_eq (fun ⟨seen, h⟩ => hmeasured seen h) ?_
      rintro p _ ⟨-, -, rfl⟩
      rfl

def steadyHost : Host Float32 := fun _ => .update ⟨320, 180⟩ 0.5

theorem remarks_can_be_left_out :
    Script.read "# to begin with\nwait  1\nunheard  of\nend" =
      .ok [.comment, .wait (.literal 1), .comment, .finish] ∧
    (∀ i ∈ [Script.Instruction.comment, .wait (.literal (1 : Float32)), .comment, .finish],
      i.isJump = false) ∧
    (∀ seen, ¬ (steadyHost seen).Unmeasured) ∧
    Script.read "wait  1\nend" = .ok [.wait (.literal 1), .finish] ∧
    ∀ n,
      ((start [.wait (.literal 1), .finish] 120 (Words.cycle #[])).play steadyHost n).map Prod.snd =
        ((start [.comment, .wait (.literal 1), .comment, .finish] 120 (Words.cycle #[])).play
          steadyHost n).map Prod.snd := by
  have hread : Script.read "# to begin with\nwait  1\nunheard  of\nend" =
      .ok [.comment, .wait (.literal 1), .comment, .finish] := by
    decide +kernel
  have hstays : ∀ i ∈ [Script.Instruction.comment, .wait (.literal (1 : Float32)),
      .comment, .finish], i.isJump = false := by
    decide
  have hmeasured : ∀ seen, ¬ (steadyHost seen).Unmeasured := fun _ h => h.2 (by decide +kernel)
  have hlines : Text.lines "wait  1\nend".toList =
      keptLines "# to begin with\nwait  1\nunheard  of\nend" := by
    decide +kernel
  obtain ⟨-, htext, -, hplay⟩ := comments_are_inert _ _ hread hstays
  exact ⟨hread, hstays, hmeasured, htext _ hlines, fun n =>
    (hplay 120 (Words.cycle #[]) steadyHost n).2 hmeasured⟩

/-- A second, and then a frame of no definite length. -/
def stumblingHost : Host Float32 :=
  fun seen => .update ⟨320, 180⟩ (if seen.isEmpty then 1 else Single.undefined)

/-- When no enemy is left, the remark is due. Without it no line is left that could be. -/
theorem remark_stops_an_undefined_frame :
    Script.read "waitdefeated  0\n# note" = .ok [.waitUntilClear (.literal 0), .comment] ∧
    (start [.waitUntilClear (.literal 0), .comment] 120 (Words.cycle #[])).play stumblingHost 2 =
      .error .unorderedBounds ∧
    ∃ l seen, (start (meaningful [.waitUntilClear (.literal 0), .comment]) 120
      (Words.cycle #[])).play stumblingHost 2 = .ok (l, seen) := by
  have hstops : ((start [.waitUntilClear (.literal 0), .comment] 120 (Words.cycle #[])).play
      stumblingHost 2).map (fun _ => ()) = .error .unorderedBounds := by
    decide +kernel
  have hgoes : ((start (meaningful [.waitUntilClear (.literal 0), .comment]) 120
      (Words.cycle #[])).play stumblingHost 2).map (fun _ => ()) = .ok () := by
    decide +kernel
  obtain ⟨⟨l, seen⟩, hplay, -⟩ := ok_of_map hgoes
  exact ⟨by decide +kernel, error_of_map hstops, l, seen, hplay⟩

end Level

end Barrage
