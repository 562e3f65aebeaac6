import Barrage.Proofs.Level.Dealing
import Barrage.Proofs.Measured

/-! # Levels that play on

A level stops with a fault only where a random field of its script has a range of infinite width. A
script without such a field plays on through every history, whatever the frames and draws. -/

namespace Barrage.Level

open Script (Instruction)

variable {α : Type}

def Fixed (numbers : List (Number α)) : Prop := ∀ n ∈ numbers, n.isRandom = false

variable {measured : Prop}

theorem draw_sure {β : Type} {c : Chance β} (hc : c.Sure measured) (l : Level α) :
    Sure measured (l.draw c) :=
  (hc l.words).bind fun _ _ => .of_ok _

variable [Scalar α] {script : List (Instruction α)} {world : Vec α} {dt : α}

/-- No numeric field has to be drawn from a range of infinite width. -/
def Measured (numbers : List (Number α)) : Prop := ∀ n ∈ numbers, n.Measured

theorem measured_of_fixed {numbers : List (Number α)} (h : Fixed numbers) : Measured numbers :=
  fun n hn => Number.measured_of_fixed (h n hn)

theorem resolve_sure {n : Number α} (hn : measured → n.Measured) (l : Level α) :
    Sure measured (l.resolve n) :=
  draw_sure (Number.resolve_sure _ hn) l

theorem groupDraws_sure (tempo : α) (world : Vec α) {group : Script.Group α}
    (hg : measured → Measured group.numbers) : (groupDraws tempo world group).Sure measured := by
  have hwindow : measured → group.window.Measured := fun hm => hg hm _ (List.mem_cons_self ..)
  have htokens : measured → ∀ t ∈ group.trajectory, ∀ n ∈ t.numbers, n.Measured := by
    intro hm t ht n hn
    refine hg hm n (List.mem_cons_of_mem _ (List.mem_append_left _ ?_))
    exact List.mem_flatMap.2 ⟨t, ht, hn⟩
  have hfactors : ∀ n ∈ group.factors, measured → n.Measured :=
    fun n hn hm => hg hm n (List.mem_cons_of_mem _ (List.mem_append_right _ hn))
  refine (Number.resolve_sure tempo hwindow).bind fun _ => ?_
  refine (Trajectory.compile_sure _ htokens).bind fun _ => ?_
  refine (Chance.sure_mapM fun n hn => Number.resolve_sure tempo (hfactors n hn)).bind fun _ => ?_
  exact Chance.sure_pure _

theorem startGroup_sure {group : Script.Group α} (hg : measured → Measured group.numbers)
    (l : Level α) (world : Vec α) (id : GroupId) (offset : α) :
    Sure measured (l.startGroup world id group offset) := by
  unfold startGroup
  split
  · exact .of_ok l
  · exact (draw_sure (groupDraws_sure l.tempo world hg) l).bind fun _ _ => .of_ok _

theorem execute_sure {i : Instruction α} (hi : measured → Measured i.numbers) (l : Level α)
    (world : Vec α) (index : ℕ) (offset : α) : Sure measured (l.execute world index offset i) := by
  have hresolve : ∀ n ∈ i.numbers, ∀ l : Level α, Sure measured (l.resolve n) :=
    fun n hn l => resolve_sure (fun hm => hi hm n hn) l
  cases i with
  | comment | goto | goal | background | renderMode | finish => exact .of_ok _
  | playMusic path volume tempo =>
    refine (hresolve volume (by simp [Instruction.numbers]) l).bind fun p _ => ?_
    exact (hresolve tempo (by simp [Instruction.numbers]) p.2).bind fun _ _ => .of_ok _
  | fadeMusic time | wait time | waitUntilClear time =>
    exact (hresolve time (by simp [Instruction.numbers]) l).bind fun _ _ => .of_ok _
  | tint red green blue =>
    refine (hresolve red (by simp [Instruction.numbers]) l).bind fun p _ => ?_
    refine (hresolve green (by simp [Instruction.numbers]) p.2).bind fun p _ => ?_
    exact (hresolve blue (by simp [Instruction.numbers]) p.2).bind fun _ _ => .of_ok _
  | text lines x y =>
    refine (hresolve x (by simp [Instruction.numbers]) l).bind fun p _ => ?_
    exact (hresolve y (by simp [Instruction.numbers]) p.2).bind fun _ _ => .of_ok _
  | spawn group => exact (startGroup_sure hi l world ⟨index, 0⟩ offset).bind fun _ _ => .of_ok _
  | spawnRepeatedly gap total group =>
    have hwindow : group.window ∈ (Instruction.spawnRepeatedly gap total group).numbers := by
      simp [Instruction.numbers, Script.Group.numbers]
    refine (hresolve gap (by simp [Instruction.numbers]) l).bind fun p _ => ?_
    refine (hresolve total (by simp [Instruction.numbers]) p.2).bind fun p _ => ?_
    exact (hresolve group.window hwindow p.2).bind fun _ _ => .of_ok _

theorem clamp_sure (x : α) {lo hi : α} (h : lo ≤ hi) : Sure measured (Scalar.clamp x lo hi) := by
  rw [Scalar.clamp, if_pos h]
  exact .of_ok _

theorem runDue_sure (hdt : 0 ≤ dt) {rest : List (Instruction α)}
    (hrest : measured → ∀ i ∈ rest, Measured i.numbers) (l : Level α) (world : Vec α) :
    Sure measured (runDue world dt rest l) := by
  induction rest generalizing l with
  | nil => exact .of_ok _
  | cons i rest ih =>
    have ih := ih fun hm j hj => hrest hm j (List.mem_cons_of_mem _ hj)
    unfold runDue
    split_ifs
    · dsimp only
      split_ifs
      · exact ih _
      · refine (clamp_sure (dt + l.wait) hdt).bind fun offset _ => ?_
        refine (execute_sure (fun hm => hrest hm i (List.mem_cons_self ..)) l.pass world l.next
          offset).bind fun first _ => ?_
        split_ifs
        · exact .of_ok _
        · exact (ih first.level).bind fun _ _ => .of_ok _
    · exact .of_ok _

theorem startDue_sure (hdt : 0 ≤ dt) {due : List (Due α)}
    (hdue : measured → ∀ d ∈ due, Measured d.group.numbers) (l : Level α) (world : Vec α) :
    Sure measured (startDue world dt due l) := by
  induction due generalizing l with
  | nil => exact .of_ok _
  | cons d due ih =>
    refine (clamp_sure (dt - d.lag) hdt).bind fun offset _ => ?_
    refine (startGroup_sure (fun hm => hdue hm d (List.mem_cons_self ..)) l world d.id offset).bind
      fun l₁ _ => ?_
    exact (ih (fun hm e he => hdue hm e (List.mem_cons_of_mem _ he)) l₁).bind fun _ _ => .of_ok _

theorem advance_sure (hdt : 0 ≤ dt) {l : Level α}
    (hdue : measured → ∀ d ∈ (Repeater.updateAll dt l.repeaters).2, Measured d.group.numbers)
    (world : Vec α) : Sure measured (l.advanceSchedulers world dt) :=
  (startDue_sure hdt hdue _ world).bind fun _ _ => .of_ok _

theorem measured_groupOf (hscript : ∀ i ∈ script, Measured i.numbers) {id : GroupId}
    {group : Script.Group α} (hgroup : groupOf script id = some group) :
    Measured group.numbers := by
  obtain ⟨i, hi, hg⟩ := Option.bind_eq_some_iff.1 hgroup
  have hmem : i ∈ script := List.mem_of_getElem? hi
  cases i with
  | spawn g =>
    obtain rfl := Option.some.inj hg
    exact hscript _ hmem
  | spawnRepeatedly gap total g =>
    obtain rfl := Option.some.inj hg
    exact fun n hn => hscript _ hmem n (by simp [Instruction.numbers, hn])
  | _ => cases hg

theorem advance_of_ledger {l : Level α} {journal : List (Entry α)} {events : List (Event α)}
    (hscript : measured → ∀ i ∈ script, Measured i.numbers) (hpos : 0 ≤ dt) (hdt : ¬ dt ≤ 0)
    (hL : Ledger script [] ⟨l, journal, events⟩) (world : Vec α) :
    Sure measured (l.advanceSchedulers world dt) :=
  advance_sure hpos
    (fun hm d hd => measured_groupOf (hscript hm) ((numbered_tick hdt hL.numbered).group_of d hd))
    world

theorem call_sure {h : Frame α} (hscript : measured → ∀ i ∈ script, Measured i.numbers)
    (hL : Ledger script [] h) (c : Call α)
    (hc : ∀ world dt, c = .update world dt → ¬ dt ≤ 0 → 0 ≤ dt) :
    Sure measured (h.level.call c) := by
  cases c with
  | release => exact .of_ok _
  | update world dt =>
    by_cases hdt : dt ≤ 0
    · rw [call, update_paused h.level world hdt]
      exact .of_ok _
    have hpos := hc world dt rfl hdt
    by_cases hheld : h.level.waitingForClear = true ∧ 0 < h.level.live
    · rw [call, update_held world hdt hheld.1 hheld.2]
      exact advance_of_ledger (l := { h.level with clock := h.level.clock + dt }) hscript hpos hdt
        (hL.of_level rfl rfl rfl rfl) world
    · rw [call, update_playing world hdt fun hw => Nat.eq_zero_of_not_pos fun hl => hheld ⟨hw, hl⟩]
      have hrest : measured → ∀ i ∈ h.level.script.drop h.level.next, Measured i.numbers := by
        rw [hL.numbered.script_eq]
        exact fun hm i hi => hscript hm i (List.mem_of_mem_drop hi)
      refine (runDue_sure hpos hrest (h.level.enter dt) world).bind fun first hfirst => ?_
      have hL' := ledger_runDue (ledger_enter hL dt) (enter_waitingForClear _ _)
        (by simpa using hfirst)
      exact (advance_of_ledger hscript hpos hdt hL' world).bind fun _ _ => .of_ok _

theorem run_sure (hscript : measured → ∀ i ∈ script, Measured i.numbers) (tempo : α) (words : Words)
    {calls : List (Call α)} (hcalls : ∀ world dt, .update world dt ∈ calls → ¬ dt ≤ 0 → 0 ≤ dt) :
    Sure measured ((start script tempo words).run calls) := by
  induction calls using List.reverseRecOn with
  | nil => exact .of_ok _
  | append_singleton earlier c ih =>
    rw [run_append]
    refine (ih fun world dt hmem => hcalls world dt (List.mem_append_left _ hmem)).bind
      fun before hbefore => ?_
    have hcall := call_sure hscript (ledger_run hbefore) c
      fun world dt hc => hcalls world dt (by simp [hc])
    exact (hcall.bind fun _ _ => .of_ok _).bind fun _ _ => .of_ok _

theorem run_fixed (hscript : ∀ i ∈ script, Fixed i.numbers) (tempo : α) (words : Words)
    {calls : List (Call α)} (hcalls : ∀ world dt, .update world dt ∈ calls → 0 ≤ dt) :
    ∃ f, (start script tempo words).run calls = .ok f := by
  have hsure : Sure True _ := run_sure (fun _ i hi => measured_of_fixed (hscript i hi)) tempo words
    fun world dt hmem _ => hcalls world dt hmem
  exact hsure.result trivial

end Barrage.Level
