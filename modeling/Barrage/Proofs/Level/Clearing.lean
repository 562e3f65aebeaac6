import Barrage.Proofs.Level.Path
import Barrage.Scalar.Single

/-! # Waiting for the enemies to be gone

A level that waits until its host has removed every enemy stands still but for its clock and its
schedulers. The line that makes it wait is the last one of its frame. -/

namespace Barrage.Level

open Script (Instruction)

variable {α : Type}

/-- Nothing that has to do with the place in the script is different, and only enemies were asked
for. -/
structure Held (l : Level α) (f : Frame α) : Prop where
  script_eq : f.level.script = l.script
  next_eq : f.level.next = l.next
  gate_eq : f.level.gate = l.gate
  wait_eq : f.level.wait = l.wait
  waiting_eq : f.level.waitingForClear = l.waitingForClear
  tempo_eq : f.level.tempo = l.tempo
  no_line : executedLines f.journal = []
  only_spawns : ∀ e ∈ f.events, ∃ r, e = .spawn r

variable {l : Level α} {f g : Frame α}

theorem Held.append (hf : Held l f) (hg : Held f.level g) :
    Held l (g.behind f.journal f.events) where
  script_eq := hg.script_eq.trans hf.script_eq
  next_eq := hg.next_eq.trans hf.next_eq
  gate_eq := hg.gate_eq.trans hf.gate_eq
  wait_eq := hg.wait_eq.trans hf.wait_eq
  waiting_eq := hg.waiting_eq.trans hf.waiting_eq
  tempo_eq := hg.tempo_eq.trans hf.tempo_eq
  no_line := by simp [hf.no_line, hg.no_line]
  only_spawns e he := by
    rcases List.mem_append.1 he with he | he
    · exact hf.only_spawns e he
    · exact hg.only_spawns e he

theorem held_refl (l : Level α) : Held l ⟨l, [], []⟩ :=
  ⟨rfl, rfl, rfl, rfl, rfl, rfl, rfl, by simp⟩

def Call.isUpdate : Call α → Bool
  | .update .. => true
  | .release => false

variable [Scalar α] {world : Vec α} {dt : α}

/-- Every update of a history finds an enemy alive. -/
def Occupied (l : Level α) : List (Call α) → Prop
  | [] => True
  | c :: rest => (c.isUpdate = true → 0 < l.live) ∧
    match l.call c with
    | .ok f => f.level.Occupied rest
    | .error _ => True

instance Occupied.decide (l : Level α) (calls : List (Call α)) : Decidable (l.Occupied calls) :=
  match calls with
  | [] => isTrue trivial
  | c :: rest =>
    match h : l.call c with
    | .ok f =>
      have := Occupied.decide f.level rest
      decidable_of_iff ((c.isUpdate = true → 0 < l.live) ∧ f.level.Occupied rest)
        (by simp [Occupied, h])
    | .error _ => decidable_of_iff (c.isUpdate = true → 0 < l.live) (by simp [Occupied, h])

/-- A call of which only the clock and the schedulers take notice. -/
def idle (l : Level α) : Call α → Except Fault (Frame α)
  | .update world dt =>
    if dt ≤ 0 then return ⟨l, [], []⟩
    else { l with clock := l.clock + dt }.advanceSchedulers world dt
  | .release => return ⟨l.release, [], []⟩

def idleAll (l : Level α) : List (Call α) → Except Fault (Frame α)
  | [] => return ⟨l, [], []⟩
  | c :: rest => do
    let first ← l.idle c
    return (← first.level.idleAll rest).behind first.journal first.events

theorem held_idle {c : Call α} (h : l.idle c = .ok f) : Held l f := by
  cases c with
  | release => cases h; exact ⟨rfl, rfl, rfl, rfl, rfl, rfl, rfl, by simp⟩
  | update world dt =>
    by_cases hdt : dt ≤ 0
    · simp only [idle, if_pos hdt] at h
      cases h
      exact held_refl l
    · simp only [idle, if_neg hdt] at h
      obtain ⟨⟨words, repeaters, spawners, live, hf⟩, hjournal, hevents⟩ := advance_frame h
      constructor
      all_goals first | exact executedLines_eq_nil hjournal | exact hevents | rw [hf]

theorem held_idleAll {calls : List (Call α)} (h : l.idleAll calls = .ok f) : Held l f := by
  induction calls generalizing l f with
  | nil => cases h; exact held_refl l
  | cons c rest ih =>
    obtain ⟨first, hfirst, h⟩ := parts_of_ok h
    obtain ⟨later, hlater, h⟩ := parts_of_ok h
    cases h
    exact (held_idle hfirst).append (ih hlater)

/-- While an enemy lives, a waiting level is idle. -/
theorem call_eq_idle (hw : l.waitingForClear = true) {c : Call α}
    (hlive : c.isUpdate = true → 0 < l.live) : l.call c = l.idle c := by
  cases c with
  | release => rfl
  | update world dt =>
    by_cases hdt : dt ≤ 0
    · simp only [call, idle, if_pos hdt]
      exact update_paused l world hdt
    · simp only [call, idle, if_neg hdt]
      exact update_held world hdt hw (hlive rfl)

theorem run_eq_idleAll {calls : List (Call α)} (hw : l.waitingForClear = true)
    (hlive : l.Occupied calls) : l.run calls = l.idleAll calls := by
  induction calls generalizing l with
  | nil => rfl
  | cons c rest ih =>
    obtain ⟨hc, hrest⟩ := hlive
    have hcall := call_eq_idle hw hc
    unfold run idleAll
    rw [hcall] at hrest ⊢
    cases hfirst : l.idle c with
    | error fault => rfl
    | ok first =>
      rw [hfirst] at hrest
      simp only [bind, Except.bind]
      rw [ih ((held_idle hfirst).waiting_eq.trans hw) hrest]

/-! ## The frame that begins to wait -/

def StopsAtWait (script : List (Instruction α)) (h : Frame α) : Prop :=
  h.level.script = script ∧
    ∀ i offset modulus, .executed i offset ∈ h.journal →
      script[i]? = some (.waitUntilClear modulus) →
      h.level.waitingForClear = true ∧ h.level.next = i + 1 ∧
        (executedLines h.journal).getLast? = some i

theorem Outcome.waits {index : ℕ} {offset : α} {modulus : Number α}
    (hout : Outcome l world index offset (.waitUntilClear modulus) f) :
    f.level.waitingForClear = true ∧ f.journal = [] := by
  cases hout with
  | told _ _ htells => cases htells
  | waitUntilClear => exact ⟨rfl, rfl⟩

theorem stopsAtWait_runDue (hclear : l.waitingForClear = false)
    (hrun : runDue world dt (l.script.drop l.next) l = .ok f) : StopsAtWait l.script f := by
  have hstart : StopsAtWait l.script ⟨l, [], []⟩ := ⟨rfl, by simp⟩
  have hrest : l.script.drop l.next <+: l.script.drop l.next := List.prefix_refl _
  refine (runDue_induction (P := StopsAtWait l.script) (h := ⟨l, [], []⟩) ?_ ?_ hrest hclear
    hstart hrun).1
  · intro h hP hclear _ _ _
    refine ⟨hP.1, fun i offset modulus hi hscript => ?_⟩
    have hwaits := (hP.2 i offset modulus hi hscript).1
    rw [hclear] at hwaits
    cases hwaits
  · intro h i offset first hP hclear _ _ hget _ hout
    refine ⟨hout.script_eq.trans hP.1, fun j o modulus hj hscript => ?_⟩
    rw [hP.1] at hget
    -- no line that waits has run before, for the level was not waiting
    have hj : j = h.level.next := by
      rcases List.mem_append.1 hj with hj | hj
      · rcases List.mem_append.1 hj with hj | hj
        · have hwaits := (hP.2 j o modulus hj hscript).1
          rw [hclear] at hwaits
          cases hwaits
        · simp only [List.mem_singleton, Entry.executed.injEq] at hj
          exact hj.1
      · have hline : j ∈ executedLines first.journal := List.mem_filterMap.2 ⟨_, hj, rfl⟩
        rw [hout.no_line] at hline
        cases hline
    subst hj
    rw [hget] at hscript
    obtain rfl := Option.some.inj hscript
    obtain ⟨hwaits, hjournal⟩ := hout.waits
    refine ⟨hwaits, hout.next_eq, ?_⟩
    simp [hjournal, executedLines, Entry.executed?]

theorem stopsAtWait_update (hrun : l.update world dt = .ok f) : StopsAtWait l.script f := by
  rcases update_cases hrun with ⟨-, rfl⟩ | ⟨-, -, -, hadv⟩ | ⟨-, -, first, last, hdue, hadv, rfl⟩
  · exact ⟨rfl, by simp⟩
  · obtain ⟨⟨words, repeaters, spawners, live, hf⟩, hjournal, -⟩ := advance_frame hadv
    refine ⟨by rw [hf], fun i offset modulus hi _ => ?_⟩
    cases hjournal _ hi
  · obtain ⟨hscript, hstops⟩ := stopsAtWait_runDue (enter_waitingForClear l dt)
      (by simpa using hdue)
    obtain ⟨⟨words, repeaters, spawners, live, hlast⟩, hjournal, -⟩ := advance_frame hadv
    refine ⟨by simpa [hlast] using hscript, fun i offset modulus hi hget => ?_⟩
    rcases List.mem_append.1 hi with hi | hi
    · obtain ⟨hwaits, hnext, hlines⟩ := hstops i offset modulus hi (by simpa using hget)
      refine ⟨by simpa [hlast] using hwaits, by simpa [hlast] using hnext, ?_⟩
      simpa [executedLines_eq_nil hjournal] using hlines
    · cases hjournal _ hi

/-! ## Enemies that go during a frame -/

theorem startGroup_live (l : Level α) (n : ℕ) (world : Vec α) (id : GroupId)
    (group : Script.Group α) (offset : α) : { l with live := n }.startGroup world id group offset =
      (l.startGroup world id group offset).map fun l' => { l' with live := n } := by
  unfold startGroup draw
  split
  · rfl
  · simp only [bind, Except.bind, StateT.run]
    cases groupDraws l.tempo world group l.words <;> rfl

theorem startDue_live (l : Level α) (n : ℕ) (world : Vec α) (dt : α) (due : List (Due α)) :
    startDue world dt due { l with live := n } =
      (startDue world dt due l).map fun p => ({ p.1 with live := n }, p.2) := by
  induction due generalizing l with
  | nil => rfl
  | cons d due ih =>
    simp only [startDue, startGroup_live]
    cases Scalar.clamp (dt - d.lag) 0 dt with
    | error fault => rfl
    | ok offset =>
      simp only [bind, Except.bind]
      cases l.startGroup world d.id d.group offset with
      | error fault => rfl
      | ok l₁ =>
        simp only [Except.map, ih]
        cases startDue world dt due l₁ <;> rfl

/-- Schedulers do not ask who lives: an enemy that its host drops while they advance might as well
be dropped when they have. So a history need say only between its updates which enemies have
gone. -/
theorem advance_release (world : Vec α) (dt : α) (hlive : 0 < l.live) :
    l.release.advanceSchedulers world dt =
      (l.advanceSchedulers world dt).map fun f => { f with level := f.level.release } := by
  have hstart := startDue_live { l with repeaters := (Repeater.updateAll dt l.repeaters).1 }
    (l.live - 1) world dt (Repeater.updateAll dt l.repeaters).2
  unfold advanceSchedulers release
  simp only [bind, Except.bind] at hstart ⊢
  rw [hstart]
  cases h : startDue world dt (Repeater.updateAll dt l.repeaters).2
      { l with repeaters := (Repeater.updateAll dt l.repeaters).1 } with
  | error fault => rfl
  | ok p =>
    obtain ⟨⟨words, spawners, hp⟩, -⟩ := startDue_frame h
    simp only [Except.map, hp, pure, Except.pure]
    congr 3
    omega

/-! ## The main statement -/

/-- A waiting level that finds an enemy alive at every update runs no line and keeps its place, its
wait, its flag and its tempo, whatever the frames and whichever enemies go meanwhile; clock and
schedulers move on, and its host is asked for enemies only. No frame runs a line behind the one that
begins to wait. -/
theorem waiting_level_keeps_its_place :
    (∀ (l : Level α) (calls : List (Call α)), l.waitingForClear = true → l.Occupied calls →
      l.run calls = l.idleAll calls ∧ ∀ f, l.run calls = .ok f → Held l f) ∧
    (∀ (l : Level α) (world : Vec α) (dt : α), 0 < l.live →
      l.release.advanceSchedulers world dt =
        (l.advanceSchedulers world dt).map fun f => { f with level := f.level.release }) ∧
    (∀ (l : Level α) (world : Vec α) (dt : α) (f : Frame α) (i : ℕ) (offset : α)
      (modulus : Number α), l.update world dt = .ok f → .executed i offset ∈ f.journal →
      l.script[i]? = some (.waitUntilClear modulus) →
      f.level.waitingForClear = true ∧ f.level.next = i + 1 ∧
        (executedLines f.journal).getLast? = some i) := by
  refine ⟨?_, ?_, ?_⟩
  · intro l calls hw hlive
    have hrun := run_eq_idleAll hw hlive
    exact ⟨hrun, fun f hf => held_idleAll (hrun ▸ hf)⟩
  · intro l world dt hlive
    exact advance_release world dt hlive
  · intro l world dt f i offset modulus hrun hi hget
    exact (stopsAtWait_update hrun).2 i offset modulus hi hget

def sentry : Script.Group Float32 :=
  { window := .literal 1, members := [⟨'A', .packed ⟨0⟩⟩, ⟨'A', .packed ⟨0⟩⟩],
    reward := ⟨'P', .never⟩, side := .top, factors := [], trajectory := [] }

/-- A level that waits while one group is on its way and others are to follow. -/
def lastStand : Level Float32 :=
  start [.spawnRepeatedly (.literal 1) (.literal 5) sentry, .spawn sentry,
    .waitUntilClear (.literal 5), .finish] 120 (Words.cycle #[])

def standCalls : List (Call Float32) :=
  [.update ⟨320, 180⟩ 0.5, .release, .update ⟨320, 180⟩ 2]

theorem schedulers_go_on_in_last_stand :
    ∃ before f, lastStand.update ⟨320, 180⟩ 0.25 = .ok before ∧
      before.level.waitingForClear = true ∧ before.level.next = 3 ∧
      (∃ g, before.level.advanceSchedulers ⟨320, 180⟩ 1 = .ok g ∧
        before.level.release.advanceSchedulers ⟨320, 180⟩ 1 =
          .ok { g with level := g.level.release }) ∧
      before.level.run standCalls = .ok f ∧ Held before.level f ∧
      before.level.repeaters.map (fun r => r.scheduler.count) = [1] ∧
      f.level.repeaters.map (fun r => r.scheduler.count) = [2] ∧ f.events.length = 4 := by
  have hbegins : (lastStand.update ⟨320, 180⟩ 0.25).map (fun b =>
      (b.journal.map Entry.executed?, decide (b.level.Occupied standCalls), b.level.live,
        b.level.repeaters.map fun r => r.scheduler.count)) =
      .ok ([some 0, some 1, none, some 2, none], true, 2, [1]) := by
    decide +kernel
  have hgoes : (lastStand.update ⟨320, 180⟩ 0.25).map (fun b =>
      ((b.level.advanceSchedulers ⟨320, 180⟩ 1).map fun g => g.events.length,
        (b.level.run standCalls).map fun f =>
          (f.level.repeaters.map (fun r => r.scheduler.count), f.events.length))) =
      .ok (.ok 2, .ok ([2], 4)) := by
    decide +kernel
  obtain ⟨before, hbefore, hview⟩ := ok_of_map hbegins
  simp only [Prod.mk.injEq, decide_eq_true_eq] at hview
  obtain ⟨hlines, hoccupied, hlive, hfirst⟩ := hview
  rw [hbefore] at hgoes
  obtain ⟨hadvances, hruns⟩ := Prod.mk.inj (Except.ok.inj hgoes)
  obtain ⟨g, hadvance, -⟩ := ok_of_map hadvances
  obtain ⟨f, hrun, hseen⟩ := ok_of_map hruns
  obtain ⟨hsecond, hspawned⟩ := Prod.mk.inj hseen
  obtain ⟨hheld, hrelease, hstops⟩ := waiting_level_keeps_its_place (α := Float32)
  obtain ⟨e, he, hline⟩ : ∃ e ∈ before.journal, e.executed? = some 2 := by
    rw [← List.mem_map, hlines]
    decide
  cases e with
  | started => cases hline
  | executed i offset =>
    obtain rfl : i = 2 := Option.some.inj hline
    obtain ⟨hwaits, hnext, -⟩ := hstops _ _ _ _ _ offset (.literal 5) hbefore he rfl
    refine ⟨before, f, hbefore, hwaits, hnext, ⟨g, hadvance, ?_⟩, hrun, ?_, hfirst,
      hsecond, hspawned⟩
    · rw [hrelease _ _ _ (hlive ▸ by decide), hadvance]
      rfl
    · exact (hheld _ _ hwaits hoccupied).2 f hrun

end Barrage.Level
