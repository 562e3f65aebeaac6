import Barrage.Proofs.Level.Members
import Barrage.Proofs.Level.Progress

/-! # Enemies come on time

However time is cut into frames, what the timetable of a script has due by the end of a frame has
come by then, and nothing has come before its time by more than the tolerances of the firings behind
it. -/

namespace Barrage.Level

open Script (Instruction)
open Scheduler (OnTime Planned slack)

/-- No scheduler is due. See `settled_advance_iff`. -/
def Settled {α : Type} [Scalar α] (l : Level α) : Prop :=
  (∀ r ∈ l.repeaters, r.scheduler.isDue = false) ∧ ∀ s ∈ l.spawners, s.scheduler.isDue = false

instance {α : Type} [Scalar α] (l : Level α) : Decidable l.Settled :=
  inferInstanceAs (Decidable (_ ∧ _))

def Uncut {α : Type} [Scalar α] (l : Level α) (calls : List (Call α)) : Prop :=
  ∀ earlier, earlier <+: calls → ∀ f, l.run earlier = .ok f → f.level.Settled

instance {α : Type} [Scalar α] (l : Level α) (calls : List (Call α)) : Decidable (l.Uncut calls) :=
  decidable_of_iff (∀ earlier ∈ calls.inits, ∀ f ∈ (l.run earlier).toOption, f.level.Settled) (by
    unfold Uncut
    simp only [List.mem_inits]
    refine forall₂_congr fun earlier _ => ?_
    cases l.run earlier <;> simp [Except.toOption])

/-- An update comes to its end: with one firing more than it allows, the scheduler would be the
same. -/
def Ends {α β : Type} [Scalar α] (s : Scheduler α) (r : Rhythm α (Array β)) (dt : α) : Prop :=
  Scheduler.fireDue r (Scheduler.maxFirings + 1) (s.await dt) #[] = s.update r #[] dt

section

variable {α β : Type} [Scalar α] {l l₁ : Level α} {f : Frame α} {world : Vec α} {dt : α}

theorem ends_iff {s : Scheduler α} {r : Rhythm α (Array β)} (hdt : ¬ dt ≤ 0)
    (hrun : s.running = true) :
    Ends s r dt ↔ ((s.update r #[] dt).1.running = true → (s.update r #[] dt).1.isDue = false) := by
  have hawait : (s.await dt).running = true := hrun
  rw [Ends, Scheduler.update_eq r #[] hdt hrun, Scheduler.fireDue_succ_eq_iff _ hawait]

/-- The schedulers of a level come out of an update settled exactly if none of them has had to break
off at the limit of its firings. -/
theorem settled_advance_iff {journal : List (Entry α)} (hdt : ¬ dt ≤ 0)
    (hstart : startDue world dt (Repeater.updateAll dt l.repeaters).2
      { l with repeaters := (Repeater.updateAll dt l.repeaters).1 } = .ok (l₁, journal))
    (hadv : l.advanceSchedulers world dt = .ok f)
    (hrepeaters : ∀ r ∈ l.repeaters, r.scheduler.running = true)
    (hspawners : ∀ s ∈ l₁.spawners, s.scheduler.running = true) :
    f.level.Settled ↔ (∀ r ∈ l.repeaters, Ends r.scheduler r.rhythm dt) ∧
      ∀ s ∈ l₁.spawners, Ends s.scheduler s.rhythm dt := by
  obtain ⟨l', journal', hstart', rfl⟩ := advance_cases hadv
  rw [hstart] at hstart'
  obtain ⟨rfl, rfl⟩ := Prod.mk.inj (Except.ok.inj hstart')
  obtain ⟨⟨words, spawners, hl₁⟩, -⟩ := startDue_frame hstart
  have hsame : l₁.repeaters = (Repeater.updateAll dt l.repeaters).1 := by rw [hl₁]
  unfold Settled
  rw [hsame]
  refine and_congr ⟨fun h r hr => ?_, fun h r hr => ?_⟩ ⟨fun h s hs => ?_, fun h s hs => ?_⟩
  · rw [ends_iff hdt (hrepeaters r hr)]
    exact fun hgoes => h _ (Repeater.mem_updateAll.2 ⟨⟨r, hr, rfl⟩, hgoes⟩)
  · obtain ⟨⟨r₀, hr₀, rfl⟩, hgoes⟩ := Repeater.mem_updateAll.1 hr
    exact (ends_iff hdt (hrepeaters r₀ hr₀)).1 (h r₀ hr₀) hgoes
  · rw [ends_iff hdt (hspawners s hs)]
    exact fun hgoes => h _ (Spawner.mem_updateAll.2 ⟨⟨s, hs, rfl⟩, hgoes⟩)
  · obtain ⟨⟨s₀, hs₀, rfl⟩, hgoes⟩ := Spawner.mem_updateAll.1 hs
    exact (ends_iff hdt (hspawners s₀ hs₀)).1 (h s₀ hs₀) hgoes

end

def Call.time : Call Exact → ℚ
  | .update _ dt => dt.value
  | .release => 0

def elapsed (calls : List (Call Exact)) : ℚ := (calls.map Call.time).sum

structure InTime (script : List (Instruction Exact)) (tempo T now : ℚ)
    (h : Frame Exact) : Prop where
  on_path : OnPath script h
  ledger : Ledger script [] h
  pace : Pace script tempo T now h
  opened : Opened script tempo T (executedLines h.journal) (startedGroups h.journal)
    h.level.repeaters
  kept : Kept script tempo T h.level.spawners
  not_early : NotEarly script tempo T h

variable {script : List (Instruction Exact)} {tempo T now q : ℚ} {h f : Frame Exact}
  {l : Level Exact} {world : Vec Exact}

theorem inTime_start (script : List (Instruction Exact)) (tempo : ℚ) (words : Words) :
    InTime script tempo 0 0 ⟨start script (.finite tempo) words, [], []⟩ := by
  refine ⟨onPath_start _ _ _, ledger_start _ _ _, pace_start _ _ _, opened_start _ _, ?_, ?_⟩
  · intro s hs
    cases hs
  · intro x hx
    cases hx

/-! ## Lines -/

theorem inTime_enter (hI : InTime script tempo T now h) (q : ℚ) :
    InTime script tempo T (now + q) ⟨h.level.enter (.finite q), h.journal, h.events⟩ := by
  refine ⟨onPath_enter hI.on_path _, ledger_enter hI.ledger _, pace_enter hI.pace q, ?_, ?_,
    hI.not_early⟩
  · rw [enter_repeaters]
    exact hI.opened
  · rw [enter_spawners]
    exact hI.kept

theorem inTime_skip (hI : InTime script tempo T now h) (hgate : h.level.next < h.level.gate) :
    InTime script tempo T now ⟨h.level.pass, h.journal, h.events⟩ :=
  ⟨onPath_skip hI.on_path hgate, ledger_skip hI.ledger, pace_skip hI.pace, hI.opened, hI.kept,
    hI.not_early⟩

theorem group?_of_tells {i : Instruction Exact} (hi : i.tells = true) : i.group? = none := by
  cases i with
  | spawn | spawnRepeatedly => cases hi
  | _ => rfl

theorem opened_kept_execute {i : Instruction Exact} {offset : Exact} (hR : Regular script tempo)
    (hI : InTime script tempo T (T + q) h) (hwait : h.level.wait ≤ 0)
    (hgate : h.level.gate ≤ h.level.next) (hget : h.level.script[h.level.next]? = some i)
    (hoffset : Scalar.clamp (.finite q + h.level.wait) 0 (.finite q) = .ok offset)
    (hout : Outcome h.level.pass world h.level.next offset i f) :
    Opened script tempo T (executedLines h.journal ++ [h.level.next])
      (startedGroups h.journal ++ startedGroups f.journal) f.level.repeaters ∧
    Kept script tempo T f.level.spawners := by
  have hnext := hI.on_path.next_eq hgate
  rw [hI.on_path.script_eq] at hget
  have hmem : i ∈ script := List.mem_of_getElem? hget
  have hlt : h.level.next < script.length := (List.getElem?_eq_some_iff.1 hget).1
  have hahead := hI.pace.ahead hlt
  have hoffset' := hI.pace.offset_eq hlt hwait hoffset
  have htempo : h.level.pass.tempo = .finite tempo := hI.pace.tempo_eq
  have keep (hgroup : i.group? = none) (hjournal : f.journal = [])
      (hrepeaters : f.level.repeaters = h.level.repeaters)
      (hspawners : f.level.spawners = h.level.spawners) :
      Opened script tempo T (executedLines h.journal ++ [h.level.next])
        (startedGroups h.journal ++ startedGroups f.journal) f.level.repeaters ∧
      Kept script tempo T f.level.spawners := by
    rw [hjournal, hrepeaters, hspawners, startedGroups_nil, List.append_nil, hnext]
    exact ⟨opened_other hI.opened (hnext ▸ hget) hgroup, hI.kept⟩
  subst hoffset'
  rw [hnext] at hget
  -- only two kinds of lines have a part in what is to come
  cases hout with
  | told _ _ htells => exact keep (group?_of_tells htells) rfl rfl rfl
  | goto | wait | waitUntilClear => exact keep rfl rfl rfl rfl
  | @spawn group l' hstart =>
    have hstarts : Start script tempo ⟨h.level.next, 0⟩ group
        (due script tempo (executedLines h.journal).length) := by
      rw [hnext]
      exact .spawn hget
    have hearly : due script tempo (executedLines h.journal).length ≤
        due script tempo (executedLines h.journal).length +
          tries script ⟨h.level.next, 0⟩ * slack :=
      le_add_of_nonneg_right (mul_nonneg (Nat.cast_nonneg _) Scheduler.slack_pos.le)
    have hK := kept_startGroup (l := h.level.pass) hR htempo hI.kept hstarts hearly
      (le_refl _) hstart
    obtain ⟨words, opened, rfl, -⟩ := startGroup_ok hstart
    refine ⟨?_, hK⟩
    rw [hnext]
    exact opened_spawn hI.opened hget
  | @spawnRepeatedly gap total group _ _ _ _ _ _ hgap htotal hwindow =>
    have hrational := hR.rational _ hmem
    rw [htempo] at hgap htotal hwindow
    obtain rfl := Number.eq_worth (hrational _ (by simp [Instruction.numbers])) hgap
    obtain rfl := Number.eq_worth (hrational _ (by simp [Instruction.numbers])) htotal
    obtain rfl := Number.eq_worth (hrational _ (window_mem_numbers rfl)) hwindow
    refine ⟨?_, hI.kept⟩
    rw [hnext, startedGroups_nil, List.append_nil]
    exact opened_repeat hI.opened rfl hget rfl rfl rfl hahead

theorem inTime_execute {i : Instruction Exact} {offset : Exact} (hR : Regular script tempo)
    (hI : InTime script tempo T (T + q) h) (hwait : h.level.wait ≤ 0)
    (hgate : h.level.gate ≤ h.level.next) (hget : h.level.script[h.level.next]? = some i)
    (hoffset : Scalar.clamp (.finite q + h.level.wait) 0 (.finite q) = .ok offset)
    (hout : Outcome h.level.pass world h.level.next offset i f) :
    InTime script tempo T (T + q)
      (f.behind (h.journal ++ [.executed h.level.next offset]) h.events) := by
  obtain ⟨hopened, hkept⟩ := opened_kept_execute hR hI hwait hgate hget hoffset hout
  refine ⟨onPath_execute hI.on_path hgate hget hout, ledger_execute hI.ledger hget hout,
    pace_execute hR hI.on_path hI.pace hgate hget hout, ?_, hkept, ?_⟩
  · rw [executedLines_execute hout]
    simpa using hopened
  · refine hI.not_early.mono (le_refl _) ?_ (List.prefix_append _ _) ?_
    · rw [behind_journal, List.append_assoc]
      exact List.prefix_append _ _
    · intro x hx hnew
      rcases List.mem_append.1 hx with hx | hx
      · exact absurd hx hnew
      · cases hout.no_request _ hx

theorem inTime_runDue (hR : Regular script tempo)
    (hI : InTime script tempo T (T + q) ⟨l, h.journal, h.events⟩)
    (hrun : runDue world (.finite q) (l.script.drop l.next) l = .ok f) :
    InTime script tempo T (T + q) (f.behind h.journal h.events) ∧ f.level.Rests := by
  have hinduction := runDue_induction (P := InTime script tempo T (T + q))
    (h := ⟨l, h.journal, h.events⟩) ?_ ?_ (List.prefix_refl _) hI.pace.clear hI hrun
  · exact ⟨hinduction.1, hinduction.2 rfl⟩
  · intro g hg _ _ hgate _
    exact inTime_skip hg hgate
  · intro g i offset first hg _ hwait hgate hget hoffset hout
    exact inTime_execute hR hg hwait hgate hget hoffset hout

/-! ## Schedulers -/

theorem inTime_advance (hR : Regular script tempo) (hq : 0 < q)
    (hI : InTime script tempo T (T + q) ⟨l, h.journal, h.events⟩) (hrests : l.Rests)
    (hadv : l.advanceSchedulers world (.finite q) = .ok f) (hsettled : f.level.Settled) :
    InTime script tempo (T + q) (T + q) (f.behind h.journal h.events) := by
  have hdt : ¬ (Exact.finite q) ≤ 0 := by simpa using hq
  have hpath := onPath_advance hI.on_path hadv
  have hledger := ledger_advance hdt hI.ledger hadv
  have hpace := pace_advance hI.pace hI.on_path.script_eq hrests hadv
  obtain ⟨-, hjournal, -⟩ := advance_frame hadv
  obtain ⟨l₁, journal, hstart, rfl⟩ := advance_cases hadv
  have hrunning := hI.ledger.numbered.repeater_running
  have hgroups := ledger_groups hdt hI.ledger hstart
  obtain ⟨⟨words, spawners, hl₁⟩, -⟩ := startDue_frame hstart
  have hrepeaters : l₁.repeaters = (Repeater.updateAll (.finite q) l.repeaters).1 := by rw [hl₁]
  -- repeaters come to the end of the frame while spawners, old and new, still stand at its
  -- beginning
  have hopened : Opened script tempo (T + q) (executedLines h.journal)
      (startedGroups h.journal ++ startedGroups journal) l₁.repeaters := by
    rw [startedGroups_startDue hstart, hrepeaters]
    refine opened_tick hq hI.opened hrunning ?_
    rw [← hrepeaters]
    exact hsettled.1
  have hkept : Kept script tempo T l₁.spawners :=
    kept_startDue (l := { l with repeaters := (Repeater.updateAll (.finite q) l.repeaters).1 }) hR
      hI.pace.tempo_eq (due_tick hq hI.opened hrunning) hI.kept hstart
  have hclosed := hopened.closed
  refine ⟨hpath, hledger, hpace, ?_, ?_, ?_⟩
  · simpa [executedLines_eq_nil hjournal] using hopened
  · exact kept_tick hq hgroups.dealt hkept
  · refine hI.not_early.mono (by linarith) (List.prefix_append _ _) (List.prefix_append _ _) ?_
    intro x hx hnew
    rcases List.mem_append.1 hx with hx | hx
    · exact absurd hx hnew
    · obtain ⟨x', hx', heq⟩ := List.mem_map.1 hx
      cases heq
      exact early_tick hq hgroups.dealt hkept (by simpa using hclosed) hx'

/-! ## Runs -/

structure Punctual (script : List (Instruction Exact)) (tempo T : ℚ) (h : Frame Exact) : Prop where
  in_time : InTime script tempo T T h
  rests : 0 < T → h.level.Rests
  settled : h.level.Settled

theorem punctual_start (script : List (Instruction Exact)) (tempo : ℚ) (words : Words) :
    Punctual script tempo 0 ⟨start script (.finite tempo) words, [], []⟩ := by
  refine ⟨inTime_start _ _ _, fun h0 => absurd h0 (lt_irrefl _), ?_⟩
  constructor
  · intro r hr
    cases hr
  · intro s hs
    cases hs

theorem punctual_release (hP : Punctual script tempo T h) :
    Punctual script tempo T ⟨h.level.release, h.journal, h.events⟩ := by
  have hI := hP.in_time
  refine ⟨⟨?_, ?_, ?_, hI.opened, hI.kept, hI.not_early⟩, hP.rests, hP.settled⟩
  · exact hI.on_path.of_eq rfl rfl rfl rfl
  · exact hI.ledger.of_level rfl rfl rfl rfl
  · exact ⟨hI.pace.tempo_eq, hI.pace.clear, hI.pace.wait_eq, hI.pace.ahead⟩

theorem punctual_update (hR : Regular script tempo) (hq : 0 < q) (hP : Punctual script tempo T h)
    (hcall : h.level.update world (.finite q) = .ok f) (hsettled : f.level.Settled) :
    Punctual script tempo (T + q) (f.behind h.journal h.events) := by
  have hI := hP.in_time
  have hclear := hI.pace.clear
  rcases update_cases hcall with ⟨hdt, -⟩ | ⟨-, hwaits, -⟩ | ⟨-, -, first, last, hdue, hadv, rfl⟩
  · have hle : q ≤ 0 := by simpa using hdt
    exact absurd hq (not_lt.2 hle)
  · rw [hclear] at hwaits
    cases hwaits
  · obtain ⟨hfirst, hrests⟩ := inTime_runDue hR (inTime_enter hI q) (by simpa using hdue)
    have hlast := inTime_advance (h := first.behind h.journal h.events) hR hq hfirst hrests
      hadv hsettled
    obtain ⟨⟨words, repeaters, spawners, live, hlevel⟩, -⟩ := advance_frame hadv
    refine ⟨by simpa [behind_behind] using hlast, fun _ => ?_, hsettled⟩
    rw [behind_level, behind_level, hlevel]
    exact hrests

theorem elapsed_append (earlier later : List (Call Exact)) :
    elapsed (earlier ++ later) = elapsed earlier + elapsed later := by
  simp [elapsed]

theorem elapsed_nil : elapsed [] = 0 := rfl

theorem elapsed_release : elapsed [.release] = 0 := by
  simp [elapsed, Call.time]

theorem elapsed_update (world : Vec Exact) (q : ℚ) : elapsed [.update world (.finite q)] = q := by
  simp [elapsed, Call.time, Exact.value]

theorem punctual_run {words : Words} {calls : List (Call Exact)} (hR : Regular script tempo)
    (hcalls : ∀ world dt, .update world dt ∈ calls → ∃ q, 0 < q ∧ dt = .finite q)
    (huncut : (start script (.finite tempo) words).Uncut calls)
    (hrun : (start script (.finite tempo) words).run calls = .ok f) :
    Punctual script tempo (elapsed calls) f := by
  induction calls using List.reverseRecOn generalizing f with
  | nil =>
    cases hrun
    exact punctual_start script tempo words
  | append_singleton earlier c ih =>
    have hsettled := huncut _ (List.prefix_refl _) f hrun
    obtain ⟨before, last, hbefore, hlast, rfl⟩ := run_snoc hrun
    have hP := ih (fun world dt hmem => hcalls world dt (List.mem_append_left _ hmem))
      (fun e he => huncut e (he.trans (List.prefix_append _ _))) hbefore
    rw [elapsed_append]
    cases c with
    | release =>
      cases hlast
      rw [elapsed_release, add_zero]
      simpa [Frame.behind] using punctual_release hP
    | update world dt =>
      obtain ⟨q, hq, rfl⟩ := hcalls world dt (by simp)
      rw [elapsed_update]
      exact punctual_update hR hq hP hlast hsettled

/-! ## What has come -/

theorem Punctual.started {id : GroupId} {group : Script.Group Exact} {t : ℚ}
    (hR : Regular script tempo) (hP : Punctual script tempo T h) (hT : 0 < T)
    (hstart : Start script tempo id group t) (hle : t ≤ T) :
    id ∈ startedGroups h.journal := by
  have hI := hP.in_time
  obtain ⟨k, hline⟩ := start_line hstart
  by_cases hran : id.line ∈ executedLines h.journal
  · rcases hI.opened.covered id group t hstart hran with hid | ⟨r, hr, hrline, hround⟩
    · exact hid
    exfalso
    obtain ⟨k', gap, total, hK⟩ := hI.opened.keeps r hr
    have hlt := hK.on_time.lt_of_not_due (hP.settled.1 r hr)
    obtain ⟨hrecurs, rfl⟩ := hK.round hstart hrline
    have hlate := recurs_le hround hrecurs
    linarith
  · exfalso
    -- the next line of the path is not due yet, and the group's line comes no earlier
    have hk : (executedLines h.journal).length ≤ k := by
      by_contra hlt
      rw [hI.on_path.lines_eq] at hran
      exact hran (List.mem_map.2 ⟨k, List.mem_range.2 (not_le.1 hlt), hline.symm⟩)
    have hnext : h.level.next < script.length := by
      have hpath := (path_strictMono script).monotone hk
      rw [← hI.on_path.ahead] at hpath
      have hinside := start_inside hstart
      rw [hline] at hinside
      omega
    have hahead := hI.pace.lt_of_rests (hP.rests hT) hI.on_path.script_eq hnext
    have hmono := hR.due_mono hk
    have hlate := due_le_start hstart hline
    linarith

theorem groupOf_start {id : GroupId} {group : Script.Group Exact} {t : ℚ}
    (hstart : Start script tempo id group t) : groupOf script id = some group := by
  cases hstart with
  | spawn hget => simp [groupOf, hget, Instruction.group?]
  | spawnRepeatedly hget => simp [groupOf, hget, Instruction.group?]

theorem Punctual.delivered {id : GroupId} {member : ℕ} {t : ℚ} (hR : Regular script tempo)
    (hP : Punctual script tempo T h) (hT : 0 < T) (hnominal : Nominal script tempo id member t)
    (hle : t ≤ T) : ∃ x ∈ deliveries id h.events, x.member = member := by
  obtain ⟨group, start, hstart, hmember, rfl⟩ := hnominal
  have hspacing : 0 ≤ spacing tempo group := div_nonneg (hR.window hstart).2 (Nat.cast_nonneg _)
  have hshift : 0 ≤ member * spacing tempo group := mul_nonneg (Nat.cast_nonneg _) hspacing
  have hid := hP.started hR hT hstart (by linarith)
  have hD := hP.in_time.ledger.dealt
  have hcards : ∃ n, member < n ∧ cards id h.events = (roster group.members).take n := by
    obtain ⟨group', hgroup', hcases⟩ := hD.dealt_cases hid
    obtain rfl := Option.some.inj ((groupOf_start hstart).symm.trans hgroup')
    rcases hcases with ⟨s, hs, rfl, -, hcards⟩ | ⟨-, hcards⟩
    · obtain ⟨group', start', hK⟩ := hP.in_time.kept s hs
      obtain ⟨rfl, rfl⟩ := start_unique hstart hK.starts
      have hlt := hK.on_time.lt_of_not_due (hP.settled.2 s hs)
      refine ⟨s.scheduler.count, ?_, hcards⟩
      by_contra hge
      have hcast : (s.scheduler.count : ℚ) ≤ member := by exact_mod_cast not_lt.1 hge
      have hmul := mul_le_mul_of_nonneg_right hcast hspacing
      linarith
    · exact ⟨group.members.length, hmember, by rw [hcards, ← length_roster, List.take_length]⟩
  obtain ⟨n, hn, hcards⟩ := hcards
  have hcard := card_mem_take hn hmember
  rw [← hcards] at hcard
  obtain ⟨x, hx, heq⟩ := List.mem_map.1 hcard
  exact ⟨x, hx, congrArg Card.member heq⟩

/-! ## The main statement -/

/-- However time is cut into frames, a script without chance, without music and without waiting for
its enemies plays without a fault. As long as no update has to break off, every member whose time
has come by the end of a frame has been asked for, and none before its time by more than one
tolerance for each firing that its spawner, and the repeater of its line, have made. -/
theorem enemies_come_on_time (script : List (Instruction Exact)) (tempo : ℚ) (words : Words)
    (calls : List (Call Exact)) (hregular : Regular script tempo)
    (hcalls : ∀ world dt, .update world dt ∈ calls → ∃ q, 0 < q ∧ dt = .finite q)
    (huncut : (start script (.finite tempo) words).Uncut calls) :
    ∃ f, (start script (.finite tempo) words).run calls = .ok f ∧
      (0 < elapsed calls → ∀ id member t, Nominal script tempo id member t → t ≤ elapsed calls →
        ∃ x ∈ deliveries id f.events, x.member = member) ∧
      ∀ x, .spawn x ∈ f.events → ∃ t, Nominal script tempo x.group x.member t ∧
        t ≤ elapsed calls + firings script x.group f * slack := by
  have hfixed : ∀ i ∈ script, Fixed i.numbers :=
    fun i hi n hn => Number.isRandom_of_isRational (hregular.rational i hi n hn)
  have hpos : ∀ world dt, .update world dt ∈ calls → (0 : Exact) ≤ dt := by
    intro world dt hmem
    obtain ⟨q, hq, rfl⟩ := hcalls world dt hmem
    simpa using hq.le
  obtain ⟨f, hrun⟩ := run_fixed hfixed (.finite tempo) words hpos
  have hP := punctual_run hregular hcalls huncut hrun
  refine ⟨f, hrun, ?_, hP.in_time.not_early⟩
  intro hT id member t hnominal hle
  exact hP.delivered hregular hT hnominal hle

def pulse : Script.Group Exact :=
  { window := .literal 1, members := [⟨'A', .packed ⟨0⟩⟩, ⟨'C', .packed ⟨7⟩⟩],
    reward := ⟨'P', .never⟩, side := .top, factors := [], trajectory := [] }

def pulsingScript : List (Instruction Exact) :=
  [.wait (.literal (.finite (1 / 2))), .spawnRepeatedly (.literal 1) (.literal 5) pulse]

theorem pulsingScript_regular : Regular pulsingScript 120 := by
  constructor
  · simp [pulsingScript, pulse, Instruction.numbers, Script.Group.numbers, Number.isRational,
      Exact.isFinite]
  · simp [pulsingScript, Instruction.isMusic]
  · simp [pulsingScript]
  · simp [pulsingScript, Number.worth, Exact.value]
  · simp [pulsingScript, pulse, Instruction.group?, Number.worth, Exact.value]

/-- In the second of these frames, the repeater starts two groups and their spawners spawn both
members. -/
def pulsingCalls : List (Call Exact) :=
  [.update ⟨320, 180⟩ (.finite (3 / 4)), .update ⟨320, 180⟩ (.finite 5)]

theorem two_rounds_come_within_a_frame :
    Regular pulsingScript 120 ∧
    (start pulsingScript (.finite 120) (Words.cycle #[])).Uncut pulsingCalls ∧
    Nominal pulsingScript 120 ⟨1, 2⟩ 1 5 ∧
    ∃ f, (start pulsingScript (.finite 120) (Words.cycle #[])).run pulsingCalls = .ok f ∧
      startedGroups f.journal = [⟨1, 0⟩, ⟨1, 1⟩, ⟨1, 2⟩] ∧
      (∃ x ∈ deliveries ⟨1, 2⟩ f.events, x.member = 1) ∧
      ∀ x, .spawn x ∈ f.events → ∃ t, Nominal pulsingScript 120 x.group x.member t ∧
        t ≤ 23 / 4 + firings pulsingScript x.group f * slack := by
  have huncut : (start pulsingScript (.finite 120) (Words.cycle #[])).Uncut pulsingCalls := by
    decide +kernel
  have hcalls : ∀ world dt, .update world dt ∈ pulsingCalls → ∃ q, 0 < q ∧ dt = .finite q := by
    intro world dt hmem
    rcases List.mem_cons.1 hmem with heq | hmem
    · exact ⟨3 / 4, by norm_num, (Call.update.inj heq).2⟩
    · exact ⟨5, by norm_num, (Call.update.inj (List.mem_singleton.1 hmem)).2⟩
  have helapsed : elapsed pulsingCalls = 23 / 4 := by decide +kernel
  have hrounds : ((start pulsingScript (.finite 120) (Words.cycle #[])).run pulsingCalls).map
      (fun f => startedGroups f.journal) = .ok [⟨1, 0⟩, ⟨1, 1⟩, ⟨1, 2⟩] := by
    decide +kernel
  have hstart : Start pulsingScript 120 ⟨path pulsingScript 1, 2⟩ pulse
      (due pulsingScript 120 1 + (2 : ℕ) * period 120 (.literal 1) pulse) :=
    .spawnRepeatedly rfl (Or.inr (by decide +kernel))
  have hnominal : Nominal pulsingScript 120 ⟨1, 2⟩ 1 5 :=
    ⟨pulse, _, hstart, by decide, by decide +kernel⟩
  obtain ⟨f, hrun, hcome, hearly⟩ := enemies_come_on_time pulsingScript 120 (Words.cycle #[]) _
    pulsingScript_regular hcalls huncut
  rw [helapsed] at hcome hearly
  rw [hrun] at hrounds
  refine ⟨pulsingScript_regular, huncut, hnominal, f, hrun, Except.ok.inj hrounds, ?_, hearly⟩
  exact hcome (by norm_num) ⟨1, 2⟩ 1 5 hnominal (by norm_num)

end Barrage.Level
