import Barrage.Proofs.Level.Clearing
import Barrage.Proofs.Level.Dealing
import Barrage.Proofs.Scalar.Rounding

/-! # How groups arrive

A group's enemies are asked for one by one and in order, the first of them before the update that
starts the group is over, whatever the length of the frame: what a frame dates back is never later
than its end. -/

namespace Barrage.Level

open Script (Instruction)

variable {α : Type} {script : List (Instruction α)} {h f : Frame α} {l l' : Level α}

/-- Every spawner has dealt. -/
def Begun (l : Level α) : Prop := ∀ s ∈ l.spawners, 0 < s.scheduler.count

theorem first_member_of_begun (hD : Dealt script h) (hB : h.level.Begun) {id : GroupId}
    {group : Script.Group α} (hid : id ∈ startedGroups h.journal)
    (hgroup : groupOf script id = some group) (hmembers : group.members ≠ []) :
    cards id h.events ≠ [] := by
  have hpos : 0 < group.members.length := List.length_pos_iff.2 hmembers
  have hlength : 0 < (cards id h.events).length := by
    obtain ⟨group', hgroup', hcases⟩ := hD.dealt_cases hid
    obtain rfl := Option.some.inj (hgroup.symm.trans hgroup')
    rcases hcases with ⟨s, hs, -, -, hcards⟩ | ⟨-, hcards⟩
    · have hcount := hB s hs
      rw [hcards, List.length_take, length_roster]
      omega
    · rwa [hcards, length_roster]
  exact List.ne_nil_of_length_pos hlength

variable [Scalar α] {world : Vec α} {dt : α}

def Prompt (dt : α) (l : Level α) : Prop :=
  ∀ s ∈ l.spawners, 0 < s.scheduler.count ∨
    ∃ offset, s.scheduler = Scheduler.ofDelay offset ∧ 0 ≤ offset ∧ offset ≤ dt

theorem Begun.prompt (hB : l.Begun) (hspawners : l'.spawners = l.spawners) (dt : α) :
    Prompt dt l' := by
  intro s hs
  rw [hspawners] at hs
  exact Or.inl (hB s hs)

theorem prompt_startGroup {id : GroupId} {group : Script.Group α} {offset : α} (hP : Prompt dt l)
    (h0 : 0 ≤ offset) (hle : offset ≤ dt) (hstart : l.startGroup world id group offset = .ok l') :
    Prompt dt l' := by
  obtain ⟨words, opened, rfl, hcases⟩ := startGroup_ok hstart
  intro s hs
  rcases List.mem_append.1 hs with hs | hs
  · exact hP s hs
  · rcases hcases with ⟨-, rfl⟩ | ⟨-, t, rfl, ht⟩
    · cases hs
    · rw [List.mem_singleton.1 hs]
      exact Or.inr ⟨offset, ht.scheduler_eq, h0, hle⟩

variable [Scalar.Ordered α]

theorem isDue_of_le {offset : α} (hdt : Scalar.isFinite dt = true) (h0 : 0 ≤ offset)
    (hle : offset ≤ dt) : ((Scheduler.ofDelay offset).await dt).isDue = true := by
  have hfinite : Scalar.isFinite offset = true := Scalar.Ordered.finite_of_le hdt h0 hle
  have hsum := Scalar.Ordered.le_add_tolerance hdt (Scalar.Ordered.le_trans h0 hle)
  have hdue : offset ≤ 0 + dt + Scheduler.tolerance := Scalar.Ordered.le_trans hle hsum
  unfold Scheduler.isDue
  rw [Bool.and_eq_true, decide_eq_true_iff]
  exact ⟨hfinite, hdue⟩

theorem prompt_startDue {due : List (Due α)} {journal : List (Entry α)}
    (hdt : Scalar.isFinite dt = true) (hlag : ∀ d ∈ due, Scalar.Defined d.lag) (hP : Prompt dt l)
    (hstart : startDue world dt due l = .ok (l', journal)) : Prompt dt l' := by
  induction due generalizing l l' journal with
  | nil =>
    cases hstart
    exact hP
  | cons d due ih =>
    obtain ⟨offset, hoffset, hstart⟩ := parts_of_ok hstart
    obtain ⟨l₁, hgroup, hstart⟩ := parts_of_ok hstart
    obtain ⟨⟨l₂, later⟩, hlater, hstart⟩ := parts_of_ok hstart
    cases hstart
    have hdefined := Scalar.Ordered.sub_defined hdt (hlag d (List.mem_cons_self ..))
    obtain ⟨h0, hle⟩ := Scalar.clamp_between hdefined hoffset
    exact ih (fun e he => hlag e (List.mem_cons_of_mem _ he)) (prompt_startGroup hP h0 hle hgroup)
      hlater

theorem lag_defined (hdt : ¬ dt ≤ 0) (hL : Ledger script [] h) :
    ∀ d ∈ (Repeater.updateAll dt h.level.repeaters).2, Scalar.Defined d.lag := by
  intro d hd
  obtain ⟨r, hr, hd⟩ := Repeater.mem_due.1 hd
  have hissues := Repeater.issues_update hdt (hL.numbered.repeater_running r hr)
  obtain ⟨x, hx⟩ := hissues.lag_eq d hd
  rw [hx]
  exact Scalar.defined_max_zero x

theorem begun_spawners (hdt : ¬ dt ≤ 0) (hfinite : Scalar.isFinite dt = true)
    (hD : Dealt script h) (hP : Prompt dt h.level) :
    ∀ s ∈ (Spawner.updateAll dt h.level.spawners).1, 0 < s.scheduler.count := by
  intro s hs
  obtain ⟨⟨s₀, hs₀, rfl⟩, -⟩ := Spawner.mem_updateAll.1 hs
  rcases hP s₀ hs₀ with hpos | ⟨offset, hscheduler, h0, hle⟩
  · exact hpos.trans_le (hD.deals hdt hs₀).count_le
  · have hdue := isDue_of_le hfinite h0 hle
    rw [← hscheduler] at hdue
    exact Nat.zero_lt_of_lt (Scheduler.count_lt_update hdt (hD.running s₀ hs₀) hdue)

theorem begun_advance (hdt : ¬ dt ≤ 0) (hfinite : Scalar.isFinite dt = true)
    (hL : Ledger script [] ⟨l, h.journal, h.events⟩) (hP : Prompt dt l)
    (hadv : l.advanceSchedulers world dt = .ok f) : f.level.Begun := by
  obtain ⟨l₁, journal, hstart, rfl⟩ := advance_cases hadv
  have hgroups := ledger_groups hdt hL hstart
  have hprompt :=
    prompt_startDue (l := { l with repeaters := (Repeater.updateAll dt l.repeaters).1 })
    hfinite (lag_defined hdt hL) hP hstart
  exact begun_spawners hdt hfinite hgroups.dealt hprompt

theorem prompt_execute {i : Instruction α} {offset : α} (hfinite : Scalar.isFinite dt = true)
    (hP : Prompt dt l) (hwait : l.wait ≤ 0) (hoffset : Scalar.clamp (dt + l.wait) 0 dt = .ok offset)
    (hout : Outcome l.pass world l.next offset i f) : Prompt dt f.level := by
  have hdefined := Scalar.Ordered.add_defined hfinite (Scalar.Ordered.defined_of_le hwait).1
  obtain ⟨h0, hle⟩ := Scalar.clamp_between hdefined hoffset
  cases hout with
  | spawn hstart => exact prompt_startGroup (l := l.pass) hP h0 hle hstart
  | _ => exact hP

theorem begun_call {c : Call α} (hfinite : ∀ world dt, c = .update world dt →
    Scalar.isFinite dt = true)
    (hL : Ledger script [] h) (hB : h.level.Begun) (hcall : h.level.call c = .ok f) :
    f.level.Begun := by
  cases c with
  | release =>
    cases hcall
    exact hB
  | update world dt =>
    have hfinite := hfinite world dt rfl
    rcases update_cases hcall with
      ⟨-, rfl⟩ | ⟨hdt, -, -, hadv⟩ | ⟨hdt, -, first, last, hdue, hadv, rfl⟩
    · exact hB
    · exact begun_advance (l := { h.level with clock := h.level.clock + dt }) hdt hfinite
        (hL.of_level rfl rfl rfl rfl) (hB.prompt rfl dt) hadv
    · have hL' := ledger_runDue (ledger_enter hL dt) (enter_waitingForClear _ _)
          (by simpa using hdue)
      have hprompt : Prompt dt first.level := by
        refine (runDue_induction (P := fun g => Prompt dt g.level) (h := ⟨h.level.enter dt, [], []⟩)
          ?_ ?_ ?_ (enter_waitingForClear _ _) (hB.prompt (enter_spawners _ _) dt) hdue).1
        · intro g hg _ _ _ _
          exact hg
        · intro g i offset first hg _ hwait _ _ hoffset hout
          have hfirst := prompt_execute hfinite hg hwait hoffset hout
          exact hfirst
        · simp
      have hlast := begun_advance (h := first.behind h.journal h.events) hdt hfinite hL'
        hprompt hadv
      exact hlast

theorem begun_run {tempo : α} {words : Words} {calls : List (Call α)}
    (hfinite : ∀ world dt, .update world dt ∈ calls → Scalar.isFinite dt = true)
    (hrun : (start script tempo words).run calls = .ok f) : f.level.Begun := by
  refine run_induction (Q := fun g => g.level.Begun) (by simp [Begun, start]) ?_ hrun
  intro earlier c before last hpre hbefore hB hcall _
  have hlast := begun_call (fun world dt hc => hfinite world dt (hpre.subset (by simp [hc])))
    (ledger_run hbefore) hB hcall
  exact hlast

/-! ## Waiting behind a group -/

omit [Scalar.Ordered α] in
/-- Where a line that waits has run behind the start of a group, some first part of the history ends
with the frame of that line, and the level waits. -/
theorem wait_behind_start {tempo : α} {words : Words} {calls : List (Call α)}
    (hrun : (start script tempo words).run calls = .ok f) {id : GroupId} {i : ℕ} {o o' : α}
    {modulus : Number α} (hget : script[i]? = some (.waitUntilClear modulus))
    (hsub : [.started id o, .executed i o'].Sublist f.journal) :
    ∃ before c e, before ++ [c] <+: calls ∧ (start script tempo words).run (before ++ [c]) = .ok e ∧
      e.level.waitingForClear = true ∧ (executedLines e.journal).getLast? = some i ∧
      id ∈ startedGroups e.journal := by
  refine run_induction (Q := fun g => [.started id o, .executed i o'].Sublist g.journal →
    ∃ before c e, before ++ [c] <+: calls ∧ (start script tempo words).run (before ++ [c]) = .ok e ∧
      e.level.waitingForClear = true ∧ (executedLines e.journal).getLast? = some i ∧
      id ∈ startedGroups e.journal) ?_ ?_ hrun hsub
  · intro h
    cases h
  · intro earlier c before last hpre hbefore ih hcall hlast hsub
    obtain ⟨l₁, l₂, heq, h₁, h₂⟩ := List.sublist_append_iff.1 hsub
    rcases l₂.eq_nil_or_concat with rfl | ⟨init, x, rfl⟩
    · rw [List.append_nil] at heq
      exact ih (heq ▸ h₁)
    · have hx : x = .executed i o' := by
        have hget := congrArg List.getLast? heq
        simpa using hget.symm
      have hmem : .executed i o' ∈ last.journal := h₂.subset (by simp [hx])
      cases c with
      | release =>
        cases hcall
        cases hmem
      | update world dt =>
        have hscript := (ledger_run hbefore).numbered.script_eq
        obtain ⟨hwaits, -, hlines⟩ := (stopsAtWait_update hcall).2 i o' modulus hmem
          (hscript ▸ hget)
        refine ⟨earlier, _, _, hpre, hlast, hwaits, ?_, ?_⟩
        · simp [List.getLast?_append, hlines]
        · exact mem_startedGroups.2 ⟨o, hsub.subset (by simp)⟩

/-! ## The main statement -/

/-- Whatever the frames, as long as their lengths are finite: enemies come of started groups only; a
group is started once, its enemies are asked for in their order and each as its member says, the
first before the update is over that starts the group; and the group has a spawner exactly as long
as members are missing. So a level that waits behind a group with members waits, at the end of that
update, with the first one seen. -/
theorem groups_arrive_in_order (script : List (Instruction Float32)) (tempo : Float32)
    (words : Words) (calls : List (Call Float32)) (f : Frame Float32)
    (hfinite : ∀ world dt, .update world dt ∈ calls → dt.isFinite = true)
    (hrun : (start script tempo words).run calls = .ok f) :
    (∀ q, .spawn q ∈ f.events → q.group ∈ startedGroups f.journal) ∧
    (startedGroups f.journal).Nodup ∧
    (∀ id ∈ startedGroups f.journal, ∃ group, groupOf script id = some group ∧
      (∀ seen, seen <+: f.events → cards id seen <+: roster group.members) ∧
      (group.members ≠ [] → cards id f.events ≠ []) ∧
      (f.level.spawners.countP fun s => s.id = id) =
        if (cards id f.events).length < group.members.length then 1 else 0) ∧
    (∀ id o i o' modulus group, [.started id o, .executed i o'].Sublist f.journal →
      script[i]? = some (.waitUntilClear modulus) → groupOf script id = some group →
      group.members ≠ [] →
      ∃ before c rest e, calls = before ++ c :: rest ∧
        (start script tempo words).run (before ++ [c]) = .ok e ∧ e.level.waitingForClear = true ∧
        (executedLines e.journal).getLast? = some i ∧ cards id e.events ≠ []) := by
  have hL := ledger_run hrun
  have hB := begun_run hfinite hrun
  refine ⟨?_, ?_, ?_, ?_⟩
  · intro q hq
    by_contra hnew
    have hmem : q ∈ deliveries q.group f.events :=
      List.mem_filter.2 ⟨List.mem_filterMap.2 ⟨_, hq, rfl⟩, by simp⟩
    rw [hL.dealt.unheard _ hnew] at hmem
    cases hmem
  · exact (List.nodup_append'.1 hL.numbered.once).1
  · intro id hid
    obtain ⟨group, hgroup, hcards, hspawners⟩ := hL.dealt.account hid
    refine ⟨group, hgroup, fun seen hseen => ?_, first_member_of_begun hL.dealt hB hid hgroup,
      hspawners⟩
    have hsplit :=
      (((hseen.filterMap Event.request?).filter fun q => q.group = id).map SpawnRequest.card)
    exact hsplit.trans hcards
  · intro id o i o' modulus group hsub hget hgroup hmembers
    obtain ⟨before, c, e, ⟨rest, hcalls⟩, hbefore, hwaits, hlines, hid⟩ :=
      wait_behind_start hrun hget hsub
    rw [List.append_assoc] at hcalls
    have hfinite' : ∀ world dt, .update world dt ∈ before ++ [c] → dt.isFinite = true := by
      intro world dt hmem
      refine hfinite world dt ?_
      rw [← hcalls, ← List.append_assoc]
      exact List.mem_append_left _ hmem
    refine ⟨before, c, rest, e, hcalls.symm, hbefore, hwaits, hlines, ?_⟩
    exact first_member_of_begun (ledger_run hbefore).dealt (begun_run hfinite' hbefore) hid
      hgroup hmembers

def firstWave : Script.Group Float32 :=
  { window := .literal 4, members := [⟨'A', .packed ⟨0⟩⟩, ⟨'C', .packed ⟨7⟩⟩],
    reward := ⟨'P', .never⟩, side := .top, factors := [], trajectory := [] }

theorem first_wave_arrives :
    ∃ f, (start [.spawn firstWave, .waitUntilClear (.literal 5)] 120 (Words.cycle #[])).run
        [.update ⟨320, 180⟩ 1, .update ⟨320, 180⟩ 1] = .ok f ∧
      cards ⟨0, 0⟩ f.events = roster firstWave.members ∧
      (f.level.spawners.countP fun s => s.id = ⟨0, 0⟩) = 0 ∧
      ∃ before c rest e,
        [.update ⟨320, 180⟩ 1, .update ⟨320, 180⟩ 1] = before ++ c :: rest ∧
        (start [.spawn firstWave, .waitUntilClear (.literal 5)] 120 (Words.cycle #[])).run
          (before ++ [c]) = .ok e ∧
        e.level.waitingForClear = true ∧ cards ⟨0, 0⟩ e.events ≠ [] := by
  have hview : ((start [.spawn firstWave, .waitUntilClear (.literal 5)] 120 (Words.cycle #[])).run
      [.update ⟨320, 180⟩ 1, .update ⟨320, 180⟩ 1]).map (fun f =>
        (f.journal.map fun entry => (entry.started?, entry.executed?), cards ⟨0, 0⟩ f.events)) =
      .ok ([(none, some 0), (some ⟨0, 0⟩, none), (none, some 1)], roster firstWave.members) := by
    decide +kernel
  obtain ⟨f, hrun, hview⟩ := ok_of_map hview
  obtain ⟨hjournal, hcards⟩ := Prod.mk.inj hview
  have harrive := groups_arrive_in_order _ _ _ _ f (by simp; decide +kernel) hrun
  obtain ⟨-, -, hgroups, hwaits⟩ := harrive
  obtain ⟨o, o', hwave⟩ : ∃ o o', [.started ⟨0, 0⟩ o, .executed 1 o'].Sublist f.journal := by
    obtain ⟨first, journal, heq, -, hjournal⟩ := List.map_eq_cons_iff.1 hjournal
    obtain ⟨begun, journal, rfl, hbegun, hjournal⟩ := List.map_eq_cons_iff.1 hjournal
    obtain ⟨stopped, journal, rfl, hstopped, -⟩ := List.map_eq_cons_iff.1 hjournal
    obtain ⟨o, rfl⟩ : ∃ o, begun = .started ⟨0, 0⟩ o := by
      cases begun <;> simp_all [Entry.started?]
    obtain ⟨o', rfl⟩ : ∃ o', stopped = .executed 1 o' := by
      cases stopped <;> simp_all [Entry.executed?]
    refine ⟨o, o', ?_⟩
    rw [heq]
    simp
  have hstarted : ⟨0, 0⟩ ∈ startedGroups f.journal :=
    (hwave.filterMap Entry.started?).subset (by simp [Entry.started?])
  obtain ⟨group, hgroup, -, -, hspawners⟩ := hgroups ⟨0, 0⟩ hstarted
  obtain rfl : firstWave = group := Option.some.inj hgroup
  obtain ⟨before, c, rest, e, hcalls, hbefore, hwaiting, -, hfirst⟩ :=
    hwaits ⟨0, 0⟩ o 1 o' (.literal 5) firstWave hwave rfl rfl (by simp [firstWave])
  refine ⟨f, hrun, hcards, ?_, before, c, rest, e, hcalls, hbefore, hwaiting, hfirst⟩
  rw [hspawners, hcards, length_roster, if_neg (lt_irrefl _)]

end Barrage.Level
