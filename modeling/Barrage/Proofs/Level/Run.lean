import Barrage.Proofs.Level.Outcome

/-! # From one step to a whole history

A frame collects what has happened up to a moment, so statements about a run are statements about
frames. Instructions, updates and histories each have one principle that carries a statement over
all their steps. -/

namespace Barrage.Level

open Script (Instruction)

variable {α : Type}

@[simp] theorem behind_level (f : Frame α) (journal events) :
    (f.behind journal events).level = f.level := rfl

@[simp] theorem behind_journal (f : Frame α) (journal events) :
    (f.behind journal events).journal = journal ++ f.journal := rfl

@[simp] theorem behind_events (f : Frame α) (journal events) :
    (f.behind journal events).events = events ++ f.events := rfl

theorem behind_behind (f : Frame α) (j₁ j₂ : List (Entry α)) (e₁ e₂ : List (Event α)) :
    (f.behind j₂ e₂).behind j₁ e₁ = f.behind (j₁ ++ j₂) (e₁ ++ e₂) := by
  simp [Frame.behind]

def pass (l : Level α) : Level α := { l with next := l.next + 1 }

variable [Scalar α]

/-- No instruction is left to run in this frame. -/
def Rests (l : Level α) : Prop :=
  l.waitingForClear = true ∨ ¬ l.wait ≤ 0 ∨ l.script.length ≤ l.next

def enter (l : Level α) (dt : α) : Level α :=
  if l.waitingForClear then { l with clock := l.clock + dt }.rebase
  else { l with clock := l.clock + dt, wait := l.wait - dt }

@[simp] theorem enter_script (l : Level α) (dt : α) : (l.enter dt).script = l.script := by
  unfold enter; split <;> rfl

@[simp] theorem enter_next (l : Level α) (dt : α) : (l.enter dt).next = l.next := by
  unfold enter; split <;> rfl

@[simp] theorem enter_gate (l : Level α) (dt : α) : (l.enter dt).gate = l.gate := by
  unfold enter; split <;> rfl

@[simp] theorem enter_clock (l : Level α) (dt : α) : (l.enter dt).clock = l.clock + dt := by
  unfold enter; split <;> rfl

@[simp] theorem enter_tempo (l : Level α) (dt : α) : (l.enter dt).tempo = l.tempo := by
  unfold enter; split <;> rfl

@[simp] theorem enter_waitingForClear (l : Level α) (dt : α) :
    (l.enter dt).waitingForClear = false := by
  unfold enter; split
  · rfl
  · next h => simpa using h

@[simp] theorem enter_repeaters (l : Level α) (dt : α) : (l.enter dt).repeaters = l.repeaters := by
  unfold enter; split <;> rfl

@[simp] theorem enter_spawners (l : Level α) (dt : α) : (l.enter dt).spawners = l.spawners := by
  unfold enter; split <;> rfl

variable {l : Level α} {world : Vec α} {dt : α} {f : Frame α}

theorem update_paused (l : Level α) (world : Vec α) (hdt : dt ≤ 0) :
    l.update world dt = .ok ⟨l, [], []⟩ := if_pos hdt

theorem update_held (world : Vec α) (hdt : ¬ dt ≤ 0) (hw : l.waitingForClear = true)
    (hlive : 0 < l.live) :
    l.update world dt = { l with clock := l.clock + dt }.advanceSchedulers world dt := by
  simp [update, hdt, hw, hlive]

theorem update_playing (world : Vec α) (hdt : ¬ dt ≤ 0)
    (hclear : l.waitingForClear = true → l.live = 0) :
    l.update world dt = do
      let first ← runDue world dt (l.script.drop l.next) (l.enter dt)
      return (← first.level.advanceSchedulers world dt).behind first.journal first.events := by
  unfold update enter
  cases hw : l.waitingForClear with
  | false => simp [hdt]
  | true => simp [hdt, hclear hw, rebase]

/-- The three kinds of update: paused, held back by living enemies, and playing. -/
theorem update_cases (h : l.update world dt = .ok f) :
    (dt ≤ 0 ∧ f = ⟨l, [], []⟩) ∨
    (¬ dt ≤ 0 ∧ l.waitingForClear = true ∧ 0 < l.live ∧
      { l with clock := l.clock + dt }.advanceSchedulers world dt = .ok f) ∨
    (¬ dt ≤ 0 ∧ (l.waitingForClear = true → l.live = 0) ∧
      ∃ first last, runDue world dt (l.script.drop l.next) (l.enter dt) = .ok first ∧
        first.level.advanceSchedulers world dt = .ok last ∧
        f = last.behind first.journal first.events) := by
  by_cases hdt : dt ≤ 0
  · rw [update_paused l world hdt] at h
    cases h
    exact Or.inl ⟨hdt, rfl⟩
  · by_cases hheld : l.waitingForClear = true ∧ 0 < l.live
    · rw [update_held world hdt hheld.1 hheld.2] at h
      exact Or.inr (Or.inl ⟨hdt, hheld.1, hheld.2, h⟩)
    · have hclear : l.waitingForClear = true → l.live = 0 :=
        fun hw => Nat.eq_zero_of_not_pos fun hl => hheld ⟨hw, hl⟩
      rw [update_playing world hdt hclear] at h
      obtain ⟨first, hfirst, h⟩ := parts_of_ok h
      obtain ⟨last, hlast, h⟩ := parts_of_ok h
      cases h
      exact Or.inr (Or.inr ⟨hdt, hclear, first, last, hfirst, hlast, rfl⟩)

theorem runDue_of_wait (rest : List (Instruction α)) (hwait : ¬ l.wait ≤ 0) :
    runDue world dt rest l = .ok ⟨l, [], []⟩ := by
  cases rest with
  | nil => rfl
  | cons => exact if_neg hwait

/-- Schedulers advance in three rounds: repeaters, the groups that they start, and spawners. -/
theorem advance_cases (h : l.advanceSchedulers world dt = .ok f) :
    ∃ l₁ journal,
      startDue world dt (Repeater.updateAll dt l.repeaters).2
        { l with repeaters := (Repeater.updateAll dt l.repeaters).1 } = .ok (l₁, journal) ∧
      f = ⟨{ l₁ with
            spawners := (Spawner.updateAll dt l₁.spawners).1
            live := l₁.live + (Spawner.updateAll dt l₁.spawners).2.length },
          journal, (Spawner.updateAll dt l₁.spawners).2.map .spawn⟩ := by
  obtain ⟨⟨l₁, journal⟩, hstart, h⟩ := parts_of_ok h
  cases h
  exact ⟨l₁, journal, hstart, rfl⟩

def Entry.executed? : Entry α → Option ℕ
  | .executed index _ => some index
  | .started _ _ => none

def Entry.started? : Entry α → Option GroupId
  | .executed _ _ => none
  | .started id _ => some id

theorem startDue_frame {due : List (Due α)} {l' : Level α} {journal : List (Entry α)}
    (h : startDue world dt due l = .ok (l', journal)) :
    (∃ words spawners, l' = { l with words, spawners }) ∧ ∀ e ∈ journal, e.executed? = none := by
  induction due generalizing l l' journal with
  | nil => cases h; exact ⟨⟨l.words, l.spawners, rfl⟩, by simp⟩
  | cons d due ih =>
    obtain ⟨offset, -, h⟩ := parts_of_ok h
    obtain ⟨l₁, hstart, h⟩ := parts_of_ok h
    obtain ⟨⟨l₂, later⟩, hlater, h⟩ := parts_of_ok h
    cases h
    obtain ⟨words₁, opened, rfl, -⟩ := startGroup_ok hstart
    obtain ⟨⟨words₂, spawners₂, rfl⟩, hjournal⟩ := ih hlater
    refine ⟨⟨words₂, spawners₂, rfl⟩, fun e he => ?_⟩
    rcases List.mem_cons.1 he with rfl | he
    · rfl
    · exact hjournal e he

/-- Schedulers run no line, leave the place in the script alone and ask for nothing but enemies. -/
theorem advance_frame (h : l.advanceSchedulers world dt = .ok f) :
    (∃ words repeaters spawners live, f.level = { l with words, repeaters, spawners, live }) ∧
      (∀ e ∈ f.journal, e.executed? = none) ∧ ∀ e ∈ f.events, ∃ r, e = .spawn r := by
  obtain ⟨l₁, journal, hstart, rfl⟩ := advance_cases h
  obtain ⟨⟨words, spawners, rfl⟩, hjournal⟩ := startDue_frame hstart
  refine ⟨⟨words, _, _, _, rfl⟩, hjournal, fun e he => ?_⟩
  obtain ⟨r, -, rfl⟩ := List.mem_map.1 he
  exact ⟨r, rfl⟩

/-- A line that runs, the level as it finds it, and how much of the frame has passed before. -/
structure Turn (α : Type) where
  level : Level α
  instruction : Instruction α
  offset : α

def turnsDue (world : Vec α) (dt : α) : List (Instruction α) → Level α → List (Turn α)
  | [], _ => []
  | i :: rest, l =>
    if l.wait ≤ 0 then
      if l.next < l.gate then turnsDue world dt rest l.pass
      else
        match Scalar.clamp (dt + l.wait) 0 dt with
        | .error _ => []
        | .ok offset =>
          ⟨l, i, offset⟩ ::
            match l.pass.execute world l.next offset i with
            | .error _ => []
            | .ok first =>
              if first.level.waitingForClear then [] else turnsDue world dt rest first.level
    else []

/-- What holds when the instructions of a frame begin, and is kept by skipping a line and by running
one, holds when they have run. The lines at hand may be any that come next: a frame that faults has
run some. -/
theorem turnsDue_induction {P : Frame α → List (Turn α) → Prop} (turns : List (Turn α))
    (skip : ∀ (h : Frame α) turns, P h turns → h.level.waitingForClear = false → h.level.wait ≤ 0 →
      h.level.next < h.level.gate → h.level.next < h.level.script.length →
      P ⟨h.level.pass, h.journal, h.events⟩ turns)
    (execute : ∀ (h : Frame α) turns i offset first, P h turns → h.level.waitingForClear = false →
      h.level.wait ≤ 0 → h.level.gate ≤ h.level.next → h.level.script[h.level.next]? = some i →
      Scalar.clamp (dt + h.level.wait) 0 dt = .ok offset →
      h.level.pass.execute world h.level.next offset i = .ok first →
      P (first.behind (h.journal ++ [.executed h.level.next offset]) h.events)
        (turns ++ [⟨h.level, i, offset⟩]))
    {rest : List (Instruction α)} {h : Frame α}
    (hrest : rest <+: h.level.script.drop h.level.next) (hclear : h.level.waitingForClear = false)
    (hP : P h turns) (hrun : runDue world dt rest h.level = .ok f) :
    P (f.behind h.journal h.events) (turns ++ turnsDue world dt rest h.level) ∧
      (rest = h.level.script.drop h.level.next → f.level.Rests) := by
  induction rest generalizing h f turns with
  | nil =>
    cases hrun
    refine ⟨by simpa [Frame.behind, turnsDue] using hP, fun he => ?_⟩
    exact Or.inr (Or.inr (List.drop_eq_nil_iff.1 he.symm))
  | cons i rest ih =>
    obtain ⟨tail, htail⟩ := hrest
    have hlt : h.level.next < h.level.script.length := by
      by_contra hge
      rw [List.drop_eq_nil_of_le (by omega)] at htail
      cases htail
    have hdrop := List.drop_eq_getElem_cons hlt
    rw [hdrop] at htail ⊢
    obtain ⟨hi, htail⟩ := List.cons.inj htail
    have hget : h.level.script[h.level.next]? = some i := by
      rw [hi]; exact List.getElem?_eq_getElem hlt
    unfold runDue at hrun
    unfold turnsDue
    by_cases hwait : h.level.wait ≤ 0
    · rw [if_pos hwait] at hrun ⊢
      -- a line before the gate is skipped, and the frame goes on with the next
      by_cases hgate : h.level.next < h.level.gate
      · simp only [if_pos hgate] at hrun ⊢
        obtain ⟨hPf, hrests⟩ := ih turns (h := ⟨h.level.pass, h.journal, h.events⟩)
          ⟨tail, htail⟩ hclear (skip h turns hP hclear hwait hgate hlt) hrun
        exact ⟨hPf, fun he => hrests (List.cons.inj he).2⟩
      · simp only [if_neg hgate] at hrun ⊢
        obtain ⟨offset, hoffset, hrun⟩ := parts_of_ok hrun
        obtain ⟨first, hfirst, hrun⟩ := parts_of_ok hrun
        change h.level.pass.execute world h.level.next offset i = .ok first at hfirst
        have hout := execute_outcome hfirst
        have hPfirst := execute h turns i offset first hP hclear hwait
          (by omega) hget hoffset hfirst
        simp only [hoffset, hfirst]
        by_cases hw : first.level.waitingForClear = true
        · rw [if_pos hw] at hrun ⊢
          cases hrun
          exact ⟨by simpa [Frame.behind] using hPfirst, fun _ => Or.inl hw⟩
        · rw [if_neg hw] at hrun ⊢
          obtain ⟨later, hlater, hrun⟩ := parts_of_ok hrun
          cases hrun
          have hscript : first.level.script = h.level.script := hout.script_eq
          have hnext : first.level.next = h.level.next + 1 := hout.next_eq
          obtain ⟨hPf, hrests⟩ := ih (turns ++ [⟨h.level, i, offset⟩])
            (h := first.behind (h.journal ++ [.executed h.level.next offset]) h.events)
            ⟨tail, by simpa [hscript, hnext] using htail⟩ (by simpa using hw) hPfirst hlater
          refine ⟨by simpa [Frame.behind] using hPf, fun he => hrests ?_⟩
          simpa [hscript, hnext] using (List.cons.inj he).2
    · rw [if_neg hwait] at hrun ⊢
      cases hrun
      exact ⟨by simpa [Frame.behind] using hP, fun _ => Or.inr (Or.inl hwait)⟩

theorem runDue_induction {P : Frame α → Prop}
    (skip : ∀ h : Frame α, P h → h.level.waitingForClear = false → h.level.wait ≤ 0 →
      h.level.next < h.level.gate → h.level.next < h.level.script.length →
      P ⟨h.level.pass, h.journal, h.events⟩)
    (execute : ∀ (h : Frame α) i offset first, P h → h.level.waitingForClear = false →
      h.level.wait ≤ 0 → h.level.gate ≤ h.level.next → h.level.script[h.level.next]? = some i →
      Scalar.clamp (dt + h.level.wait) 0 dt = .ok offset →
      Outcome h.level.pass world h.level.next offset i first →
      P (first.behind (h.journal ++ [.executed h.level.next offset]) h.events))
    {rest : List (Instruction α)} {h : Frame α} (hrest : rest <+: h.level.script.drop h.level.next)
    (hclear : h.level.waitingForClear = false) (hP : P h)
    (hrun : runDue world dt rest h.level = .ok f) :
    P (f.behind h.journal h.events) ∧
      (rest = h.level.script.drop h.level.next → f.level.Rests) :=
  turnsDue_induction (P := fun h _ => P h) [] (fun h _ => skip h)
    (fun h _ i offset first hP hclear hwait hgate hget hoffset hfirst =>
      execute h i offset first hP hclear hwait hgate hget hoffset (execute_outcome hfirst))
    hrest hclear hP hrun

theorem run_append (l : Level α) (earlier later : List (Call α)) :
    l.run (earlier ++ later) = do
      let first ← l.run earlier
      return (← first.level.run later).behind first.journal first.events := by
  induction earlier generalizing l with
  | nil =>
    simp only [List.nil_append, run, bind, Except.bind, pure, Except.pure]
    cases l.run later <;> rfl
  | cons c earlier ih =>
    simp only [List.cons_append, run]
    cases l.call c with
    | error e => rfl
    | ok first =>
      simp only [bind, Except.bind, pure, Except.pure, ih]
      cases first.level.run earlier with
      | error e => rfl
      | ok second =>
        simp only [behind_level]
        cases second.level.run later with
        | error e => rfl
        | ok third => simp [behind_behind]

theorem run_snoc {earlier : List (Call α)} {c : Call α} (h : l.run (earlier ++ [c]) = .ok f) :
    ∃ before last, l.run earlier = .ok before ∧ before.level.call c = .ok last ∧
      f = last.behind before.journal before.events := by
  rw [run_append] at h
  obtain ⟨before, hbefore, h⟩ := parts_of_ok h
  obtain ⟨after, hafter, h⟩ := parts_of_ok h
  obtain ⟨last, hlast, hafter⟩ := parts_of_ok hafter
  cases hafter
  cases h
  exact ⟨before, last, hbefore, hlast, by simp [Frame.behind]⟩

/-- What holds of a level as it starts, and is kept by each call, holds after every history. -/
theorem run_induction {Q : Frame α → Prop} (start : Q ⟨l, [], []⟩) {calls : List (Call α)}
    (step : ∀ earlier c before last, earlier ++ [c] <+: calls → l.run earlier = .ok before →
      Q before → before.level.call c = .ok last →
      l.run (earlier ++ [c]) = .ok (last.behind before.journal before.events) →
      Q (last.behind before.journal before.events))
    (hrun : l.run calls = .ok f) : Q f := by
  induction calls using List.reverseRecOn generalizing f with
  | nil => cases hrun; exact start
  | append_singleton earlier c ih =>
    obtain ⟨before, last, hbefore, hlast, rfl⟩ := run_snoc hrun
    have hQ := ih (fun e c b t hp => step e c b t (hp.trans (List.prefix_append _ _))) hbefore
    exact step earlier c before last (List.prefix_refl _) hbefore hQ hlast hrun

end Barrage.Level
