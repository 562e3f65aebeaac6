import Barrage.Proofs.Level.Renumbering

/-! # Comments

A comment is an instruction that does nothing. Its line takes a number, so without it other lines
have other numbers; jumps aside, nobody can tell. Only a frame of no definite length shows a
difference: the interpreter finds out how far into the frame a line is due, also for a comment, and
gives up where a frame cannot be measured. -/

namespace Barrage

namespace Script

variable {α : Type}

def Instruction.isComment : Instruction α → Bool
  | comment => true
  | _ => false

def Instruction.isJump : Instruction α → Bool
  | goto _ => true
  | _ => false

def meaningful (script : List (Instruction α)) : List (Instruction α) :=
  script.filter fun i => !i.isComment

/-- The number that a line has when comments are not counted. -/
def lineNumber (script : List (Instruction α)) (line : ℕ) : ℕ :=
  (meaningful (script.take line)).length

variable {script : List (Instruction α)} {i : Instruction α} {line : ℕ}

@[simp] theorem meaningful_nil : meaningful ([] : List (Instruction α)) = [] := rfl

theorem meaningful_comment (rest : List (Instruction α)) :
    meaningful (.comment :: rest) = meaningful rest := rfl

theorem meaningful_cons (h : i.isComment = false) (rest : List (Instruction α)) :
    meaningful (i :: rest) = i :: meaningful rest := by
  simp [meaningful, h]

theorem meaningful_append (earlier later : List (Instruction α)) :
    meaningful (earlier ++ later) = meaningful earlier ++ meaningful later := List.filter_append ..

theorem meaningful_meaningful (script : List (Instruction α)) :
    meaningful (meaningful script) = meaningful script := by
  simp [meaningful]

theorem isComment_iff : i.isComment = true ↔ i = .comment := by
  cases i <;> simp [Instruction.isComment]

theorem drop_meaningful (script : List (Instruction α)) (line : ℕ) :
    (meaningful script).drop (lineNumber script line) = meaningful (script.drop line) := by
  conv_lhs => rw [← List.take_append_drop line script, meaningful_append]
  rw [lineNumber, List.take_append_drop, List.drop_left]

theorem take_meaningful (script : List (Instruction α)) (line : ℕ) :
    (meaningful script).take (lineNumber script line) = meaningful (script.take line) := by
  conv_lhs => rw [← List.take_append_drop line script, meaningful_append]
  rw [lineNumber, List.take_append_drop, List.take_left]

theorem lineNumber_succ (h : script[line]? = some i) :
    lineNumber script (line + 1) = lineNumber script line + if i.isComment then 0 else 1 := by
  rw [lineNumber, lineNumber, List.take_add_one, h, meaningful_append, List.length_append]
  cases hcomment : i.isComment with
  | true => simp [meaningful, hcomment]
  | false => simp [meaningful, hcomment]

theorem lineNumber_meaningful (script : List (Instruction α)) (line : ℕ) :
    lineNumber (meaningful script) (lineNumber script line) = lineNumber script line := by
  rw [lineNumber, take_meaningful, meaningful_meaningful, lineNumber]

theorem lineNumber_mono (script : List (Instruction α)) : Monotone (lineNumber script) := by
  intro line line' hle
  exact List.Sublist.length_le ((List.take_prefix_take_left hle).sublist.filter _)

theorem lineNumber_lt {line' : ℕ} (h : script[line]? = some i) (hmeans : i.isComment = false)
    (hlt : line < line') : lineNumber script line < lineNumber script line' := by
  have hsucc := lineNumber_succ h
  have hle := lineNumber_mono script (Nat.succ_le_of_lt hlt)
  rw [hmeans] at hsucc
  simp only [Bool.false_eq_true, if_false] at hsucc
  change lineNumber script (line + 1) ≤ _ at hle
  omega

end Script

namespace Level

open Script (Instruction meaningful lineNumber)

variable {α : Type}

/-- The level as it would be if its script had no comments. -/
def uncommented (l : Level α) : Level α :=
  l.transcribe (lineNumber l.script) (meaningful l.script) (lineNumber l.script l.next)

structure Frame.Uncomments (script : List (Instruction α)) (f g : Frame α) : Prop where
  script_eq : f.level.script = script
  gate_eq : f.level.gate = 0
  level_eq : g.level = f.level.uncommented
  events_eq : g.events = f.events.map (Event.renumber (lineNumber script))

/-- Either both computations give up for the same reason, or both come out, with related results;
unless the first gives up because something cannot be measured. -/
inductive Matches {β γ : Type} (unmeasured : Prop) (R : β → γ → Prop) :
    Except Fault β → Except Fault γ → Prop where
  | ok {b : β} {c : γ} : R b c → Matches unmeasured R (.ok b) (.ok c)
  | error (fault : Fault) : Matches unmeasured R (.error fault) (.error fault)
  | unmeasured (y : Except Fault γ) : unmeasured → Matches unmeasured R (.error .unorderedBounds) y

namespace Matches

variable {β γ δ ε : Type} {unmeasured : Prop} {R : β → γ → Prop} {S : δ → ε → Prop}
  {x : Except Fault β} {y : Except Fault γ}

theorem bind {k : β → Except Fault δ} {k' : γ → Except Fault ε} (h : Matches unmeasured R x y)
    (hk : ∀ b c, x = .ok b → R b c → Matches unmeasured S (k b) (k' c)) :
    Matches unmeasured S (x >>= k) (y >>= k') := by
  cases h with
  | ok hR => exact hk _ _ rfl hR
  | error fault => exact .error fault
  | unmeasured _ h => exact .unmeasured _ h

theorem of_map {image : β → γ} (h : y = image <$> x) (hR : ∀ b, x = .ok b → R b (image b)) :
    Matches unmeasured R x y := by
  subst h
  cases x with
  | error fault => exact .error fault
  | ok b => exact .ok (hR b rfl)

theorem refl (x : Except Fault β) : Matches unmeasured Eq x x :=
  of_map (id_map x).symm fun _ _ => rfl

theorem map {R' : δ → γ → Prop} {image : β → δ} (h : Matches unmeasured R x y)
    (hR : ∀ b c, R b c → R' (image b) c) : Matches unmeasured R' (image <$> x) y := by
  cases h with
  | ok h => exact .ok (hR _ _ h)
  | error fault => exact .error fault
  | unmeasured _ h => exact .unmeasured _ h

theorem of_ok (h : Matches unmeasured R x y) {b : β} (hx : x = .ok b) : ∃ c, y = .ok c ∧ R b c := by
  cases h with
  | ok hR =>
    obtain rfl := Except.ok.inj hx
    exact ⟨_, rfl, hR⟩
  | error | unmeasured => cases hx

/-- Where all can be measured, what is related in the same way on both sides is the same, faults
included. -/
theorem map_eq {f : β → δ} {g : γ → δ} (h : Matches unmeasured R x y) (hmeasured : ¬ unmeasured)
    (hR : ∀ b c, R b c → g c = f b) : y.map g = x.map f := by
  cases h with
  | ok h => exact congrArg Except.ok (hR _ _ h)
  | error fault => rfl
  | unmeasured _ h => exact absurd h hmeasured

theorem mono {unmeasured' : Prop} {R' : β → γ → Prop} (h : Matches unmeasured R x y)
    (hbad : unmeasured → unmeasured') (hR : ∀ b c, x = .ok b → R b c → R' b c) :
    Matches unmeasured' R' x y := by
  cases h with
  | ok h => exact .ok (hR _ _ rfl h)
  | error fault => exact .error fault
  | unmeasured _ h => exact .unmeasured _ (hbad h)

end Matches

variable [Scalar α] {l : Level α} {script : List (Instruction α)} {world : Vec α} {dt : α}

/-! ## Frames -/

theorem Outcome.gate_eq {index : ℕ} {offset : α} {i : Instruction α} {f : Frame α}
    (h : Outcome l world index offset i f) (hstays : i.isJump = false) : f.level.gate = l.gate := by
  cases h with
  | goto line => cases hstays
  | spawn h => obtain ⟨_, _, rfl, -⟩ := startGroup_ok h; rfl
  | _ => rfl

omit [Scalar α] in
theorem Frame.Uncomments.behind {f g : Frame α} (h : f.Uncomments script g)
    {events events' : List (Event α)}
    (hevents : events' = events.map (Event.renumber (lineNumber script)))
    (journal journal' : List (Entry α)) :
    (f.behind journal events).Uncomments script (g.behind journal' events') :=
  ⟨h.script_eq, h.gate_eq, h.level_eq, by simp [hevents, h.events_eq]⟩

theorem execute_uncommented {index : ℕ} {offset : α} {i : Instruction α} {f : Frame α}
    (hstays : i.isJump = false) (hgate : l.gate = 0) (h : l.execute world index offset i = .ok f) :
    f.Uncomments l.script (f.transcribe (lineNumber l.script) (meaningful l.script)
      (lineNumber l.script l.next)) ∧
      f.level.next = l.next := by
  have hout := execute_outcome h
  refine ⟨⟨hout.script_eq, (hout.gate_eq hstays).trans hgate, ?_, rfl⟩, hout.next_eq⟩
  rw [uncommented, hout.script_eq, hout.next_eq]
  rfl

theorem runDue_cons {i : Instruction α} (rest : List (Instruction α)) (hwait : l.wait ≤ 0)
    (hgate : l.gate = 0) :
    runDue world dt (i :: rest) l = do
      let offset ← Scalar.clamp (dt + l.wait) 0 dt
      let first ← l.pass.execute world l.next offset i
      if first.level.waitingForClear then
        return { first with journal := .executed l.next offset :: first.journal }
      else
        return (← runDue world dt rest first.level).behind
          (.executed l.next offset :: first.journal) first.events := by
  have hruns : ¬ l.next < l.gate := by omega
  rw [runDue, if_pos hwait]
  simp only [if_neg hruns]
  rfl

/-- A comment that is due is passed, in a frame that can be measured. -/
theorem runDue_comment (world : Vec α) (rest : List (Instruction α)) (hwait : l.wait ≤ 0)
    (hgate : l.gate = 0) (hclear : l.waitingForClear = false) (hmeasured : 0 ≤ dt) :
    ∃ offset, runDue world dt (.comment :: rest) l =
      (fun f => f.behind [.executed l.next offset] []) <$> runDue world dt rest l.pass := by
  obtain ⟨offset, hoffset⟩ : ∃ offset, Scalar.clamp (dt + l.wait) 0 dt = .ok offset :=
    ⟨_, if_pos hmeasured⟩
  have hpass : l.pass.waitingForClear = false := hclear
  refine ⟨offset, ?_⟩
  rw [runDue_cons rest hwait hgate, hoffset, ← bind_pure_comp]
  change (if l.pass.waitingForClear = true then _ else _) = _
  rw [hpass]
  rfl

theorem runDue_uncommented (world : Vec α) (dt : α) {rest : List (Instruction α)}
    (hrest : rest = l.script.drop l.next) (hstays : ∀ i ∈ rest, i.isJump = false)
    (hgate : l.gate = 0) (hclear : l.waitingForClear = false) :
    Matches (¬ 0 ≤ dt) (Frame.Uncomments l.script) (runDue world dt rest l)
      (runDue world dt (meaningful rest) l.uncommented) := by
  induction rest generalizing l with
  | nil => exact .ok ⟨rfl, hgate, rfl, rfl⟩
  | cons i rest ih =>
    have hget : l.script[l.next]? = some i := by
      rw [← List.head?_drop, ← hrest]
      rfl
    have htail : rest = l.script.drop (l.next + 1) := by
      rw [← List.tail_drop, ← hrest]
      rfl
    have hlater : ∀ i ∈ rest, i.isJump = false := fun j hj => hstays j (List.mem_cons_of_mem i hj)
    have hnumber := Script.lineNumber_succ hget
    by_cases hwait : l.wait ≤ 0
    · by_cases hcomment : i.isComment = true
      · obtain rfl := Script.isComment_iff.1 hcomment
        have hsame : l.pass.uncommented = l.uncommented := by
          change l.pass.transcribe _ _ (lineNumber l.script (l.next + 1)) = _
          rw [hnumber]
          rfl
        -- a comment in a frame of no definite length is where the two levels part
        by_cases hmeasured : 0 ≤ dt
        · obtain ⟨offset, hpasses⟩ := runDue_comment world rest hwait hgate hclear hmeasured
          have hbehind := ih (l := l.pass) htail hlater hgate hclear
          rw [hsame] at hbehind
          rw [hpasses, Script.meaningful_comment]
          exact hbehind.map fun f g hfg => ⟨hfg.script_eq, hfg.gate_eq, hfg.level_eq, hfg.events_eq⟩
        · have hfault : Scalar.clamp (dt + l.wait) 0 dt = .error .unorderedBounds :=
            if_neg hmeasured
          rw [runDue_cons rest hwait hgate, hfault]
          exact .unmeasured _ hmeasured
      · rw [if_neg hcomment] at hnumber
        have hwait' : l.uncommented.wait ≤ 0 := hwait
        have hpass : l.uncommented.pass = l.pass.transcribe (lineNumber l.script)
            (meaningful l.script) (lineNumber l.script (l.next + 1)) := by
          rw [hnumber]
          rfl
        have hstay : ∀ line, i ≠ .goto line := by
          rintro line rfl
          cases hstays _ List.mem_cons_self
        rw [Script.meaningful_cons (Bool.eq_false_iff.2 hcomment), runDue_cons _ hwait hgate,
          runDue_cons _ hwait' hgate]
        refine (Matches.refl _).bind fun offset _ _ heq => ?_
        subst heq
        -- the line has another number without comments, and nothing else is different
        have hexecute : Matches (¬ 0 ≤ dt)
            (fun first first' => first.Uncomments l.script first' ∧ first.level.next = l.next + 1)
            (l.pass.execute world l.next offset i)
            (l.uncommented.pass.execute world (lineNumber l.script l.next) offset i) := by
          rw [hpass]
          exact .of_map (execute_transcribe l.pass world l.next offset i hstay) fun first hfirst =>
            execute_uncommented (l := l.pass) (hstays i List.mem_cons_self) hgate hfirst
        refine hexecute.bind ?_
        rintro first first' - ⟨hfirst, hnext⟩
        have hsame : first'.level.waitingForClear = first.level.waitingForClear := by
          rw [hfirst.level_eq]; rfl
        rw [hsame]
        by_cases hwaits : first.level.waitingForClear = true
        · rw [if_pos hwaits, if_pos hwaits]
          exact .ok ⟨hfirst.script_eq, hfirst.gate_eq, hfirst.level_eq, hfirst.events_eq⟩
        · rw [if_neg hwaits, if_neg hwaits, hfirst.level_eq]
          have hplace : rest = first.level.script.drop first.level.next := by
            rw [hnext, hfirst.script_eq]
            exact htail
          have hlast := ih hplace hlater hfirst.gate_eq (Bool.eq_false_iff.2 hwaits)
          rw [hfirst.script_eq] at hlast
          exact hlast.bind fun last last' _ h => .ok (h.behind hfirst.events_eq _ _)
    · have hwait' : ¬ l.uncommented.wait ≤ 0 := hwait
      rw [runDue_of_wait _ hwait, runDue_of_wait _ hwait']
      exact .ok ⟨rfl, hgate, rfl, rfl⟩

theorem advance_uncommented (world : Vec α) (dt : α) (hgate : l.gate = 0) (unmeasured : Prop) :
    Matches unmeasured (Frame.Uncomments l.script) (l.advanceSchedulers world dt)
      (l.uncommented.advanceSchedulers world dt) := by
  refine .of_map (advance_transcribe l world dt) fun f hf => ?_
  obtain ⟨⟨words, repeaters, spawners, live, hlevel⟩, -⟩ := advance_frame hf
  refine ⟨by rw [hlevel], by rw [hlevel]; exact hgate, ?_, rfl⟩
  have hscript : f.level.script = l.script := by rw [hlevel]
  have hnext : f.level.next = l.next := by rw [hlevel]
  rw [uncommented, hscript, hnext]
  rfl

theorem enter_uncommented (l : Level α) (dt : α) :
    l.uncommented.enter dt = (l.enter dt).uncommented := by
  have hwaits : l.uncommented.waitingForClear = l.waitingForClear := rfl
  unfold enter
  rw [hwaits]
  split <;> rfl

theorem update_uncommented (hstays : ∀ i ∈ l.script, i.isJump = false) (hgate : l.gate = 0)
    (world : Vec α) (dt : α) : Matches (¬ dt ≤ 0 ∧ ¬ 0 ≤ dt) (Frame.Uncomments l.script)
    (l.update world dt) (l.uncommented.update world dt) := by
  by_cases hdt : dt ≤ 0
  · rw [update_paused l world hdt, update_paused l.uncommented world hdt]
    exact .ok ⟨rfl, hgate, rfl, rfl⟩
  by_cases hheld : l.waitingForClear = true ∧ 0 < l.live
  · rw [update_held world hdt hheld.1 hheld.2,
      update_held (l := l.uncommented) world hdt hheld.1 hheld.2]
    exact advance_uncommented (l := { l with clock := l.clock + dt }) world dt hgate _
  · have hclear : l.waitingForClear = true → l.live = 0 :=
      fun hw => Nat.eq_zero_of_not_pos fun hlive => hheld ⟨hw, hlive⟩
    rw [update_playing world hdt hclear, update_playing (l := l.uncommented) world hdt hclear,
      enter_uncommented]
    have hdue : Matches (¬ 0 ≤ dt) (Frame.Uncomments l.script)
        (runDue world dt (l.script.drop l.next) (l.enter dt))
        (runDue world dt (l.uncommented.script.drop l.uncommented.next)
          (l.enter dt).uncommented) := by
      have hrest := Script.drop_meaningful l.script l.next
      change (l.uncommented.script.drop l.uncommented.next) = _ at hrest
      have hplace : l.script.drop l.next = (l.enter dt).script.drop (l.enter dt).next := by simp
      have hruns := runDue_uncommented world dt hplace
        (fun i hi => hstays i (List.mem_of_mem_drop hi)) (by simpa using hgate) (by simp)
      rw [enter_script] at hruns
      rw [hrest]
      exact hruns
    refine (hdue.mono (fun h => ⟨hdt, h⟩) fun _ _ _ h => h).bind fun first first' _ hfirst => ?_
    have hadvance := advance_uncommented world dt hfirst.gate_eq (¬ dt ≤ 0 ∧ ¬ 0 ≤ dt)
    rw [hfirst.script_eq] at hadvance
    rw [hfirst.level_eq]
    exact hadvance.bind fun last last' _ h => .ok (h.behind hfirst.events_eq _ _)

/-! ## Hosts -/

/-- What a host sees of a level after a call. Groups go by the lines that mean something. -/
structure Sight (α : Type) where
  events : List (Event α)
  words : Words
  clock : α
  tempo : α
  live : ℕ
  waitingForClear : Bool
  schedulers : ℕ

def Frame.sight (f : Frame α) : Sight α where
  events := f.events.map (Event.renumber (lineNumber f.level.script))
  words := f.level.words
  clock := f.level.clock
  tempo := f.level.tempo
  live := f.level.live
  waitingForClear := f.level.waitingForClear
  schedulers := f.level.activeSchedulers

/-- A host decides by what it has seen which call to make next. -/
abbrev Host (α : Type) := List (Sight α) → Call α

/-- Lets a host make calls, and gives all that it sees, call by call. -/
def play (l : Level α) (host : Host α) : ℕ → Except Fault (Level α × List (Sight α))
  | 0 => return (l, [])
  | n + 1 => do
    let (l, seen) ← l.play host n
    let frame ← l.call (host seen)
    return (frame.level, seen ++ [frame.sight])

/-- A frame whose length is neither this side of zero nor the other. -/
def Call.Unmeasured : Call α → Prop
  | .update _ dt => ¬ dt ≤ 0 ∧ ¬ 0 ≤ dt
  | .release => False

omit [Scalar α] in
theorem renumber_meaningful (script : List (Instruction α)) (e : Event α) :
    (e.renumber (lineNumber script)).renumber (lineNumber (meaningful script)) =
      e.renumber (lineNumber script) := by
  cases e with
  | spawn request =>
    simp [Event.renumber, SpawnRequest.renumber, GroupId.renumber, Script.lineNumber_meaningful]
  | _ => rfl

omit [Scalar α] in
theorem schedulers_uncommented (l : Level α) :
    l.uncommented.activeSchedulers = l.activeSchedulers := by
  simp [activeSchedulers, uncommented, transcribe]

omit [Scalar α] in
theorem Frame.Uncomments.sight_eq {f g : Frame α} (h : f.Uncomments script g) :
    g.sight = f.sight := by
  have hscript : g.level.script = meaningful script := by
    rw [h.level_eq, ← h.script_eq]
    rfl
  have hevents : g.events.map (Event.renumber (lineNumber g.level.script)) =
      f.events.map (Event.renumber (lineNumber f.level.script)) := by
    rw [hscript, h.events_eq, h.script_eq, List.map_map]
    exact List.map_congr_left fun e _ => renumber_meaningful script e
  unfold Frame.sight
  rw [hevents, h.level_eq, schedulers_uncommented]
  rfl

theorem call_uncommented (hstays : ∀ i ∈ l.script, i.isJump = false) (hgate : l.gate = 0)
    (c : Call α) : Matches c.Unmeasured (Frame.Uncomments l.script) (l.call c)
    (l.uncommented.call c) := by
  cases c with
  | update world dt => exact update_uncommented hstays hgate world dt
  | release => exact .ok ⟨rfl, hgate, rfl, rfl⟩

theorem play_uncommented (hstays : ∀ i ∈ l.script, i.isJump = false) (hgate : l.gate = 0)
    (host : Host α) (n : ℕ) : Matches (∃ seen, (host seen).Unmeasured)
      (fun p q => p.1.script = l.script ∧ p.1.gate = 0 ∧ q = (p.1.uncommented, p.2)) (l.play host n)
      (l.uncommented.play host n) := by
  induction n with
  | zero => exact .ok ⟨rfl, hgate, rfl⟩
  | succ n ih =>
    refine ih.bind ?_
    rintro ⟨l₁, seen⟩ _ - ⟨hscript, hgate, rfl⟩
    have hcall := call_uncommented (l := l₁) (hscript ▸ hstays) hgate (host seen)
    refine (hcall.mono (fun h => ⟨seen, h⟩) fun _ _ _ h => h).bind fun f g _ h =>
      .ok ⟨?_, h.gate_eq, ?_⟩
    · exact h.script_eq.trans hscript
    · rw [h.sight_eq, h.level_eq]

end Level

end Barrage
