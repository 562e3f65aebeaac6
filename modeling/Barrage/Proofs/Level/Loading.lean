import Barrage.Proofs.Level.Progress
import Barrage.Proofs.Scalar.Rounding
import Barrage.Script.Reader

/-! # What loading a script rules out

Reading a script looks at every number and at every block. What it lets pass plays on through every
history, but for one thing: the bounds of a random field are looked at one by one, and not the width
between them. -/

namespace Barrage

/-- Whatever is accepted satisfies `valid`. -/
def Admits {ε β : Type} (x : Except ε β) (valid : β → Prop) : Prop := ∀ b, x = .ok b → valid b

namespace Admits

variable {ε β γ : Type} {valid : β → Prop} {good : γ → Prop}

theorem of_ok {b : β} (h : valid b) : Admits (.ok b : Except ε β) valid := by
  rintro _ ⟨⟩
  exact h

theorem of_error (e : ε) : Admits (.error e : Except ε β) valid := nofun

theorem any (x : Except ε β) : Admits x fun _ => True := fun _ _ => trivial

theorem bind {x : Except ε β} {g : β → Except ε γ} (hx : Admits x valid)
    (hg : ∀ b, valid b → Admits (g b) good) : Admits (x >>= g) good := by
  intro c h
  cases x with
  | error e => cases h
  | ok b => exact hg b (hx b rfl) c h

theorem mapM {f : β → Except ε γ} (hf : ∀ b, Admits (f b) good) (items : List β) :
    Admits (items.mapM f) fun results => ∀ c ∈ results, good c := by
  induction items with
  | nil => exact of_ok (by simp)
  | cons b items ih =>
    rw [List.mapM_cons]
    refine (hf b).bind fun c hc => ih.bind fun results hresults => of_ok ?_
    simpa using ⟨hc, hresults⟩

end Admits

namespace Number

def Finite : Number Float32 → Prop
  | literal x | beats x | pi x | turn x => x.isFinite = true
  | random lo hi => lo.isFinite = true ∧ hi.isFinite = true

theorem finite_of_finite? {text : List Char} {x : Float32} (h : finite? text = some x) :
    x.isFinite = true :=
  (Option.filter_eq_some_iff.1 h).2

theorem finite_of_range? {text : List Char} {n : Number Float32} (h : range? text = some n) :
    n.Finite := by
  cases text with
  | nil => cases h
  | cons c text =>
    obtain ⟨⟨before, after⟩, -, h⟩ := Option.bind_eq_some_iff.1 h
    obtain ⟨lo, hlo, h⟩ := Option.bind_eq_some_iff.1 h
    obtain ⟨hi, hhi, h⟩ := Option.bind_eq_some_iff.1 h
    obtain rfl := Option.some.inj h
    exact ⟨finite_of_finite? hlo, finite_of_finite? hhi⟩

theorem finite_of_read? {text : List Char} {n : Number Float32} (h : read? text = some n) :
    n.Finite := by
  unfold read? at h
  split at h
  · exact finite_of_range? h
  all_goals
    obtain ⟨x, hx, rfl⟩ := Option.map_eq_some_iff.1 h
    exact finite_of_finite? hx

end Number

namespace Trajectory.Token

theorem number_finite (words : List (List Char)) (keyword : String) (i : ℕ) :
    Admits (number words keyword i) Number.Finite := by
  refine (Admits.any _).bind fun text _ => ?_
  split
  · next n hn => exact .of_ok (Number.finite_of_read? hn)
  · exact .of_error _

theorem read_finite (field : List Char) :
    Admits (read field) fun found => ∀ t ∈ found, ∀ n ∈ t.numbers, n.Finite := by
  have hnumber := number_finite (Text.words field) (String.ofList ((Text.words field).headD []))
  unfold read
  dsimp only
  split
  -- a token with one number
  iterate 3
    · refine (hnumber 1).bind fun n hn => .of_ok ?_
      simpa [numbers] using hn
  -- the parentheses
  iterate 2
    · exact .of_ok (by simp [numbers])
  · refine (hnumber 2).bind fun n hn => .of_ok ?_
    simpa [numbers] using hn
  -- the waves
  iterate 2
    · refine (hnumber 2).bind fun a ha => (hnumber 3).bind fun v hv => (hnumber 4).bind
        fun h hh => .of_ok ?_
      simpa [numbers] using ⟨ha, hv, hh⟩
  · refine (hnumber 1).bind fun x hx => (hnumber 2).bind fun y hy => .of_ok ?_
    simpa [numbers] using ⟨hx, hy⟩
  · refine (Admits.any _).bind fun text _ => (Admits.any _).bind fun p _ => .of_ok ?_
    simp [numbers]
  · refine (Admits.any _).bind fun name _ => .of_ok ?_
    simp [numbers]
  -- `boss` and unknown keywords
  all_goals exact .of_ok (by simp [numbers])

theorem readTrajectory_valid (fields : List (List Char)) :
    Admits (readTrajectory fields) fun tokens =>
      (∀ t ∈ tokens, ∀ n ∈ t.numbers, n.Finite) ∧ checkNesting 0 tokens = .ok () := by
  have hall : Admits (readAll fields) fun tokens => ∀ t ∈ tokens, ∀ n ∈ t.numbers, n.Finite := by
    refine (Admits.mapM read_finite fields).bind fun found hfound => .of_ok fun t ht => ?_
    obtain ⟨u, hu, htu⟩ := List.mem_filterMap.1 ht
    exact hfound u hu t htu
  refine hall.bind fun tokens htokens => ?_
  intro accepted h
  cases hnest : checkNesting 0 tokens with
  | error problem =>
    rw [hnest] at h
    cases h
  | ok u =>
    rw [hnest] at h
    obtain rfl := Except.ok.inj h
    exact ⟨htokens, hnest⟩

end Trajectory.Token

namespace Script

open Trajectory (Token)

structure Instruction.Valid (i : Instruction Float32) : Prop where
  finite : ∀ n ∈ i.numbers, n.Finite
  nested : ∀ group, i.group? = some group → Token.checkNesting 0 group.trajectory = .ok ()

structure Instruction.Checked (i : Instruction Float32) : Prop extends i.Valid where
  pays : ∀ group, i.group? = some group → group.reward.condition ≠ .count 0

theorem readNumber_finite (field : List Char) : Admits (readNumber field) Number.Finite := by
  unfold readNumber
  split
  · next n hn => exact .of_ok (Number.finite_of_read? hn)
  · exact .of_error _

theorem readReward_pays (field : List Char) :
    Admits (readReward field) fun r => r.condition ≠ .count 0 := by
  have hcondition : ∀ text condition, Condition.read? text = some condition →
      condition ≠ .count 0 := by
    intro text condition h
    unfold Condition.read? at h
    split at h
    case h_7 =>
      obtain ⟨n, -, rfl⟩ := Option.map_eq_some_iff.1 h
      by_cases hn : n = 0
      · rw [if_pos hn]
        exact nofun
      · rw [if_neg hn]
        exact fun heq => hn (Condition.count.inj heq)
    all_goals
      obtain rfl := Option.some.inj h
      exact nofun
  unfold readReward
  split
  · next reward hreward =>
    cases field with
    | nil => cases hreward
    | cons kind text =>
      obtain ⟨condition, hread, rfl⟩ := Option.map_eq_some_iff.1 hreward
      exact .of_ok (hcondition text condition hread)
  · exact .of_error _

theorem Group.read_checked (window members reward side factors : List Char)
    (trajectory : List (List Char)) :
    Admits (Group.read window members reward side factors trajectory) fun group =>
      (∀ n ∈ group.numbers, n.Finite) ∧ Token.checkNesting 0 group.trajectory = .ok () ∧
        group.reward.condition ≠ .count 0 := by
  refine (readNumber_finite window).bind fun w hw => (Admits.any _).bind fun _ _ => ?_
  refine (readReward_pays reward).bind fun r hr => (Admits.mapM readNumber_finite _).bind
    fun fs hfs => ?_
  refine (Token.readTrajectory_valid trajectory).bind fun tokens htokens =>
    .of_ok ⟨?_, htokens.2, hr⟩
  intro n hn
  rcases List.mem_cons.1 hn with rfl | hn
  · exact hw
  · rcases List.mem_append.1 hn with hn | hn
    · obtain ⟨t, ht, hn⟩ := List.mem_flatMap.1 hn
      exact htokens.1 t ht n hn
    · exact hfs n hn

theorem Instruction.Checked.plain {i : Instruction Float32} (h : ∀ n ∈ i.numbers, n.Finite)
    (hgroup : i.group? = none) : i.Checked := by
  refine ⟨⟨h, fun group hg => ?_⟩, fun group hg => ?_⟩
  all_goals
    rw [hgroup] at hg
    cases hg

theorem Instruction.Checked.numberless {i : Instruction Float32} (h : i.numbers = [])
    (hgroup : i.group? = none) : i.Checked := by
  refine .plain ?_ hgroup
  intro n hn
  rw [h] at hn
  cases hn

theorem Instruction.Checked.group {i : Instruction Float32} {group : Group Float32}
    (hgroup : i.group? = some group) (hfinite : ∀ n ∈ i.numbers, n.Finite)
    (hnested : Token.checkNesting 0 group.trajectory = .ok ())
    (hpays : group.reward.condition ≠ .count 0) : i.Checked := by
  refine ⟨⟨hfinite, fun other hother => ?_⟩, fun other hother => ?_⟩
  all_goals
    rw [hgroup] at hother
    obtain rfl := Option.some.inj hother
  · exact hnested
  · exact hpays

theorem readMusic_checked (args : List (List Char)) :
    Admits (readMusic args) Instruction.Checked := by
  cases args with
  | nil => exact .of_error _
  | cons command rest =>
    unfold readMusic
    dsimp only
    split
    · next path volume more _ =>
      have hdefault : defaultTrackTempo.Finite := by
        change Float32.isFinite 120 = true
        decide +kernel
      have hplay : ∀ tempo : Number Float32, tempo.Finite → Admits (do
          return .playMusic (String.ofList path) (← readNumber volume) tempo)
            Instruction.Checked := by
        intro tempo ht
        refine (readNumber_finite volume).bind fun v hv => .of_ok (.plain ?_ rfl)
        simpa [Instruction.numbers] using ⟨hv, ht⟩
      cases more with
      | nil => exact hplay _ hdefault
      | cons tempo more => exact (readNumber_finite tempo).bind hplay
    · exact .of_error _
    · refine (readNumber_finite _).bind fun t ht => .of_ok ?_
      exact .plain (by simpa [Instruction.numbers] using ht) rfl
    · exact .of_error _
    · exact .of_ok (.numberless rfl rfl)

theorem readInstruction_checked (keyword : String) (args : List (List Char)) :
    Admits (readInstruction keyword args) Instruction.Checked := by
  unfold readInstruction
  split
  · split
    · exact (Admits.any _).bind fun _ _ => .of_ok (.numberless rfl rfl)
    · exact .of_error _
  · split
    · exact (Admits.any _).bind fun _ _ => .of_ok (.numberless rfl rfl)
    · exact .of_error _
  · split
    · exact .of_ok (.numberless rfl rfl)
    · exact .of_error _
  · split
    · refine (Admits.any _).bind fun _ _ => (Admits.any _).bind fun _ _ => ?_
      exact .of_ok (.numberless rfl rfl)
    · exact .of_error _
  · exact readMusic_checked args
  · split
    · refine (readNumber_finite _).bind fun r hr => (readNumber_finite _).bind fun g hg => ?_
      refine (readNumber_finite _).bind fun b hb => .of_ok (.plain ?_ rfl)
      simpa [Instruction.numbers] using ⟨hr, hg, hb⟩
    · exact .of_error _
  · split
    · refine (readNumber_finite _).bind fun x hx => (readNumber_finite _).bind fun y hy => ?_
      exact .of_ok (.plain (by simpa [Instruction.numbers] using ⟨hx, hy⟩) rfl)
    · exact .of_error _
  · split
    · refine (Group.read_checked _ _ _ _ _ _).bind fun group hgroup => .of_ok ?_
      obtain ⟨hfinite, hnested, hpays⟩ := hgroup
      exact .group rfl hfinite hnested hpays
    · exact .of_error _
  · split
    · refine (readNumber_finite _).bind fun gap hgap => (readNumber_finite _).bind
        fun total htotal => ?_
      refine (Group.read_checked _ _ _ _ _ _).bind fun group hgroup => .of_ok ?_
      obtain ⟨hfinite, hnested, hpays⟩ := hgroup
      exact .group rfl (by simpa [Instruction.numbers] using ⟨hgap, htotal, hfinite⟩) hnested hpays
    · exact .of_error _
  · split
    · refine (readNumber_finite _).bind fun t ht => .of_ok (.plain ?_ rfl)
      simpa [Instruction.numbers] using ht
    · exact .of_error _
  · split
    · refine (readNumber_finite _).bind fun t ht => .of_ok (.plain ?_ rfl)
      simpa [Instruction.numbers] using ht
    · exact .of_error _
  all_goals exact .of_ok (.numberless rfl rfl)

theorem readLine_checked (line : ℕ) (text : List Char) :
    Admits (Instruction.readLine line text) Instruction.Checked := by
  have hread : Admits (Instruction.read text) Instruction.Checked := by
    unfold Instruction.read
    split
    · exact .of_ok (.numberless rfl rfl)
    · exact readInstruction_checked _ _
  unfold Instruction.readLine
  split
  · next i hi => exact .of_ok (hread i hi)
  · exact .of_error _

theorem readFrom_checked (line : ℕ) (texts : List (List Char)) :
    Admits (readFrom line texts) fun script => ∀ i ∈ script, i.Checked := by
  induction texts generalizing line with
  | nil => exact .of_ok (by simp)
  | cons text rest ih =>
    refine (readLine_checked line text).bind fun i hi => (ih (line + 1)).bind
      fun script hscript => .of_ok ?_
    simpa using ⟨hi, hscript⟩

theorem read_checked (source : String) :
    Admits (read source) fun script => ∀ i ∈ script, i.Checked := by
  unfold read
  exact readFrom_checked 1 _

theorem read_valid (source : String) : Admits (read source) fun script => ∀ i ∈ script, i.Valid :=
  fun script hread i hi => (read_checked source script hread i hi).toValid

end Script

namespace Level

open Scalar (Ordered)

theorem zero_le_of_finite {dt : Float32} (hfinite : dt.isFinite = true) (h : ¬ dt ≤ 0) :
    0 ≤ dt := by
  have hdefined : Scalar.Defined dt := Single.defined_iff.2 (Single.isNaN_of_isFinite hfinite)
  refine Ordered.le_of_not_lt Ordered.zero_defined hdefined fun hlt => h ?_
  obtain ⟨hdt, hzero, hrank⟩ := Single.lt_iff.1 hlt
  exact Single.le_iff.2 ⟨hdt, hzero, hrank.le⟩

def Wide (n : Number Float32) : Prop :=
  ∃ lo hi, n = .random lo hi ∧ lo.isFinite = true ∧ hi.isFinite = true ∧ lo < hi ∧
    (hi - lo).isFinite = false

theorem wide_of_not_measured {n : Number Float32} (hfinite : n.Finite) (h : ¬ n.Measured) :
    Wide n := by
  cases n with
  | random lo hi =>
    obtain ⟨hlt, hwidth⟩ := Classical.not_imp.1 h
    exact ⟨lo, hi, rfl, hfinite.1, hfinite.2, hlt, Bool.eq_false_iff.2 hwidth⟩
  | _ => exact absurd trivial h

/-- A script that was read has finite numbers and nested blocks only. It plays on through every
history, unless one of its random fields is too wide to draw from. -/
theorem loaded_levels_play_on {source : String} {script : List (Script.Instruction Float32)}
    (hread : Script.read source = .ok script) :
    (∀ i ∈ script, i.Valid) ∧
    ∀ (tempo : Float32) (words : Words) (calls : List (Call Float32)),
      (∀ world dt, .update world dt ∈ calls → dt.isFinite = true) →
      (∃ f, (start script tempo words).run calls = .ok f) ∨
        (start script tempo words).run calls = .error .unboundedRange ∧
        ∃ i ∈ script, ∃ n ∈ i.numbers, Wide n := by
  have hvalid := Script.read_valid source script hread
  refine ⟨hvalid, fun tempo words calls hcalls => ?_⟩
  have hsure : Sure (∀ i ∈ script, Measured i.numbers) ((start script tempo words).run calls) :=
    run_sure id tempo words fun world dt hmem => zero_le_of_finite (hcalls world dt hmem)
  refine hsure.imp_right fun ⟨hwide, hfault⟩ => ⟨hfault, ?_⟩
  unfold Measured at hwide
  push Not at hwide
  obtain ⟨i, hi, n, hn, hwide⟩ := hwide
  exact ⟨i, hi, n, hn, wide_of_not_measured ((hvalid i hi).finite n hn) hwide⟩

theorem level_with_a_range_plays_on :
    Script.read "wait  R1-2\nend" = .ok [.wait (.random 1 2), .finish] ∧
    ∃ f, (start [.wait (.random 1 2), .finish] (120 : Float32) (Words.cycle #[7])).run
      [.update ⟨320, 180⟩ 0.1, .release, .update ⟨320, 180⟩ 2] = .ok f := by
  have hread : Script.read "wait  R1-2\nend" = .ok [.wait (.random 1 2), .finish] := by
    decide +kernel
  have hcalls : ∀ world dt, .update world dt ∈
      ([.update ⟨320, 180⟩ 0.1, .release, .update ⟨320, 180⟩ 2] : List (Call Float32)) →
      dt.isFinite = true := by
    intro world dt hmem
    simp only [List.mem_cons, List.not_mem_nil, or_false, Call.update.injEq, reduceCtorEq, false_or]
      at hmem
    rcases hmem with ⟨-, rfl⟩ | ⟨-, rfl⟩ <;> decide +kernel
  refine ⟨hread, ?_⟩
  rcases (loaded_levels_play_on hread).2 120 (Words.cycle #[7]) _ hcalls with
    hok | ⟨-, i, hi, n, hn, hwide⟩
  · exact hok
  · have hmeasured : ∀ i ∈ [Script.Instruction.wait (.random 1 2), .finish],
        ∀ n ∈ i.numbers, (n : Number Float32).Measured := by
      decide +kernel
    obtain ⟨lo, hi', rfl, -, -, hlt, hwidth⟩ := hwide
    exact absurd (hmeasured i hi _ hn hlt) (Bool.eq_false_iff.1 hwidth)

/-- Both bounds are finite, so the line is read, and the level stops when it comes to it. -/
theorem level_with_a_wide_range_stops :
    Script.read "wait  R-3e38-3e38\nend" = .ok [.wait (.random (-3e38) 3e38), .finish] ∧
    (start [.wait (.random (-3e38) 3e38), .finish] (120 : Float32) (Words.cycle #[])).run
      [.update ⟨320, 180⟩ 0.1] = .error .unboundedRange := by
  refine ⟨by decide +kernel, ?_⟩
  have hview :
      ((start [.wait (.random (-3e38) 3e38), .finish] (120 : Float32) (Words.cycle #[])).run
      [.update ⟨320, 180⟩ 0.1]).map (fun _ => ()) = .error .unboundedRange := by
    decide +kernel
  exact error_of_map hview

end Level

end Barrage
