import Barrage.Proofs.Level.Run
import Barrage.Proofs.Planned
import Barrage.Proofs.Worth

/-! # When the next line is due

The level keeps what the next line is short of, seen from the end of the frame. Together with the
time this is the moment at which the line is due, and neither frames nor lines without a wait change
that moment. -/

namespace Barrage

namespace Number

theorem rational_of_isRational {n : Number Exact} (h : n.isRational = true) : n.Rational := by
  cases n with
  | random => cases h
  | _ => exact h

theorem Rational.measured {n : Number Exact} (h : n.Rational) : n.Measured := by
  cases n with
  | random lo hi =>
    obtain ⟨⟨a, rfl⟩, b, rfl⟩ := h
    exact fun _ => rfl
  | _ => trivial

end Number

namespace Level

open Script (Instruction)

/-- Every number of the line is given in rational numbers, or is to be drawn between rational
ends. -/
def Rational (i : Instruction Exact) : Prop := ∀ n ∈ i.numbers, n.Rational

def delayOf (l : Level Exact) : Instruction Exact → ℚ
  | .wait time =>
    match time.resolve l.tempo l.words with
    | .ok (t, _) => t.value
    | .error _ => 0
  | _ => 0

theorem rational_of_checked {script : List (Instruction Exact)}
    (hchecked : ∀ i ∈ script, ∀ n ∈ i.numbers, n.isRational = true) : ∀ i ∈ script, Rational i :=
  fun i hi n hn => Number.rational_of_isRational (hchecked i hi n hn)

structure DueAt (d now : ℚ) (l : Level Exact) : Prop where
  clear : l.waitingForClear = false
  wait_eq : l.wait = .finite (d - now)

variable {d now q T tempo : ℚ} {l : Level Exact} {f : Frame Exact} {world : Vec Exact} {index : ℕ}
  {offset dt : Exact} {i : Instruction Exact}

theorem delayOf_of_tells (hi : i.tells = true) (l : Level Exact) : delayOf l i = 0 := by
  cases i with
  | wait => cases hi
  | _ => rfl

namespace DueAt

theorem of_eq {l' : Level Exact} (h : DueAt d now l)
    (hclear : l'.waitingForClear = l.waitingForClear) (hwait : l'.wait = l.wait) : DueAt d now l' :=
  ⟨hclear.trans h.clear, hwait.trans h.wait_eq⟩

theorem playing (h : DueAt d now l) (hw : l.waitingForClear = true) : l.live = 0 :=
  absurd (h.clear.symm.trans hw) Bool.false_ne_true

theorem enter (h : DueAt d now l) (q : ℚ) : DueAt d (now + q) (l.enter (.finite q)) := by
  refine ⟨enter_waitingForClear l _, ?_⟩
  have hwait : (l.enter (.finite q)).wait = l.wait - .finite q := by
    rw [Level.enter, if_neg (by simp [h.clear])]
  rw [hwait, h.wait_eq, Exact.finite_sub]
  congr 1
  ring

theorem due_iff (h : DueAt d now l) : l.wait ≤ 0 ↔ d ≤ now := by
  rw [h.wait_eq]
  simp

theorem lt_of_rests (h : DueAt d now l) (hrests : l.Rests) (hlt : l.next < l.script.length) :
    now < d := by
  rcases hrests with hwaits | hwait | hover
  · rw [h.clear] at hwaits
    cases hwaits
  · rw [h.due_iff] at hwait
    exact not_le.1 hwait
  · omega

/-- A line that is due within the frame runs at its time, and this lies in the frame by itself. -/
theorem clamped (h : DueAt d (T + q) l) (hT : T ≤ d) (hwait : l.wait ≤ 0)
    (hoffset : Scalar.clamp (.finite q + l.wait) 0 (.finite q) = .ok offset) :
    offset = .finite (d - T) ∧ .finite q + l.wait = offset ∧ d ≤ T + q := by
  have hdue : d ≤ T + q := h.due_iff.1 hwait
  have hsum : Exact.finite q + l.wait = .finite (d - T) := by
    rw [h.wait_eq, Exact.finite_add]
    congr 1
    ring
  rw [hsum, Exact.clamp_eq (by linarith) (by linarith)] at hoffset
  obtain rfl := Except.ok.inj hoffset
  exact ⟨rfl, hsum, hdue⟩

theorem execute (h : DueAt d now l) (hrational : Rational i) (htempo : l.tempo = .finite tempo)
    (hhold : ∀ modulus, i ≠ .waitUntilClear modulus)
    (hout : Outcome l.pass world index offset i f) : DueAt (d + delayOf l i) now f.level := by
  have keep (hzero : delayOf l i = 0) (hclear : f.level.waitingForClear = l.waitingForClear)
      (hwait : f.level.wait = l.wait) : DueAt (d + delayOf l i) now f.level := by
    rw [hzero, add_zero]
    exact h.of_eq hclear hwait
  cases hout with
  | told _ _ htells => exact keep (delayOf_of_tells htells l) rfl rfl
  | goto => exact keep rfl rfl rfl
  | spawn hstart =>
    obtain ⟨words, opened, rfl, -⟩ := startGroup_ok hstart
    exact keep rfl rfl rfl
  | spawnRepeatedly => exact keep rfl rfl rfl
  | @wait time t words htime =>
    have hdraw : time.resolve l.tempo l.words = .ok (t, words) := htime
    have hdelay : delayOf l (.wait time) = t.value := by
      simp only [delayOf, hdraw]
    rw [htempo] at hdraw
    obtain ⟨r, rfl⟩ := Number.resolve_finite (hrational _ (List.mem_singleton.2 rfl)) hdraw
    refine ⟨h.clear, ?_⟩
    change l.wait + .finite r = _
    rw [hdelay, h.wait_eq, Exact.finite_add]
    congr 1
    change d - now + r = d + r - now
    ring
  | waitUntilClear => exact absurd rfl (hhold _)

theorem advance (h : DueAt d now l) (hadv : l.advanceSchedulers world dt = .ok f) :
    DueAt d now f.level := by
  obtain ⟨⟨words, repeaters, spawners, live, hf⟩, -⟩ := advance_frame hadv
  exact h.of_eq (by rw [hf]) (by rw [hf])

end DueAt

/-- Music may change the tempo, but not to anything but a rational number. -/
theorem tempo_execute (hrational : Rational i) (htempo : ∃ tempo, l.tempo = .finite tempo)
    (hfirst : l.execute world index offset i = .ok f) : ∃ tempo, f.level.tempo = .finite tempo := by
  by_cases hmusic : i.isMusic = true
  · cases i with
    | playMusic path volume music =>
      obtain ⟨old, hold⟩ := htempo
      obtain ⟨⟨v, _⟩, hv, h⟩ := parts_of_ok hfirst
      obtain ⟨words₁, -, rfl⟩ := resolve_ok hv
      obtain ⟨⟨t, _⟩, ht, h⟩ := parts_of_ok h
      obtain ⟨words₂, hdraw, rfl⟩ := resolve_ok ht
      cases h
      split
      · change music.resolve l.tempo words₁ = _ at hdraw
        rw [hold] at hdraw
        exact Number.resolve_finite (hrational _ (by simp [Instruction.numbers])) hdraw
      · exact ⟨old, hold⟩
    | _ => cases hmusic
  · rw [(execute_outcome hfirst).tempo_eq (Bool.eq_false_iff.2 hmusic)]
    exact htempo

end Level

end Barrage
