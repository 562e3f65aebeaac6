import Barrage.Proofs.Level.Run

/-! # What a host can know of its level

A level counts the enemies that it has asked for, and its tempo is the one of the last track. A host
that hears every event can keep both as well. -/

namespace Barrage.Level

open Script (Instruction)

variable {α : Type}

def requests (events : List (Event α)) : ℕ := events.countP fun e => e.request?.isSome

theorem requests_append (earlier later : List (Event α)) :
    requests (earlier ++ later) = requests earlier + requests later := List.countP_append

theorem requests_eq_zero {events : List (Event α)} (h : ∀ e ∈ events, e.request? = none) :
    requests events = 0 :=
  List.countP_eq_zero.2 fun e he => by simp [h e he]

structure Tells (tempo : α) (live : ℕ) (f : Frame α) : Prop where
  tempo_eq : f.level.tempo = f.events.foldl Event.tempoAfter tempo
  live_eq : f.level.live = live + requests f.events

variable {tempo : α} {live : ℕ} {h f : Frame α}

theorem Tells.behind (hh : Tells tempo live h) (hf : Tells h.level.tempo h.level.live f)
    (journal : List (Entry α)) : Tells tempo live (f.behind journal h.events) := by
  constructor
  · rw [behind_level, behind_events, List.foldl_append, ← hh.tempo_eq]
    exact hf.tempo_eq
  · rw [behind_level, behind_events, requests_append, ← add_assoc, ← hh.live_eq]
    exact hf.live_eq

variable [Scalar α] {l : Level α} {world : Vec α} {index : ℕ} {dt offset : α}

theorem Outcome.tells {i : Instruction α} (hout : Outcome l world index offset i f) :
    Tells l.tempo l.live f := by
  cases hout with
  | told tempo words _ hsilent _ htempo => exact ⟨htempo.symm, by simp [requests_eq_zero hsilent]⟩
  | spawn hstart =>
    obtain ⟨words, opened, rfl, -⟩ := startGroup_ok hstart
    exact ⟨rfl, rfl⟩
  | goto | spawnRepeatedly | wait | waitUntilClear => exact ⟨rfl, rfl⟩

theorem tells_runDue {first : Frame α} (hclear : l.waitingForClear = false)
    (hrun : runDue world dt (l.script.drop l.next) l = .ok first) : Tells l.tempo l.live first := by
  have hinduction := runDue_induction (P := Tells l.tempo l.live) (h := ⟨l, [], []⟩)
    (fun h hP _ _ _ _ => ⟨hP.tempo_eq, hP.live_eq⟩)
    (fun h i offset first hP _ _ _ _ _ hout => hP.behind (h := h)
    ⟨hout.tells.tempo_eq, hout.tells.live_eq⟩ _) (List.prefix_refl _) hclear ⟨rfl, rfl⟩ hrun
  simpa [Frame.behind] using hinduction.1

theorem tells_advance (hrun : l.advanceSchedulers world dt = .ok f) : Tells l.tempo l.live f := by
  obtain ⟨l₁, journal, hstart, rfl⟩ := advance_cases hrun
  obtain ⟨⟨words, spawners, rfl⟩, -⟩ := startDue_frame hstart
  have hspawns : ∀ (requested : List (SpawnRequest α)) (tempo : α),
      (requested.map Event.spawn).foldl Event.tempoAfter tempo = tempo := by
    intro requested tempo
    induction requested with
    | nil => rfl
    | cons r requested ih => exact ih
  have hcount : ∀ requested : List (SpawnRequest α), requests (requested.map Event.spawn) =
      requested.length := by
    intro requested
    rw [requests, List.countP_map]
    exact List.countP_eq_length.2 fun _ _ => rfl
  exact ⟨(hspawns _ _).symm, by rw [hcount]⟩

theorem tells_update (hrun : l.update world dt = .ok f) : Tells l.tempo l.live f := by
  have hlevel : (l.enter dt).tempo = l.tempo ∧ (l.enter dt).live = l.live := by
    unfold enter
    split <;> exact ⟨rfl, rfl⟩
  rcases update_cases hrun with ⟨-, rfl⟩ | ⟨-, -, -, hadvance⟩ |
    ⟨-, -, first, last, hfirst, hlast, rfl⟩
  · exact ⟨rfl, rfl⟩
  · exact tells_advance (l := { l with clock := l.clock + dt }) hadvance
  · have htells := tells_runDue (l := l.enter dt) (enter_waitingForClear _ _)
      (by simpa using hfirst)
    rw [hlevel.1, hlevel.2] at htells
    exact htells.behind (tells_advance hlast) _

end Barrage.Level
