import Barrage.Level.History
import Barrage.Proofs.Chance

/-! # What one instruction can do

Most instructions only tell the host something. The others jump, start groups or set the wait. Every
later statement about a step of the interpreter goes by these six outcomes and never opens an
instruction again. -/

namespace Barrage

namespace Script.Instruction

variable {α : Type}

def tells : Instruction α → Bool
  | goto _ | spawn _ | spawnRepeatedly .. | wait _ | waitUntilClear _ => false
  | _ => true

def isMusic : Instruction α → Bool
  | playMusic .. => true
  | _ => false

def group? : Instruction α → Option (Script.Group α)
  | spawn group => some group
  | spawnRepeatedly _ _ group => some group
  | _ => none

end Script.Instruction

namespace Level

open Script (Instruction)

variable {α : Type}

theorem draw_ok {β : Type} {l l' : Level α} {c : Chance β} {v : β} (h : l.draw c = .ok (v, l')) :
    ∃ words, c l.words = .ok (v, words) ∧ l' = { l with words } := by
  obtain ⟨⟨u, words⟩, hc, h⟩ := parts_of_ok h
  obtain ⟨rfl, rfl⟩ := Prod.mk.inj (Except.ok.inj h)
  exact ⟨words, hc, rfl⟩

variable [Scalar α] {l l' : Level α} {world : Vec α} {index : ℕ} {offset : α}

theorem resolve_ok {n : Number α} {v : α} (h : l.resolve n = .ok (v, l')) :
    ∃ words, n.resolve l.tempo l.words = .ok (v, words) ∧ l' = { l with words } := draw_ok h

structure Opens (tempo : α) (world : Vec α) (id : GroupId) (group : Script.Group α) (offset : α)
    (s : Spawner α) : Prop where
  id_eq : s.id = id
  members_eq : s.members = group.members
  reward_eq : s.reward = group.reward
  scheduler_eq : s.scheduler = Scheduler.ofDelay offset
  drawn : ∃ w w', groupDraws tempo world group w = .ok ((s.period, s.program, s.factors), w')

theorem startGroup_ok {id : GroupId} {group : Script.Group α}
    (h : l.startGroup world id group offset = .ok l') :
    ∃ words opened, l' = { l with words, spawners := l.spawners ++ opened } ∧
      ((group.members = [] ∧ opened = []) ∨
        (group.members ≠ [] ∧ ∃ s, opened = [s] ∧ Opens l.tempo world id group offset s)) := by
  unfold startGroup at h
  split at h
  · next hm =>
    cases h
    exact ⟨l.words, [], by simp, Or.inl ⟨List.isEmpty_iff.1 hm, rfl⟩⟩
  · next hm =>
    obtain ⟨⟨⟨period, program, factors⟩, m⟩, hd, h⟩ := parts_of_ok h
    obtain ⟨words, hc, rfl⟩ := draw_ok hd
    cases h
    refine ⟨words, [_], rfl, Or.inr ⟨fun he => hm (List.isEmpty_iff.2 he), _, rfl, ?_⟩⟩
    exact ⟨rfl, rfl, rfl, rfl, _, _, hc⟩

def Event.tempoAfter (tempo : α) : Event α → α
  | .playMusic track => track.tempo
  | _ => tempo

/-- All that an instruction can do to a level and in the eyes of its host. -/
inductive Outcome (l : Level α) (world : Vec α) (index : ℕ) (offset : α) :
    Instruction α → Frame α → Prop where
  | told {i : Instruction α} (tempo : α) (words : Words) {events : List (Event α)} :
      i.tells = true → (∀ e ∈ events, e.request? = none) → (i.isMusic = false → tempo = l.tempo) →
      events.foldl Event.tempoAfter l.tempo = tempo →
      Outcome l world index offset i ⟨{ l with tempo, words }, [], events⟩
  | goto (line : ℕ) :
      Outcome l world index offset (.goto line) ⟨{ l with gate := line - 1 }, [], []⟩
  | spawn {group : Script.Group α} {l' : Level α} :
      l.startGroup world ⟨index, 0⟩ group offset = .ok l' →
      Outcome l world index offset (.spawn group) ⟨l', [.started ⟨index, 0⟩ offset], []⟩
  | spawnRepeatedly {gap total : Number α} {group : Script.Group α} {g t w : α}
      {words₁ words₂ words₃ : Words} :
      gap.resolve l.tempo l.words = .ok (g, words₁) →
      total.resolve l.tempo words₁ = .ok (t, words₂) →
      group.window.resolve l.tempo words₂ = .ok (w, words₃) →
      Outcome l world index offset (.spawnRepeatedly gap total group)
        ⟨{ l with
            words := words₃
            repeaters := l.repeaters ++ [⟨index, w + g, t, group, Scheduler.ofDelay offset⟩] },
          [], []⟩
  | wait {time : Number α} {t : α} {words : Words} :
      time.resolve l.tempo l.words = .ok (t, words) →
      Outcome l world index offset (.wait time) ⟨{ l with words, wait := l.wait + t }, [], []⟩
  | waitUntilClear {modulus : Number α} {m : α} {words : Words} :
      modulus.resolve l.tempo l.words = .ok (m, words) →
      Outcome l world index offset (.waitUntilClear modulus)
        ⟨{ l with words, wait := m, waitingForClear := true }, [], []⟩

theorem execute_outcome {i : Instruction α} {f : Frame α}
    (h : l.execute world index offset i = .ok f) : Outcome l world index offset i f := by
  cases i with
  | comment => cases h; exact .told l.tempo l.words rfl (by simp) (fun _ => rfl) rfl
  | goto line => cases h; exact .goto line
  | goal => cases h; exact .told l.tempo l.words rfl (by simp [Event.request?]) (fun _ => rfl) rfl
  | background =>
    cases h; exact .told l.tempo l.words rfl (by simp [Event.request?]) (fun _ => rfl) rfl
  | renderMode =>
    cases h; exact .told l.tempo l.words rfl (by simp [Event.request?]) (fun _ => rfl) rfl
  | finish => cases h; exact .told l.tempo l.words rfl (by simp [Event.request?]) (fun _ => rfl) rfl
  | playMusic path volume tempo =>
    obtain ⟨⟨v, _⟩, hv, h⟩ := parts_of_ok h
    obtain ⟨words₁, -, rfl⟩ := resolve_ok hv
    obtain ⟨⟨t, _⟩, ht, h⟩ := parts_of_ok h
    obtain ⟨words₂, -, rfl⟩ := resolve_ok ht
    cases h
    split
    · exact .told t words₂ rfl (by simp [Event.request?]) nofun rfl
    · exact .told l.tempo words₂ rfl (by simp [Event.request?]) nofun rfl
  | fadeMusic time =>
    obtain ⟨⟨t, _⟩, ht, h⟩ := parts_of_ok h
    obtain ⟨words, -, rfl⟩ := resolve_ok ht
    cases h
    exact .told l.tempo words rfl (by simp [Event.request?]) (fun _ => rfl) rfl
  | tint red green blue =>
    obtain ⟨⟨r, _⟩, hr, h⟩ := parts_of_ok h
    obtain ⟨words₁, -, rfl⟩ := resolve_ok hr
    obtain ⟨⟨g, _⟩, hg, h⟩ := parts_of_ok h
    obtain ⟨words₂, -, rfl⟩ := resolve_ok hg
    obtain ⟨⟨b, _⟩, hb, h⟩ := parts_of_ok h
    obtain ⟨words₃, -, rfl⟩ := resolve_ok hb
    cases h
    exact .told l.tempo words₃ rfl (by simp [Event.request?]) (fun _ => rfl) rfl
  | text lines x y =>
    obtain ⟨⟨x, _⟩, hx, h⟩ := parts_of_ok h
    obtain ⟨words₁, -, rfl⟩ := resolve_ok hx
    obtain ⟨⟨y, _⟩, hy, h⟩ := parts_of_ok h
    obtain ⟨words₂, -, rfl⟩ := resolve_ok hy
    cases h
    exact .told l.tempo words₂ rfl (by simp [Event.request?]) (fun _ => rfl) rfl
  | spawn group =>
    obtain ⟨l₁, hs, h⟩ := parts_of_ok h
    cases h
    exact .spawn hs
  | spawnRepeatedly gap total group =>
    obtain ⟨⟨g, _⟩, hg, h⟩ := parts_of_ok h
    obtain ⟨words₁, kg, rfl⟩ := resolve_ok hg
    obtain ⟨⟨t, _⟩, ht, h⟩ := parts_of_ok h
    obtain ⟨words₂, kt, rfl⟩ := resolve_ok ht
    obtain ⟨⟨w, _⟩, hw, h⟩ := parts_of_ok h
    obtain ⟨words₃, kw, rfl⟩ := resolve_ok hw
    cases h
    exact .spawnRepeatedly kg kt kw
  | wait time =>
    obtain ⟨⟨t, _⟩, ht, h⟩ := parts_of_ok h
    obtain ⟨words, kt, rfl⟩ := resolve_ok ht
    cases h
    exact .wait kt
  | waitUntilClear modulus =>
    obtain ⟨⟨m, _⟩, hm, h⟩ := parts_of_ok h
    obtain ⟨words, km, rfl⟩ := resolve_ok hm
    cases h
    exact .waitUntilClear km

namespace Outcome

variable {i : Instruction α} {f : Frame α}

theorem script_eq (h : Outcome l world index offset i f) : f.level.script = l.script := by
  cases h with
  | spawn h => obtain ⟨_, _, rfl, -⟩ := startGroup_ok h; rfl
  | _ => rfl

theorem next_eq (h : Outcome l world index offset i f) : f.level.next = l.next := by
  cases h with
  | spawn h => obtain ⟨_, _, rfl, -⟩ := startGroup_ok h; rfl
  | _ => rfl

theorem clock_eq (h : Outcome l world index offset i f) : f.level.clock = l.clock := by
  cases h with
  | spawn h => obtain ⟨_, _, rfl, -⟩ := startGroup_ok h; rfl
  | _ => rfl

theorem tempo_eq (h : Outcome l world index offset i f) (hmusic : i.isMusic = false) :
    f.level.tempo = l.tempo := by
  cases h with
  | told _ _ _ _ htempo => exact htempo hmusic
  | spawn h => obtain ⟨_, _, rfl, -⟩ := startGroup_ok h; rfl
  | _ => rfl

theorem no_request (h : Outcome l world index offset i f) : ∀ e ∈ f.events, e.request? = none := by
  cases h with
  | told _ _ _ he => exact he
  | _ => simp

end Outcome

end Level

end Barrage
