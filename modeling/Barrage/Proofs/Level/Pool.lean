import Barrage.Proofs.Firing
import Barrage.Proofs.Level.Outcome

/-! # Schedulers of a level

A spawner deals the members of its group one by one, and a repeater numbers its groups; whoever has
dealt the last one leaves its pool in that update. -/

namespace Barrage

namespace Script

def Member.hitPoints (m : Member) : ℕ :=
  match m.letter with
  | 'C' => 2
  | 'D' => 3
  | 'E' => 30
  | 'F' => 50
  | _ => 1

end Script

namespace Level

open Script (Instruction Member)

structure Card where
  member : ℕ
  enemyType : ℕ
  hitPoints : ℕ
  pattern : Pattern.Packed
  deriving DecidableEq

def card (index : ℕ) (m : Member) : Card := ⟨index, m.enemyType, m.hitPoints, m.pattern.compile⟩

def roster (members : List Member) : List Card := members.mapIdx card

@[simp] theorem length_roster (members : List Member) :
    (roster members).length = members.length := by
  simp [roster]

theorem take_roster_succ {members : List Member} {n : ℕ} {m : Member} (h : members[n]? = some m) :
    (roster members).take (n + 1) = (roster members).take n ++ [card n m] := by
  rw [List.take_add_one]
  simp [roster, h]

theorem card_mem_take {members : List Member} {n j : ℕ} (hn : j < n) (hj : j < members.length) :
    card j members[j] ∈ (roster members).take n := by
  refine List.mem_iff_getElem?.2 ⟨j, ?_⟩
  rw [List.getElem?_take_of_lt hn]
  simp [roster, hj]

variable {α : Type}

def SpawnRequest.card (q : SpawnRequest α) : Card := ⟨q.member, q.enemyType, q.hitPoints, q.pattern⟩

def groupOf (script : List (Instruction α)) (id : GroupId) : Option (Script.Group α) :=
  script[id.line]?.bind Instruction.group?

variable [Scalar α] {dt : α}

namespace Spawner

theorem card_request (s : Spawner α) (index : ℕ) (m : Member) :
    (s.request index m).card = card index m := by
  have hhits : (enemyStats m.letter : ℕ × α).1 = m.hitPoints := by
    unfold enemyStats Member.hitPoints
    split <;> simp_all
  simp [request, SpawnRequest.card, Level.card, hhits]

structure Deals (s : Spawner α) (t : Scheduler α) (spawned : Array (SpawnRequest α)) : Prop where
  count_le : s.scheduler.count ≤ t.count
  within : t.count ≤ s.members.length
  running_iff : t.running = true ↔ t.count < s.members.length
  own : ∀ q ∈ spawned.toList, q.group = s.id
  cards_eq : (roster s.members).take s.scheduler.count ++ spawned.toList.map SpawnRequest.card =
    (roster s.members).take t.count

theorem deals_fire {s : Spawner α} {t : Scheduler α} {spawned : Array (SpawnRequest α)}
    (hrun : t.running = true) (h : s.Deals t spawned) :
    s.Deals (t.fire s.rhythm spawned).1 (t.fire s.rhythm spawned).2 := by
  have hlt := h.running_iff.1 hrun
  obtain ⟨m, hm⟩ : ∃ m, s.members[t.count]? = some m := ⟨_, List.getElem?_eq_getElem hlt⟩
  have hfire : t.fire s.rhythm spawned =
      (⟨s.period, Scalar.max (t.window - t.delay) 0, t.total, t.count + 1,
        decide (t.count + 1 < s.members.length)⟩, spawned.push (s.request t.count m)) := by
    simp [Scheduler.fire, rhythm, hm]
  rw [hfire]
  constructor
  · exact Nat.le_succ_of_le h.count_le
  · exact hlt
  · simp
  · intro q hq
    rw [Array.toList_push, List.mem_append, List.mem_singleton] at hq
    rcases hq with hq | rfl
    · exact h.own q hq
    · rfl
  · rw [Array.toList_push, List.map_append, ← List.append_assoc, h.cards_eq, take_roster_succ hm]
    simp [card_request]

theorem deals_await {s : Spawner α} (dt : α) (hrun : s.scheduler.running = true)
    (hlt : s.scheduler.count < s.members.length) : s.Deals (s.scheduler.await dt) #[] := by
  refine ⟨le_refl _, hlt.le, ?_, by simp, by simp [Scheduler.await]⟩
  exact ⟨fun _ => hlt, fun _ => hrun⟩

theorem deals_update {s : Spawner α} (hdt : ¬ dt ≤ 0) (hrun : s.scheduler.running = true)
    (hlt : s.scheduler.count < s.members.length) :
    s.Deals (s.update dt).1.scheduler (s.update dt).2.toArray := by
  have h := Scheduler.update_induction (P := s.Deals) hdt hrun
    (fun t spawned _ hgoes ht => deals_fire hgoes ht) (deals_await dt hrun hlt)
  simpa [update] using h

theorem updateAll_eq (dt : α) (spawners : List (Spawner α)) :
    updateAll dt spawners =
      ((spawners.map fun s => (s.update dt).1).filter fun s => s.scheduler.running,
        spawners.flatMap fun s => (s.update dt).2) := by
  induction spawners with
  | nil => rfl
  | cons s rest ih =>
    simp only [updateAll, ih, List.map_cons, List.flatMap_cons, List.filter_cons]

end Spawner

namespace Repeater

structure Issues (r : Repeater α) (t : Scheduler α) (due : Array (Due α)) : Prop where
  count_eq : t.count = r.scheduler.count + due.size
  ids_eq : due.toList.map Due.id =
    (List.range' r.scheduler.count due.size).map fun round => ⟨r.line, round⟩
  own : ∀ d ∈ due.toList, d.group = r.group
  lag_eq : ∀ d ∈ due.toList, ∃ x, d.lag = Scalar.max x 0

theorem issues_fire {r : Repeater α} {t : Scheduler α} {due : Array (Due α)} (h : r.Issues t due) :
    r.Issues (t.fire r.rhythm due).1 (t.fire r.rhythm due).2 := by
  have hfire : (t.fire r.rhythm due).2 =
      due.push ⟨⟨r.line, t.count⟩, r.group, Scalar.max (t.window - t.delay) 0⟩ := by
    simp [Scheduler.fire, rhythm]
  have hcount : (t.fire r.rhythm due).1.count = t.count + 1 := rfl
  constructor
  · rw [hfire, hcount, Array.size_push, h.count_eq, Nat.add_assoc]
  · rw [hfire, Array.toList_push, Array.size_push, List.range'_concat, List.map_append,
      List.map_append, h.ids_eq, h.count_eq]
    simp
  all_goals
    intro d hd
    rw [hfire, Array.toList_push, List.mem_append, List.mem_singleton] at hd
    rcases hd with hd | rfl
  · exact h.own d hd
  · rfl
  · exact h.lag_eq d hd
  · exact ⟨_, rfl⟩

theorem issues_update {r : Repeater α} (hdt : ¬ dt ≤ 0) (hrun : r.scheduler.running = true) :
    r.Issues (r.update dt).1.scheduler (r.update dt).2.toArray := by
  have hstart : r.Issues (r.scheduler.await dt) #[] := ⟨rfl, rfl, by simp, by simp⟩
  have h := Scheduler.update_induction (P := r.Issues) hdt hrun
    (fun t due _ _ ht => issues_fire ht) hstart
  simpa [update] using h

theorem updateAll_eq (dt : α) (repeaters : List (Repeater α)) :
    updateAll dt repeaters =
      ((repeaters.map fun r => (r.update dt).1).filter fun r => r.scheduler.running,
        repeaters.flatMap fun r => (r.update dt).2) := by
  induction repeaters with
  | nil => rfl
  | cons r rest ih =>
    simp only [updateAll, ih, List.map_cons, List.flatMap_cons, List.filter_cons]

end Repeater

end Level

end Barrage
