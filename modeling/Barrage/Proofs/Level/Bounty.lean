import Barrage.Level.Bounty
import Mathlib

/-! # What a group pays

A countdown is a number that goes down by one with each defeat, so what the next defeat pays depends
on the number of defeats only. The bounties of a level keep one countdown for each group that has
been asked for; where the groups of the beaten enemies are known, so are all countdowns and all that
has been paid. -/

namespace Barrage

namespace Countdown

def after (c : Countdown) : ℕ → Countdown
  | 0 => c
  | defeats + 1 => (c.after defeats).defeat.2

/-- What a defeat pays that comes after `defeats` others. -/
def fee (c : Countdown) (defeats : ℕ) : Option Char := (c.after defeats).defeat.1

theorem after_eq (c : Countdown) (defeats : ℕ) :
    c.after defeats = if c.pays then { c with remaining := c.remaining - defeats } else c := by
  induction defeats with
  | zero => simp [after]
  | succ defeats ih =>
    rw [after, ih]
    by_cases hpays : c.pays = true
    · simp [defeat, hpays, sub_sub]
    · simp [defeat, hpays]

theorem fee_eq (c : Countdown) (defeats : ℕ) :
    c.fee defeats = if c.pays = true ∧ c.remaining ≤ defeats + 1 then some c.kind else none := by
  rw [fee, after_eq]
  by_cases hpays : c.pays = true
  · have hdue : c.remaining - defeats - 1 ≤ 0 ↔ c.remaining ≤ defeats + 1 := by omega
    simp [defeat, hpays, hdue]
  · simp [defeat, hpays]

/-- From the defeat on that brings it to zero, a countdown pays every time. -/
theorem payments {c : Countdown} (hpays : c.pays = true) {threshold : ℕ}
    (hremaining : c.remaining = threshold) (defeats : ℕ) :
    ((List.range defeats).countP fun i => c.fee i = some c.kind) =
      defeats + 1 - max threshold 1 := by
  induction defeats with
  | zero => simp
  | succ defeats ih =>
    have hfee : c.fee defeats = some c.kind ↔ threshold ≤ defeats + 1 := by
      rw [fee_eq, hremaining]
      norm_cast
      simp [hpays]
    rw [List.range_succ, List.countP_append, ih, List.countP_singleton]
    by_cases hdue : threshold ≤ defeats + 1
    · simp only [hfee, hdue, decide_true, if_true]
      omega
    · simp only [hfee, hdue, decide_false, Bool.false_eq_true, if_false]
      omega

end Countdown

/-- How often a group of so many members is to have paid when so many of them have been defeated. -/
def Condition.paid (members defeats : ℕ) : Condition → ℕ
  | all => if defeats = members then 1 else 0
  | each => defeats
  | count n => if n = 0 then 0 else defeats + 1 - min n members
  | never => 0

theorem Reward.payments (r : Reward) {members defeats : ℕ} (hmembers : 0 < members)
    (hle : defeats ≤ members) (hcount : r.condition ≠ .count 0) :
    ((List.range defeats).countP fun i => (r.countdown members).fee i = some r.kind) =
      r.condition.paid members defeats := by
  obtain ⟨kind, condition⟩ := r
  cases condition with
  | all =>
    refine (Countdown.payments (c := Reward.countdown ⟨kind, .all⟩ members) rfl rfl defeats).trans
      ?_
    change _ = if defeats = members then 1 else 0
    split_ifs <;> omega
  | each =>
    have hremaining : (Reward.countdown ⟨kind, .each⟩ members).remaining = (1 : ℕ) := rfl
    refine (Countdown.payments (c := Reward.countdown ⟨kind, .each⟩ members) rfl hremaining
      defeats).trans ?_
    simp [Condition.paid]
  | count n =>
    have hn : n ≠ 0 := fun h => hcount (h ▸ rfl)
    have hremaining : (Reward.countdown ⟨kind, .count n⟩ members).remaining =
        (min n members : ℕ) := by
      simp [Reward.countdown]
    refine (Countdown.payments (c := Reward.countdown ⟨kind, .count n⟩ members) rfl hremaining
      defeats).trans ?_
    rw [Condition.paid, if_neg hn]
    omega
  | never => simp [Countdown.fee_eq, Reward.countdown, Condition.paid]

namespace Level

namespace Bounties

theorem find?_enroll {α : Type} (b : Bounties) (q : SpawnRequest α) (id : GroupId) :
    (b.enroll q).find? id =
      (b.find? id).or (if q.group = id then some (q.reward.countdown q.groupSize) else .none) := by
  unfold enroll
  by_cases hknown : (b.find? q.group).isSome = true
  · rw [if_pos hknown]
    by_cases hid : q.group = id
    · rw [← hid, Option.or_of_isSome hknown]
    · rw [if_neg hid, Option.or_none]
  · rw [if_neg hknown]
    by_cases hid : q.group = id
    · have hnone : b.find? id = .none := by rw [← hid]; simpa using hknown
      rw [hnone, if_pos hid]
      simp [find?, hid]
    · rw [if_neg hid, Option.or_none]
      simp [find?, hid]

theorem find?_set (b : Bounties) (group : GroupId) (c : Countdown) (id : GroupId) :
    (b.set group c).find? id = if id = group then (b.find? id).map fun _ => c else b.find? id := by
  obtain ⟨countdowns⟩ := b
  unfold set find?
  induction countdowns with
  | nil => simp
  | cons first rest ih =>
    obtain ⟨other, d⟩ := first
    simp only [List.map_cons, List.find?_cons] at ih ⊢
    by_cases hother : other = group
    · subst hother
      by_cases hid : other = id
      · simp [hid]
      · simpa [hid] using ih
    · by_cases hid : other = id
      · subst hid
        simp [hother]
      · simpa [hother, hid] using ih

end Bounties

variable {α : Type}

def groupAt (asked : List (SpawnRequest α)) (id : ℕ) : Option GroupId :=
  asked[id]?.map SpawnRequest.group

/-- Defeats of members of a group, out of those of all enemies. -/
def defeatsOf (asked : List (SpawnRequest α)) (beaten : List (ℕ × Option Char)) (group : GroupId) :
    List (ℕ × Option Char) := beaten.filter fun x => groupAt asked x.1 = some group

def terms (asked : List (SpawnRequest α)) (group : GroupId) : Option Countdown :=
  (asked.find? fun q => q.group = group).map fun q => q.reward.countdown q.groupSize

/-- Every group stands where its own defeats have brought it, and has paid what they have earned. -/
structure Accounts (asked : List (SpawnRequest α)) (beaten : List (ℕ × Option Char))
    (b : Bounties) : Prop where
  known : ∀ x ∈ beaten, x.1 < asked.length
  standing : ∀ group, b.find? group =
    (terms asked group).map fun c => c.after (defeatsOf asked beaten group).length
  paid : ∀ group c, terms asked group = some c →
    (defeatsOf asked beaten group).map Prod.snd =
      (List.range (defeatsOf asked beaten group).length).map c.fee

variable {asked : List (SpawnRequest α)} {beaten : List (ℕ × Option Char)} {b : Bounties}

theorem accounts_start : Accounts ([] : List (SpawnRequest α)) [] .none :=
  ⟨List.forall_mem_nil _, fun _ => rfl, fun _ _ _ => rfl⟩

theorem terms_of_groupAt {id : ℕ} {group : GroupId} (h : groupAt asked id = some group) :
    ∃ c, terms asked group = some c := by
  obtain ⟨q, hq, hgroup⟩ := Option.map_eq_some_iff.1 h
  have hfound : (asked.find? fun q => q.group = group).isSome = true :=
    List.find?_isSome.2 ⟨q, List.mem_of_getElem? hq, by simpa using hgroup⟩
  obtain ⟨first, hfirst⟩ := Option.isSome_iff_exists.1 hfound
  exact ⟨_, by rw [terms, hfirst]; rfl⟩

theorem defeatsOf_of_no_terms {group : GroupId} (h : terms asked group = none) :
    defeatsOf asked beaten group = [] := by
  refine List.filter_eq_nil_iff.2 fun x _ hx => ?_
  obtain ⟨c, hc⟩ := terms_of_groupAt (of_decide_eq_true hx)
  rw [h] at hc
  cases hc

theorem terms_snoc (asked : List (SpawnRequest α)) (q : SpawnRequest α) (group : GroupId) :
    terms (asked ++ [q]) group =
      (terms asked group).or (if q.group = group then some (q.reward.countdown q.groupSize)
        else none) := by
  unfold terms
  rw [List.find?_append, List.find?_singleton]
  cases asked.find? fun q => q.group = group with
  | some first => rfl
  | none => by_cases hgroup : q.group = group <;> simp [hgroup]

theorem defeatsOf_snoc {id : ℕ} {group : GroupId} (hgroup : groupAt asked id = some group)
    (fee : Option Char) (other : GroupId) : defeatsOf asked (beaten ++ [(id, fee)]) other =
      defeatsOf asked beaten other ++ if other = group then [(id, fee)] else [] := by
  unfold defeatsOf
  rw [List.filter_append]
  by_cases heq : other = group
  · simp [hgroup, heq]
  · simp [hgroup, heq, Ne.symm heq]

theorem Accounts.enroll (h : Accounts asked beaten b) (q : SpawnRequest α) :
    Accounts (asked ++ [q]) beaten (b.enroll q) := by
  have hdefeats : ∀ group, defeatsOf (asked ++ [q]) beaten group =
      defeatsOf asked beaten group := by
    intro group
    refine List.filter_congr fun x hx => ?_
    rw [groupAt, List.getElem?_append_left (h.known x hx)]
    rfl
  refine ⟨?_, fun group => ?_, fun group c hc => ?_⟩
  · intro x hx
    have hlt := h.known x hx
    rw [List.length_append]
    omega
  · rw [Bounties.find?_enroll, h.standing, terms_snoc, hdefeats]
    cases hold : terms asked group with
    | some c => rfl
    | none =>
      rw [defeatsOf_of_no_terms hold]
      by_cases hgroup : q.group = group <;> simp [hgroup, Countdown.after]
  · rw [hdefeats]
    cases hold : terms asked group with
    | some c' =>
      rw [terms_snoc, hold] at hc
      obtain rfl := Option.some.inj hc
      exact h.paid group c' hold
    | none => rw [defeatsOf_of_no_terms hold]; rfl

theorem Accounts.defeat (h : Accounts asked beaten b) {id : ℕ} {group : GroupId}
    (hgroup : groupAt asked id = some group) :
    Accounts asked (beaten ++ [(id, (b.defeat group).1)]) (b.defeat group).2 := by
  obtain ⟨c, hc⟩ := terms_of_groupAt hgroup
  have hstands : b.find? group = some (c.after (defeatsOf asked beaten group).length) := by
    rw [h.standing, hc]
    rfl
  have hdefeat : b.defeat group = (c.fee (defeatsOf asked beaten group).length,
      b.set group (c.after ((defeatsOf asked beaten group).length + 1))) := by
    unfold Bounties.defeat
    rw [hstands]
    rfl
  rw [hdefeat]
  refine ⟨?_, fun other => ?_, fun other c' hc' => ?_⟩
  · intro x hx
    rcases List.mem_append.1 hx with hx | hx
    · exact h.known x hx
    · obtain ⟨q, hq, -⟩ := Option.map_eq_some_iff.1 hgroup
      rw [List.mem_singleton.1 hx]
      exact (List.getElem?_eq_some_iff.1 hq).1
  · rw [Bounties.find?_set, defeatsOf_snoc hgroup]
    by_cases heq : other = group
    · rw [if_pos heq, if_pos heq, heq, hstands, hc, List.length_append]
      rfl
    · rw [if_neg heq, if_neg heq, List.append_nil, h.standing]
  · rw [defeatsOf_snoc hgroup]
    by_cases heq : other = group
    · subst heq
      obtain rfl := Option.some.inj (hc.symm.trans hc')
      rw [if_pos rfl, List.map_append, h.paid _ _ hc, List.length_append, List.length_singleton,
        List.range_succ, List.map_append]
      rfl
    · rw [if_neg heq, List.append_nil]
      exact h.paid other c' hc'

end Level

end Barrage
