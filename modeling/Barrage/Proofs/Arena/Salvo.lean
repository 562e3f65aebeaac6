import Barrage.Proofs.Arena.Defeats

/-! # Shots of the player

Shots meet the enemies one after the other: what a shot does to an enemy is there when the next one
comes. A shot that meets somebody is spent on one hit, and all others fly on. So hits are conserved:
there are as many of them as spent shots, each is paid once, and whoever is out of hit points in the
end was defeated by one of them. -/

namespace Barrage.Arena

open Level (Bounties)

variable {α : Type}

/-- A shot that has met an enemy: the enemy as the shot found it, and what came of it. -/
structure Strike (α : Type) where
  shot : Shot α
  target : Enemy α
  outcome : HitOutcome

def HitOutcome.isFatal : HitOutcome → Bool
  | defeated _ => true
  | absorbed | hurt | stageCleared _ => false

namespace Strike

def happening (x : Strike α) : Happening α := .hit x.target.id x.outcome

def pickup? (x : Strike α) : Option (Pickup α) :=
  x.outcome.reward.map fun kind => ⟨x.target.position, kind⟩

end Strike

def fallen (strikes : List (Strike α)) : List (Enemy α) :=
  (strikes.filter fun x => x.outcome.isFatal).map Strike.target

theorem fallen_cons (x : Strike α) (strikes : List (Strike α)) :
    fallen (x :: strikes) = fallen [x] ++ fallen strikes := by
  rw [fallen, fallen, fallen, ← List.map_append, ← List.filter_append]
  rfl

theorem fallen_ids (strikes : List (Strike α)) :
    (fallen strikes).map Enemy.id = (defeats (strikes.map Strike.happening)).map Prod.fst := by
  induction strikes with
  | nil => rfl
  | cons x rest ih =>
    obtain ⟨shot, target, outcome⟩ := x
    cases outcome with
    | defeated reward => exact congrArg (target.id :: ·) ih
    | _ => exact ih

def Enemy.isDown (e : Enemy α) : Bool := e.hitPoints = 0

variable [Scalar α] [Elementary α]

/-- Shots in their order, the enemies that they find, and the countdowns; then the shots that fly
on, the hits, the enemies that are left behind, and the countdowns. -/
inductive Salvo : List (Shot α) → List (Enemy α) → Bounties →
    List (Shot α) → List (Strike α) → List (Enemy α) → Bounties → Prop where
  | ends (enemies : List (Enemy α)) (bounties : Bounties) :
      Salvo [] enemies bounties [] [] enemies bounties
  | passes {s : Shot α} {rest kept : List (Shot α)} {strikes : List (Strike α)}
      {enemies left : List (Enemy α)} {bounties last : Bounties} :
      (s.owner = .player → ∀ e ∈ enemies, e.isHitAt s.position = false) →
      Salvo rest enemies bounties kept strikes left last →
      Salvo (s :: rest) enemies bounties (s :: kept) strikes left last
  | strikes {s : Shot α} {rest kept : List (Shot α)} {strikes : List (Strike α)}
      {before after left : List (Enemy α)} {e e' : Enemy α} {outcome : HitOutcome}
      {bounties next last : Bounties} :
      s.owner = .player → e.isHitAt s.position = true →
      (∀ other ∈ before, other.isHitAt s.position = false) →
      e.hit 1 bounties = (outcome, e', next) →
      Salvo rest (before ++ e' :: after) next kept strikes left last →
      Salvo (s :: rest) (before ++ e :: after) bounties kept (⟨s, e, outcome⟩ :: strikes) left last

/-! ## Resolving is a salvo -/

theorem hitFirst_none {position : Vec α} {bounties : Bounties} {enemies : List (Enemy α)}
    (h : hitFirst position bounties enemies = none) :
    ∀ e ∈ enemies, e.isHitAt position = false := by
  induction enemies with
  | nil => exact List.forall_mem_nil _
  | cons e rest ih =>
    unfold hitFirst at h
    by_cases hreach : e.isHitAt position = true
    · rw [if_pos hreach] at h
      cases h
    · rw [if_neg hreach, Option.map_eq_none_iff] at h
      exact List.forall_mem_cons.2 ⟨by simpa using hreach, ih h⟩

theorem resolveShots_passes {s : Shot α} {a : Arena α}
    (h : s.owner = .player → hitFirst s.position a.bounties a.enemies = none)
    (rest : List (Shot α)) : resolveShots (s :: rest) a =
      ⟨{ (resolveShots rest a).arena with shots := s :: (resolveShots rest a).arena.shots },
        (resolveShots rest a).happenings⟩ := by
  rw [resolveShots]
  by_cases howner : s.owner = .player
  · rw [if_pos howner, h howner]
  · rw [if_neg howner]

theorem resolveShots_strikes {s : Shot α} {a : Arena α} {outcome : HitOutcome} {target : Enemy α}
    {enemies : List (Enemy α)} {bounties : Bounties} (howner : s.owner = .player)
    (h : hitFirst s.position a.bounties a.enemies = some (outcome, target, enemies, bounties))
    (rest : List (Shot α)) :
    resolveShots (s :: rest) a =
      ⟨(resolveShots rest ({ a with enemies, bounties }.settle target outcome)).arena,
        .hit target.id outcome ::
          (resolveShots rest ({ a with enemies, bounties }.settle target outcome)).happenings⟩ := by
  rw [resolveShots, if_pos howner, h]

omit [Elementary α] in
theorem hit_keeps (e : Enemy α) (damage : ℕ) (bounties : Bounties) :
    (e.hit damage bounties).2.1.id = e.id ∧ (e.hit damage bounties).2.1.initialHitPoints =
      e.initialHitPoints := by
  obtain ⟨_, _, _, _, hhit, -⟩ := hit_frame e damage bounties
  rw [hhit]
  exact ⟨rfl, rfl⟩

omit [Elementary α] in
theorem settle_eq {a : Arena α} {s : Shot α} {e e' : Enemy α} {bounties next : Bounties}
    {outcome : HitOutcome} (hhit : e.hit 1 bounties = (outcome, e', next)) :
    a.settle e' outcome = { a with
      pickups := a.pickups ++ (Strike.mk s e outcome).pickup?.toList
      score := a.score + scorePerHitPoint *
        ((fallen [⟨s, e, outcome⟩]).map Enemy.initialHitPoints).sum } ∧
      e'.id = e.id := by
  obtain ⟨_, _, _, _, hframe, -⟩ := hit_frame e 1 bounties
  rw [hhit] at hframe
  obtain rfl : e' = _ := hframe
  refine ⟨?_, rfl⟩
  cases outcome with
  | absorbed | hurt => rfl
  | stageCleared reward | defeated reward => cases reward <;> rfl

theorem exists_salvo (shots : List (Shot α)) (a : Arena α) :
    ∃ kept strikes left last, Salvo shots a.enemies a.bounties kept strikes left last ∧
      resolveShots shots a =
        ⟨{ a with
            shots := kept
            enemies := left
            bounties := last
            pickups := a.pickups ++ strikes.filterMap Strike.pickup?
            score :=
              a.score + scorePerHitPoint * ((fallen strikes).map Enemy.initialHitPoints).sum },
          strikes.map Strike.happening⟩ := by
  induction shots generalizing a with
  | nil => exact ⟨[], [], a.enemies, a.bounties, .ends _ _, by simp [resolveShots, fallen]⟩
  | cons s rest ih =>
    by_cases hmisses : s.owner = .player → hitFirst s.position a.bounties a.enemies = none
    · obtain ⟨kept, strikes, left, last, hsalvo, hrest⟩ := ih a
      refine ⟨s :: kept, strikes, left, last,
        .passes (fun howner => hitFirst_none (hmisses howner)) hsalvo, ?_⟩
      rw [resolveShots_passes hmisses, hrest]
    · rw [Classical.not_imp] at hmisses
      obtain ⟨howner, hsome⟩ := hmisses
      obtain ⟨⟨outcome, e', enemies, next⟩, hfirst⟩ := Option.ne_none_iff_exists'.1 hsome
      obtain ⟨before, e, after, hbefore, rfl, hreach, hmissed, hhit⟩ := hitFirst_ok hfirst
      obtain ⟨hsettle, hid⟩ :=
        settle_eq (a := { a with enemies := before ++ e' :: after, bounties := next }) (s := s) hhit
      obtain ⟨kept, strikes, left, last, hsalvo, hrest⟩ :=
        ih ({ a with enemies := before ++ e' :: after, bounties := next }.settle e' outcome)
      refine ⟨kept, ⟨s, e, outcome⟩ :: strikes, left, last, ?_, ?_⟩
      · rw [hbefore]
        exact .strikes howner hreach hmissed hhit hsalvo
      · rw [resolveShots_strikes howner hfirst, hrest, hsettle, hid]
        have hpaid : a.pickups ++ (Strike.mk s e outcome).pickup?.toList ++
            strikes.filterMap Strike.pickup? =
            a.pickups ++ (Strike.mk s e outcome :: strikes).filterMap Strike.pickup? := by
          rw [List.append_assoc, List.filterMap_cons]
          cases (Strike.mk s e outcome).pickup? <;> rfl
        have hscored : a.score + scorePerHitPoint *
            ((fallen [⟨s, e, outcome⟩]).map Enemy.initialHitPoints).sum +
            scorePerHitPoint * ((fallen strikes).map Enemy.initialHitPoints).sum =
            a.score + scorePerHitPoint *
              ((fallen (⟨s, e, outcome⟩ :: strikes)).map Enemy.initialHitPoints).sum := by
          rw [fallen_cons _ strikes, List.map_append, List.sum_append, Nat.mul_add, Nat.add_assoc]
        rw [← hpaid, ← hscored]
        rfl

/-! ## What a salvo conserves -/

section

variable {shots kept : List (Shot α)} {strikes : List (Strike α)} {enemies left : List (Enemy α)}
  {bounties last : Bounties}

/-- Every shot flies on, in its place, or is spent on one hit. -/
theorem Salvo.shots_kept (h : Salvo shots enemies bounties kept strikes left last) :
    kept.Sublist shots ∧ (kept ++ strikes.map Strike.shot).Perm shots ∧
      ∀ x ∈ strikes, x.shot.owner = .player := by
  induction h with
  | ends => exact ⟨.refl _, .refl _, List.forall_mem_nil _⟩
  | passes _ _ ih =>
    obtain ⟨hkept, hperm, howners⟩ := ih
    exact ⟨hkept.cons_cons _, hperm.cons _, howners⟩
  | strikes howner _ _ _ _ ih =>
    obtain ⟨hkept, hperm, howners⟩ := ih
    exact ⟨hkept.cons _, List.perm_middle.trans (hperm.cons _),
      List.forall_mem_cons.2 ⟨howner, howners⟩⟩

/-- What a hit cannot change of an enemy, a salvo cannot change of the enemies. -/
theorem Salvo.map_eq {β : Type} {view : Enemy α → β}
    (hview : ∀ e bounties, view (e.hit 1 bounties).2.1 = view e)
    (h : Salvo shots enemies bounties kept strikes left last) :
    left.map view = enemies.map view := by
  induction h with
  | ends => rfl
  | passes _ _ ih => exact ih
  | @strikes _ _ _ _ _ _ _ e e' _ bounties _ _ _ _ _ hhit _ ih =>
    have htarget : view e' = view e := by rw [← hview e bounties, hhit]
    rw [ih, List.map_append, List.map_append, List.map_cons, List.map_cons, htarget]

omit [Elementary α] in
theorem isDown_hit {e e' : Enemy α} {outcome : HitOutcome} {next : Bounties}
    (hlives : 0 < e.hitPoints) (hfull : 0 < e.initialHitPoints)
    (hhit : e.hit 1 bounties = (outcome, e', next)) :
    e'.isDown = outcome.isFatal := by
  have hstruck := hit_struck e 1 bounties
  rw [hhit] at hstruck
  cases hstruck with
  | absorbed => exact decide_eq_false hlives.ne'
  | hurt _ hmore => exact decide_eq_false (Nat.sub_ne_zero_of_lt hmore)
  | stageCleared => exact decide_eq_false hfull.ne'
  | defeated => rfl

/-- Who is down in the end was down before, or has been defeated once. -/
theorem Salvo.fallen_perm {β : Type} {view : Enemy α → β}
    (hview : ∀ e bounties, view (e.hit 1 bounties).2.1 = view e)
    (h : Salvo shots enemies bounties kept strikes left last)
    (hfull : ∀ e ∈ enemies, 0 < e.initialHitPoints) :
    ((enemies.filter Enemy.isDown ++ fallen strikes).map view).Perm
      ((left.filter Enemy.isDown).map view) := by
  induction h with
  | ends => simp [fallen]
  | passes _ _ ih => exact ih hfull
  | @strikes s _ _ strikes before after left e e' outcome bounties _ _ _ hreach _ hhit _ ih =>
    have hinitial : e'.initialHitPoints = e.initialHitPoints := by
      have hkeeps := (hit_keeps e 1 bounties).2
      rwa [hhit] at hkeeps
    have htarget : view e' = view e := by rw [← hview e bounties, hhit]
    have hlives : 0 < e.hitPoints := by
      unfold Enemy.isHitAt at hreach
      simp only [Bool.and_eq_true, decide_eq_true_eq] at hreach
      exact hreach.1
    have hstands : e.isDown = false := decide_eq_false hlives.ne'
    -- the target has hit points left, so only this hit can have been its defeat
    have hdown := isDown_hit hlives (hfull e (by simp)) hhit
    have hrest := ih (by
      intro other hother
      simp only [List.mem_append, List.mem_cons] at hother hfull
      rcases hother with hother | rfl | hother
      · exact hfull other (.inl hother)
      · exact hinitial ▸ hfull e (.inr (.inl rfl))
      · exact hfull other (.inr (.inr hother)))
    refine List.Perm.trans ?_ hrest
    rw [fallen_cons]
    cases hfatal : outcome.isFatal with
    | false =>
      have hnone : fallen [Strike.mk s e outcome] = [] := by simp [fallen, hfatal]
      simp [hnone, hstands, hdown, hfatal]
    | true =>
      have hone : fallen [Strike.mk s e outcome] = [e] := by simp [fallen, hfatal]
      simp only [hone, List.filter_append, List.filter_cons, hstands, hdown, hfatal,
        List.map_append, List.map_cons, htarget, List.append_assoc, if_true, List.cons_append,
        Bool.false_eq_true, if_false]
      exact List.Perm.append_left _ List.perm_middle

end

/-! ## What the shots of the player do to an arena -/

structure Standing (a : Arena α) : Prop where
  lives : ∀ e ∈ a.enemies, 0 < e.hitPoints
  full : ∀ e ∈ a.enemies, 0 < e.initialHitPoints

/-- Some shots fly on as they are, each of the others has struck once, and the enemies that were
defeated have left, no others. `left` are the enemies as the last hit has left them behind, each in
its place. -/
structure Spends (a : Arena α) (kept : List (Shot α)) (strikes : List (Strike α))
    (left : List (Enemy α)) (turn : Turn α) : Prop where
  salvo : Salvo a.shots a.enemies a.bounties kept strikes left turn.arena.bounties
  kept_sublist : kept.Sublist a.shots
  shots_perm : (kept ++ strikes.map Strike.shot).Perm a.shots
  owners : ∀ x ∈ strikes, x.shot.owner = .player
  arena_eq : turn.arena = { a with
    shots := kept
    enemies := left.filter fun e => !e.isDown
    bounties := turn.arena.bounties
    pickups := a.pickups ++ strikes.filterMap Strike.pickup?
    score := a.score + scorePerHitPoint *
      ((left.filter Enemy.isDown).map Enemy.initialHitPoints).sum }
  happenings_eq : turn.happenings =
    strikes.map Strike.happening ++ (left.filter Enemy.isDown).map fun e =>
    .departed e.retire .defeated
  places : left.map Enemy.id = a.enemies.map Enemy.id
  removed : ((left.filter Enemy.isDown).map Enemy.id).Perm ((fallen strikes).map Enemy.id)

theorem Standing.spends {a : Arena α} (h : Standing a) :
    ∃ kept strikes left, Spends a kept strikes left a.resolvePlayerShots := by
  obtain ⟨kept, strikes, left, last, hsalvo, hshots⟩ := exists_salvo a.shots a
  obtain ⟨hkept, hspent, howners⟩ := hsalvo.shots_kept
  have hup : a.enemies.filter Enemy.isDown = [] :=
    List.filter_eq_nil_iff.2 fun e he => by simpa [Enemy.isDown] using (h.lives e he).ne'
  have hremoved : ∀ {β : Type} {view : Enemy α → β},
      (∀ e bounties, view (e.hit 1 bounties).2.1 = view e) →
      ((left.filter Enemy.isDown).map view).Perm ((fallen strikes).map view) := by
    intro β view hview
    have hperm := hsalvo.fallen_perm hview h.full
    rw [hup, List.nil_append] at hperm
    exact hperm.symm
  have hscore := (hremoved fun e bounties => (hit_keeps e 1 bounties).2).sum_nat
  refine ⟨kept, strikes, left, ?_⟩
  unfold resolvePlayerShots dismiss
  rw [hshots, ← hscore]
  exact ⟨hsalvo, hkept, hspent, howners, rfl, rfl, hsalvo.map_eq fun e bounties =>
    (hit_keeps e 1 bounties).1, hremoved fun e bounties => (hit_keeps e 1 bounties).1⟩

section

variable {a : Arena α} {kept : List (Shot α)} {strikes : List (Strike α)} {left : List (Enemy α)}
    {turn : Turn α}

theorem Spends.stays (h : Spends a kept strikes left turn) (hids : (a.enemies.map Enemy.id).Nodup) :
    turn.arena.enemies.map Enemy.id =
      (a.enemies.map Enemy.id).filter fun id => id ∉ (fallen strikes).map Enemy.id := by
  rw [h.arena_eq, ← h.places, List.filter_map]
  refine congrArg (List.map Enemy.id) (List.filter_congr fun e he => ?_)
  have hdown : e.isDown = true ↔ e.id ∈ (fallen strikes).map Enemy.id := by
    rw [← h.removed.mem_iff]
    constructor
    · exact fun hdown => List.mem_map_of_mem (List.mem_filter.2 ⟨he, hdown⟩)
    · intro hmem
      obtain ⟨other, hother, hid⟩ := List.mem_map.1 hmem
      obtain ⟨hleft, hdown⟩ := List.mem_filter.1 hother
      rw [← h.places] at hids
      rwa [← List.inj_on_of_nodup_map hids hleft he hid]
  rw [Bool.eq_iff_iff, Bool.not_eq_true', Function.comp_apply, decide_eq_true_iff, ← hdown,
    Bool.not_eq_true]

/-- Hits are conserved when the shots of the player are resolved: those that strike are spent on one
hit each, and who was not defeated stays in its place. -/
def Conserves (a : Arena α) : Prop :=
  ∃ kept strikes left, Spends a kept strikes left a.resolvePlayerShots ∧
    a.resolvePlayerShots.arena.enemies.map Enemy.id =
      (a.enemies.map Enemy.id).filter fun id => id ∉ (fallen strikes).map Enemy.id

theorem Standing.conserves (h : Standing a) (hids : (a.enemies.map Enemy.id).Nodup) :
    Conserves a := by
  obtain ⟨kept, strikes, left, hspends⟩ := h.spends
  exact ⟨kept, strikes, left, hspends, hspends.stays hids⟩

theorem Spends.standing (h : Spends a kept strikes left turn) (hstanding : Standing a) :
    Standing turn.arena := by
  have hinitial : left.map Enemy.initialHitPoints = a.enemies.map Enemy.initialHitPoints :=
    h.salvo.map_eq fun e bounties => (hit_keeps e 1 bounties).2
  rw [h.arena_eq]
  refine ⟨fun e he => ?_, fun e he => ?_⟩
  · have hup := (List.mem_filter.1 he).2
    simpa [Enemy.isDown, Nat.pos_iff_ne_zero] using hup
  · have hmem : e.initialHitPoints ∈ a.enemies.map Enemy.initialHitPoints :=
      hinitial ▸ List.mem_map_of_mem (List.mem_of_mem_filter he)
    obtain ⟨before, hbefore, heq⟩ := List.mem_map.1 hmem
    exact heq ▸ hstanding.full before hbefore

end

end Barrage.Arena
