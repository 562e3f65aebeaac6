import Barrage.Proofs.Arena.Aftermath
import Barrage.Proofs.Game.Ending

/-! # What a step costs

A step takes at most one life, and none while the player recovers. It takes at most one hit point
from an enemy that a hit makes invincible, and none while it is so. Several shots may meet the same
enemy in one step: what the first of them leaves behind absorbs the others. -/

namespace Barrage.Arena

variable {α : Type}

def Happening.isBlow (id : ℕ) : Happening α → Bool
  | hit target outcome => target = id && outcome ≠ .absorbed
  | lifeLost | collected _ | departed .. => false

/-- How many hits on the enemy were not absorbed. -/
def blows (id : ℕ) (happenings : List (Happening α)) : ℕ := happenings.countP (Happening.isBlow id)

theorem blows_append (id : ℕ) (earlier later : List (Happening α)) :
    blows id (earlier ++ later) = blows id earlier + blows id later := List.countP_append

theorem blows_of_quiet (id : ℕ) {happenings : List (Happening α)} (h : ∀ o ∈ happenings, o.Quiet) :
    blows id happenings = 0 := by
  refine List.countP_eq_zero.2 fun o ho => ?_
  cases o with
  | hit => exact (h _ ho).elim
  | _ => exact Bool.false_ne_true

theorem blows_departed (id : ℕ) (enemies : List (Enemy α)) (cause : Cause) :
    blows id (enemies.map fun e => .departed e.retire cause) = 0 := by
  refine List.countP_eq_zero.2 fun o ho => ?_
  obtain ⟨e, -, rfl⟩ := List.mem_map.1 ho
  exact Bool.false_ne_true

theorem blows_cons (id : ℕ) (x : Strike α) (strikes : List (Strike α)) :
    blows id ((x :: strikes).map Strike.happening) =
      blows id [x.happening] + blows id (strikes.map Strike.happening) :=
  blows_append id [x.happening] _

variable [Scalar α]

/-! ## Enemies -/

structure Enemy.Weathers (n : ℕ) (e e' : Enemy α) : Prop where
  id_eq : e'.id = e.id
  invincibility_eq : e'.invincibility = e.invincibility
  spared : n = 0 → e'.invincibleFor = e.invincibleFor ∧ e'.hitPoints = e.hitPoints
  open_before : 0 < n → ¬ 0 < e.invincibleFor ∧ e.hitPoints ≠ 0
  closed_after : 0 < n → e'.invincibleFor = e.invincibility ∨ e'.hitPoints = 0
  once : 0 < e.invincibility → n ≤ 1

namespace Enemy.Weathers

variable {m n : ℕ} {e e' e'' : Enemy α}

theorem refl (e : Enemy α) : e.Weathers 0 e :=
  ⟨rfl, rfl, fun _ => ⟨rfl, rfl⟩, fun h => absurd h (lt_irrefl 0), fun h => absurd h (lt_irrefl 0),
    fun _ => Nat.zero_le 1⟩

theorem trans (h : e.Weathers m e') (k : e'.Weathers n e'') : e.Weathers (m + n) e'' := by
  refine ⟨k.id_eq.trans h.id_eq, k.invincibility_eq.trans h.invincibility_eq, fun hnone => ?_,
    fun hsome => ?_, fun hsome => ?_, fun hprotects => ?_⟩
  · obtain ⟨hm, hn⟩ := Nat.add_eq_zero_iff.1 hnone
    obtain ⟨hfor, hpoints⟩ := h.spared hm
    obtain ⟨kfor, kpoints⟩ := k.spared hn
    exact ⟨kfor.trans hfor, kpoints.trans hpoints⟩
  · by_cases hm : m = 0
    · obtain ⟨hfor, hpoints⟩ := h.spared hm
      rw [← hfor, ← hpoints]
      exact k.open_before (by omega)
    · exact h.open_before (Nat.pos_of_ne_zero hm)
  · by_cases hn : n = 0
    · obtain ⟨kfor, kpoints⟩ := k.spared hn
      rw [kfor, kpoints]
      exact h.closed_after (by omega)
    · rw [← h.invincibility_eq]
      exact k.closed_after (Nat.pos_of_ne_zero hn)
  · have hm := h.once hprotects
    have hn := k.once (h.invincibility_eq ▸ hprotects)
    by_contra hmore
    obtain ⟨hopen, hlives⟩ := k.open_before (by omega)
    rcases h.closed_after (by omega) with hfor | hpoints
    · exact hopen (hfor ▸ hprotects)
    · exact hlives hpoints

/-- Whom its last blow has left alive is as invincible as a blow makes it. -/
theorem invincibleFor_eq (h : e.Weathers n e') (hlives : e'.hitPoints ≠ 0) :
    e'.invincibleFor = if 0 < n then e.invincibility else e.invincibleFor := by
  split
  · next hstruck => exact (h.closed_after hstruck).resolve_right hlives
  · next hspared => exact (h.spared (Nat.eq_zero_of_not_pos hspared)).1

end Enemy.Weathers

theorem hit_weathers {e e' : Enemy α} {bounties next : Level.Bounties} {outcome : HitOutcome}
    (s : Shot α) (hhit : e.hit 1 bounties = (outcome, e', next)) :
    e.Weathers (blows e.id [(Strike.mk s e outcome).happening]) e' := by
  have hstruck := hit_struck e 1 bounties
  rw [hhit] at hstruck
  have hone : ∀ outcome ≠ HitOutcome.absorbed,
      blows e.id [(Strike.mk s e outcome).happening] = 1 := by
    intro outcome hblow
    simp [blows, Strike.happening, Happening.isBlow, hblow]
  cases hstruck with
  | absorbed =>
    have hnone : blows e.id [(Strike.mk s e .absorbed).happening] = 0 := by
      simp [blows, Strike.happening, Happening.isBlow]
    exact hnone ▸ .refl e
  | hurt hopen hmore =>
    rw [hone .hurt nofun]
    exact ⟨rfl, rfl, nofun, fun _ => ⟨hopen, by omega⟩, fun _ => .inl rfl, fun _ => le_rfl⟩
  | stageCleared hopen hlives =>
    rw [hone (.stageCleared _) nofun]
    exact ⟨rfl, rfl, nofun, fun _ => ⟨hopen, hlives⟩, fun _ => .inl rfl, fun _ => le_rfl⟩
  | defeated hopen hlives =>
    rw [hone (.defeated _) nofun]
    exact ⟨rfl, rfl, nofun, fun _ => ⟨hopen, hlives⟩, fun _ => .inr rfl, fun _ => le_rfl⟩

variable [Elementary α]

section

variable {shots kept : List (Shot α)} {strikes : List (Strike α)} {enemies left : List (Enemy α)}
  {bounties last : Level.Bounties}

theorem Salvo.targets (h : Salvo shots enemies bounties kept strikes left last) :
    ∀ x ∈ strikes, x.target.id ∈ enemies.map Enemy.id := by
  induction h with
  | ends => exact List.forall_mem_nil _
  | passes _ _ ih => exact ih
  | @strikes _ _ _ _ before after _ e e' _ bounties _ _ _ _ _ hhit _ ih =>
    have hid : e'.id = e.id := by
      have hkeeps := (hit_keeps e 1 bounties).1
      rwa [hhit] at hkeeps
    have hids : (before ++ e' :: after).map Enemy.id = (before ++ e :: after).map Enemy.id := by
      rw [List.map_append, List.map_append, List.map_cons, List.map_cons, hid]
    rw [hids] at ih
    exact List.forall_mem_cons.2 ⟨List.mem_map_of_mem (by simp), ih⟩

/-- Each enemy comes through the blows that were meant for it. -/
theorem Salvo.weathers (h : Salvo shots enemies bounties kept strikes left last)
    (hids : (enemies.map Enemy.id).Nodup) :
    List.Forall₂ (fun e e' => e.Weathers (blows e.id (strikes.map Strike.happening)) e')
      enemies left := by
  induction h with
  | ends => exact List.forall₂_same.2 fun e _ => .refl e
  | passes _ _ ih => exact ih hids
  | @strikes s _ _ strikes before after left e e' outcome _ _ _ _ _ _ hhit _ ih =>
    have hfirst := hit_weathers s hhit
    have hsame : (before ++ e' :: after).map Enemy.id = (before ++ e :: after).map Enemy.id := by
      rw [List.map_append, List.map_append, List.map_cons, List.map_cons, hfirst.id_eq]
    have hother : ∀ other ∈ before ++ after,
        other.Weathers (blows other.id [(Strike.mk s e outcome).happening]) other := by
      intro other hmem
      have hne : e.id ≠ other.id := by
        rw [List.map_append, List.map_cons] at hids
        have hnot := (List.nodup_cons.1 (List.nodup_middle.1 hids)).1
        rw [← List.map_append] at hnot
        exact fun heq => hnot (heq ▸ List.mem_map_of_mem hmem)
      have hnone : blows other.id [(Strike.mk s e outcome).happening] = 0 := by
        simp [blows, Strike.happening, Happening.isBlow, hne]
      exact hnone ▸ .refl other
    have hstep : List.Forall₂ (fun e₁ e₂ => e₁.Weathers
        (blows e₁.id [(Strike.mk s e outcome).happening]) e₂)
        (before ++ e :: after) (before ++ e' :: after) := by
      refine List.rel_append (List.forall₂_same.2 fun other hmem => ?_)
        (.cons hfirst (List.forall₂_same.2 fun other hmem => ?_))
      · exact hother other (List.mem_append_left _ hmem)
      · exact hother other (List.mem_append_right _ hmem)
    refine forall₂_trans (fun e₁ e₂ e₃ h₁ h₂ => ?_) hstep (ih (hsame ▸ hids))
    rw [blows_cons]
    exact h₁.trans (h₁.id_eq ▸ h₂)

end

theorem resolve_weathers (a : Arena α) (hids : (a.enemies.map Enemy.id).Nodup) (dt : α) :
    (∀ id, 0 < blows id (a.resolve dt).happenings → id ∈ a.enemies.map Enemy.id) ∧
    (∀ e ∈ a.enemies, ∃ e', e.Weathers (blows e.id (a.resolve dt).happenings) e') ∧
    ∀ e' ∈ (a.resolve dt).arena.enemies, ∃ e ∈ a.enemies,
      e.Weathers (blows e.id (a.resolve dt).happenings) e' ∧ e'.hitPoints ≠ 0 := by
  obtain ⟨_, strikes, left, _, hsalvo, hshots⟩ := exists_salvo a.shots a
  have hweathers := hsalvo.weathers hids
  have hblows : ∀ id, blows id (a.resolve dt).happenings = blows id
      (strikes.map Strike.happening) := by
    intro id
    obtain ⟨later, leaving, hhappenings, hquiet, -⟩ := resolve_happenings a dt
    have hbeaten : blows id ((resolveShots a.shots a).arena.dismiss .defeated
      fun e => e.hitPoints = 0).happenings = 0 :=
      blows_departed id _ .defeated
    rw [hhappenings, blows_append, blows_append, blows_of_quiet id hquiet, blows_departed,
      resolvePlayerShots, blows_append, hbeaten, hshots, add_zero, add_zero, add_zero]
  refine ⟨fun id hstruck => ?_, fun e he => ?_, fun e' he' => ?_⟩
  · rw [hblows] at hstruck
    obtain ⟨o, ho, hblow⟩ := List.countP_pos_iff.1 hstruck
    obtain ⟨x, hx, rfl⟩ := List.mem_map.1 ho
    have hid : x.target.id = id := of_decide_eq_true (Bool.and_eq_true_iff.1 hblow).1
    exact hid ▸ hsalvo.targets x hx
  · obtain ⟨e', -, hpair⟩ := exists_partner hweathers.flip he
    exact ⟨e', by rwa [hblows]⟩
  · rw [resolve_enemies] at he'
    obtain ⟨e₁, he₁, rfl⟩ := List.mem_map.1 (List.mem_of_mem_filter he')
    rw [resolvePlayerShots, hshots] at he₁
    obtain ⟨hleft, hlives⟩ := List.mem_filter.1 he₁
    obtain ⟨e, he, h⟩ := exists_partner hweathers hleft
    have hlives : e₁.hitPoints ≠ 0 := by simpa using hlives
    refine ⟨e, he, ?_, hlives⟩
    rw [hblows]
    exact ⟨h.id_eq, h.invincibility_eq, h.spared, h.open_before, h.closed_after, h.once⟩

/-! ## The player -/

/-- Lives are a matter of the shots of enemies. -/
theorem resolve_losses (a : Arena α) (dt : α) :
    losses (a.resolve dt).happenings =
      losses a.resolvePlayerShots.arena.resolveEnemyShots.happenings := by
  obtain ⟨_, strikes, _, _, -, hshots⟩ := exists_salvo a.shots a
  have hhits : losses a.resolvePlayerShots.happenings = 0 := by
    rw [resolvePlayerShots, hshots]
    refine List.countP_eq_zero.2 fun o ho => ?_
    rcases List.mem_append.1 ho with ho | ho <;> obtain ⟨_, -, rfl⟩ :=
      List.mem_map.1 ho <;> exact Bool.false_ne_true
  have hpickups : ∀ b : Arena α, losses (b.stepPickups dt).happenings = 0 := by
    intro b
    refine List.countP_eq_zero.2 fun o ho => ?_
    obtain ⟨_, -, rfl⟩ := List.mem_map.1 ho
    exact Bool.false_ne_true
  have hdrops : ∀ b : Arena α, losses (b.dropOffscreen dt).happenings = 0 := by
    intro b
    refine List.countP_eq_zero.2 fun o ho => ?_
    obtain ⟨_, -, rfl⟩ := List.mem_map.1 ho
    exact Bool.false_ne_true
  simp only [resolve, Turn.andThen, losses_append, hhits, hpickups, hdrops, zero_add, add_zero]

/-- One shot of an enemy costs a life, and only when the player is not recovering; then the player
recovers. -/
theorem resolve_toll (a : Arena α) (dt : α) :
    losses (a.resolve dt).happenings ≤ 1 ∧
    (0 < losses (a.resolve dt).happenings → ¬ 0 < a.player.recovering) ∧
    (a.resolve dt).arena.player.recovering =
      if 0 < losses (a.resolve dt).happenings then recovery else a.player.recovering := by
  obtain ⟨_, _, _, _, _, hfirst, -⟩ := resolvePlayerShots_frame a
  have hplayer : a.resolvePlayerShots.arena.player = a.player := by rw [hfirst]
  have hlater : (a.resolve dt).arena.player =
    a.resolvePlayerShots.arena.resolveEnemyShots.arena.player := rfl
  rw [resolve_losses, hlater, ← hplayer]
  unfold resolveEnemyShots
  dsimp only
  split
  · exact ⟨Nat.zero_le 1, fun h => absurd h (lt_irrefl 0), (if_neg (lt_irrefl 0)).symm⟩
  · next hmeets =>
    refine ⟨le_rfl, fun _ => ?_, rfl⟩
    simp only [Bool.or_eq_true, decide_eq_true_eq, not_or] at hmeets
    exact hmeets.1

end Barrage.Arena
