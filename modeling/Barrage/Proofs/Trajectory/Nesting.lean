import Barrage.Trajectory.Token
import Mathlib

/-! # Nesting of blocks

The parentheses of a trajectory are checked in one pass that carries the number of open blocks. What
this pass accepts, and which problem it names, is said here by counts of tokens and by the first
token out of place. -/

namespace Barrage.Trajectory.Token

open Script (Problem)

variable {α : Type} {earlier later tokens : List (Token α)} {t : Token α} {problem : Problem}

def isOpening : Token α → Bool
  | opening => true
  | _ => false

def isClosing : Token α → Bool
  | closing => true
  | _ => false

def openings (tokens : List (Token α)) : ℕ := tokens.countP isOpening

def closings (tokens : List (Token α)) : ℕ := tokens.countP isClosing

def offence? (earlier : List (Token α)) : Token α → Option Problem
  | closing => if closings earlier < openings earlier then none else some .unexpectedClose
  | stage _ => if closings earlier < openings earlier then some .stageInsideBlock else none
  | _ => none

def Orderly (tokens : List (Token α)) : Prop :=
  ∀ earlier t, earlier ++ [t] <+: tokens → offence? earlier t = none

@[simp] theorem openings_append (earlier later : List (Token α)) :
    openings (earlier ++ later) = openings earlier + openings later := List.countP_append

@[simp] theorem closings_append (earlier later : List (Token α)) :
    closings (earlier ++ later) = closings earlier + closings later := List.countP_append

theorem orderly_nil : Orderly ([] : List (Token α)) := by
  intro earlier t h
  have hnil := List.prefix_nil.1 h
  simp at hnil

theorem orderly_snoc : Orderly (earlier ++ [t]) ↔ Orderly earlier ∧ offence? earlier t = none := by
  constructor
  · intro h
    refine ⟨fun p u hp => h p u (hp.trans (List.prefix_append _ _)), ?_⟩
    exact h earlier t (List.prefix_refl _)
  · rintro ⟨h, ht⟩ p u hp
    rcases List.prefix_concat_iff.1 hp with heq | hp
    · obtain ⟨rfl, hu⟩ := List.append_inj' heq rfl
      rw [List.singleton_inj.1 hu]
      exact ht
    · exact h p u hp

/-- A pass that has found nothing wrong carries the number of blocks that are open. -/
theorem checkNesting_behind (h : Orderly earlier) (rest : List (Token α)) :
    closings earlier ≤ openings earlier ∧
      checkNesting 0 (earlier ++ rest) = checkNesting
        (openings earlier - closings earlier) rest := by
  induction earlier using List.reverseRecOn generalizing rest with
  | nil => exact ⟨le_refl _, rfl⟩
  | append_singleton earlier t ih =>
    obtain ⟨h, ht⟩ := orderly_snoc.1 h
    obtain ⟨hle, hcheck⟩ := ih h (t :: rest)
    rw [List.append_assoc, List.singleton_append, hcheck, openings_append, closings_append]
    cases t with
    | opening =>
      refine ⟨Nat.le_succ_of_le hle, ?_⟩
      change _ = checkNesting (openings earlier + 1 - closings earlier) rest
      rw [Nat.sub_add_comm hle]
      rfl
    | closing =>
      have hlt : closings earlier < openings earlier := by
        by_contra hge
        simp [offence?, hge] at ht
      refine ⟨hlt, ?_⟩
      change _ = checkNesting (openings earlier - (closings earlier + 1)) rest
      rw [show openings earlier - closings earlier = openings earlier -
        (closings earlier + 1) + 1 by omega]
      rfl
    | stage name =>
      have hge : ¬ closings earlier < openings earlier := by
        intro hlt
        simp [offence?, hlt] at ht
      refine ⟨hle, ?_⟩
      change _ = checkNesting (openings earlier - closings earlier) rest
      rw [show openings earlier - closings earlier = 0 by omega]
      rfl
    | after | cancelAfter | lasting | linear | wave | move | shoot | boss =>
      refine ⟨hle, ?_⟩
      change _ = checkNesting (openings earlier - closings earlier) rest
      cases openings earlier - closings earlier <;> rfl

theorem checkNesting_of_orderly (h : Orderly tokens) :
    checkNesting 0 tokens =
      if openings tokens = closings tokens then .ok ()
      else .error (.blocksLeftOpen (openings tokens - closings tokens)) := by
  obtain ⟨hle, hcheck⟩ := checkNesting_behind h []
  rw [List.append_nil] at hcheck
  rw [hcheck]
  by_cases heq : openings tokens = closings tokens
  · simp [checkNesting, heq]
  · have hpos : openings tokens - closings tokens ≠ 0 := by omega
    simp [checkNesting, heq, hpos]

theorem checkNesting_of_offence (h : Orderly earlier) (ht : offence? earlier t = some problem) :
    checkNesting 0 (earlier ++ t :: later) = .error problem := by
  obtain ⟨hle, hcheck⟩ := checkNesting_behind h (t :: later)
  rw [hcheck]
  cases t with
  | closing =>
    by_cases hlt : closings earlier < openings earlier
    · simp [offence?, hlt] at ht
    · have hzero : openings earlier - closings earlier = 0 := by omega
      simp only [offence?, if_neg hlt, Option.some.injEq] at ht
      rw [hzero, ← ht]
      rfl
  | stage name =>
    by_cases hlt : closings earlier < openings earlier
    · have hpos : openings earlier - closings earlier ≠ 0 := by omega
      simp only [offence?, if_pos hlt, Option.some.injEq] at ht
      rw [← ht]
      simp [checkNesting, hpos]
    · simp [offence?, hlt] at ht
  | _ => simp [offence?] at ht

theorem orderly_or_offends (tokens : List (Token α)) :
    Orderly tokens ∨ ∃ earlier t later problem, tokens = earlier ++ t :: later ∧ Orderly earlier ∧
      offence? earlier t = some problem := by
  induction tokens using List.reverseRecOn with
  | nil => exact Or.inl orderly_nil
  | append_singleton tokens u ih =>
    rcases ih with h | ⟨earlier, t, later, problem, rfl, h, ht⟩
    · cases hu : offence? tokens u with
      | none => exact Or.inl (orderly_snoc.2 ⟨h, hu⟩)
      | some problem => exact Or.inr ⟨tokens, u, [], problem, rfl, h, hu⟩
    · exact Or.inr ⟨earlier, t, later ++ [u], problem, by simp, h, ht⟩

theorem checkNesting_ok_iff :
    checkNesting 0 tokens = .ok () ↔ Orderly tokens ∧ openings tokens = closings tokens := by
  constructor
  · intro hok
    rcases orderly_or_offends tokens with h | ⟨earlier, t, later, problem, rfl, h, ht⟩
    · rw [checkNesting_of_orderly h] at hok
      by_contra hne
      rw [if_neg fun heq => hne ⟨h, heq⟩] at hok
      cases hok
    · rw [checkNesting_of_offence h ht] at hok
      cases hok
  · rintro ⟨h, heq⟩
    rw [checkNesting_of_orderly h, if_pos heq]

/-- No prefix closes more blocks than it opens, and every stage begins where all blocks are
closed. -/
theorem orderly_iff :
    Orderly tokens ↔ (∀ p, p <+: tokens → closings p ≤ openings p) ∧
      ∀ p name, p ++ [stage name] <+: tokens → openings p = closings p := by
  constructor
  · intro h
    have hbalance : ∀ p, p <+: tokens → closings p ≤ openings p := by
      intro p hp
      exact (checkNesting_behind (fun q t hq => h q t (hq.trans hp)) []).1
    refine ⟨hbalance, fun p name hp => ?_⟩
    have hle := hbalance p ((List.prefix_append _ _).trans hp)
    have hstage := h p _ hp
    by_contra hne
    have hlt : closings p < openings p := by omega
    simp [offence?, hlt] at hstage
  · rintro ⟨hbalance, hstages⟩ p t hp
    cases t with
    | closing =>
      have hle := hbalance _ hp
      have hlt : closings p < openings p := by
        simpa [openings, closings, isOpening, isClosing] using hle
      simp [offence?, hlt]
    | stage name => simp [offence?, hstages p name hp]
    | _ => rfl

end Barrage.Trajectory.Token
