import Barrage.Random.Words
import Mathlib

/-! # Computations that fail or draw

What succeeds has succeeded in each of its parts. Where a list is gone through, each item has a
result of its own. -/

namespace Barrage

variable {β γ δ : Type}

/-- A computation that succeeds has succeeded in both of its parts. -/
theorem parts_of_ok {first : Except Fault β} {rest : β → Except Fault γ} {c : γ}
    (h : first >>= rest = .ok c) : ∃ b, first = .ok b ∧ rest b = .ok c := by
  cases first with
  | error fault => cases h
  | ok b => exact ⟨b, rfl, h⟩

theorem ok_of_map {x : Except Fault β} {view : β → γ} {c : γ}
    (h : x.map view = .ok c) : ∃ b, x = .ok b ∧ view b = c := by
  cases x with
  | error fault => cases h
  | ok b => exact ⟨b, rfl, Except.ok.inj h⟩

theorem error_of_map {x : Except Fault β} {view : β → γ} {fault : Fault}
    (h : x.map view = .error fault) : x = .error fault := by
  cases x with
  | error fault => exact congrArg Except.error (Except.error.inj h)
  | ok b => cases h

theorem draws_of_ok {first : Chance β} {rest : β → Chance γ} {w w' : Words} {c : γ}
    (h : (first >>= rest) w = .ok (c, w')) :
    ∃ b w₁, first w = .ok (b, w₁) ∧ rest b w₁ = .ok (c, w') := by
  obtain ⟨⟨b, w₁⟩, hb, h⟩ := parts_of_ok h
  exact ⟨b, w₁, hb, h⟩

theorem bind_of_draws {first : Chance β} {w w₁ : Words} {b : β} (h : first w = .ok (b, w₁))
    (rest : β → Chance γ) : (first >>= rest) w = rest b w₁ := by
  change Except.bind (first w) (fun p => rest p.1 p.2) = rest b w₁
  rw [h]
  rfl

theorem draws_mapM {f : β → Chance γ} {R : β → γ → Prop}
    (hf : ∀ b c w w', f b w = .ok (c, w') → R b c) {items : List β} {results : List γ}
    {w w' : Words} (h : items.mapM f w = .ok (results, w')) : List.Forall₂ R items results := by
  induction items generalizing results w w' with
  | nil =>
    obtain ⟨rfl, -⟩ := Prod.mk.inj (Except.ok.inj h)
    exact .nil
  | cons b items ih =>
    rw [List.mapM_cons] at h
    obtain ⟨c, w₁, hc, h⟩ := draws_of_ok h
    obtain ⟨rest, w₂, hrest, h⟩ := draws_of_ok h
    obtain ⟨rfl, -⟩ := Prod.mk.inj (Except.ok.inj h)
    exact .cons (hf b c w w₁ hc) (ih hrest)

theorem exists_draws {f : β → Chance γ} {R : β → γ → Prop}
    (hf : ∀ b w, ∃ c w', f b w = .ok (c, w') ∧ R b c) (items : List β) (w : Words) :
    ∃ results w', items.mapM f w = .ok (results, w') ∧ List.Forall₂ R items results := by
  induction items generalizing w with
  | nil => exact ⟨[], w, rfl, .nil⟩
  | cons b items ih =>
    obtain ⟨c, w₁, hc, hfirst⟩ := hf b w
    obtain ⟨rest, w₂, hrest, hpairs⟩ := ih w₁
    refine ⟨c :: rest, w₂, ?_, .cons hfirst hpairs⟩
    rw [List.mapM_cons, bind_of_draws hc, bind_of_draws hrest]
    rfl

theorem exists_partner {R : β → γ → Prop} {items : List β} {results : List γ}
    (h : List.Forall₂ R items results) {c : γ} (hc : c ∈ results) : ∃ b ∈ items, R b c := by
  induction h with
  | nil => cases hc
  | @cons b c' _ _ hfirst _ ih =>
    rcases List.mem_cons.1 hc with rfl | hc
    · exact ⟨b, List.mem_cons_self .., hfirst⟩
    · obtain ⟨b', hb', hpair⟩ := ih hc
      exact ⟨b', List.mem_cons_of_mem _ hb', hpair⟩

theorem parts_mapM {f : β → Except Fault γ} {items : List β} {results : List γ}
    (h : items.mapM f = .ok results) : List.Forall₂ (fun b c => f b = .ok c) items results := by
  induction items generalizing results with
  | nil =>
    obtain rfl := Except.ok.inj h
    exact .nil
  | cons b items ih =>
    rw [List.mapM_cons] at h
    obtain ⟨c, hc, h⟩ := parts_of_ok h
    obtain ⟨rest, hrest, h⟩ := parts_of_ok h
    obtain rfl := Except.ok.inj h
    exact .cons hc (ih hrest)

theorem forall₂_trans {R : β → γ → Prop} {S : γ → δ → Prop} {T : β → δ → Prop} {items : List β}
    {results : List γ} {last : List δ} (hpairs : ∀ b c d, R b c → S c d → T b d)
    (h : List.Forall₂ R items results) (k : List.Forall₂ S results last) :
    List.Forall₂ T items last := by
  induction h generalizing last with
  | nil =>
    cases k
    exact .nil
  | cons hfirst _ ih =>
    cases k with
    | cons kfirst krest => exact .cons (hpairs _ _ _ hfirst kfirst) (ih krest)

end Barrage
