import Barrage.Proofs.Level.Outcome
import Barrage.Script.Instruction
import Barrage.Trajectory.Compile

/-! # Ranges that can be measured

A number fails only where it is to be drawn from a range of infinite width, and then it fails
always. Nothing that is built from numbers adds another reason. -/

namespace Barrage

def Trajectory.Token.numbers {α : Type} : Trajectory.Token α → List (Number α)
  | after time | cancelAfter time | lasting time => [time]
  | linear _ speed => [speed]
  | wave _ _ start speed amplitude => [start, speed, amplitude]
  | move x y => [x, y]
  | opening | closing | shoot _ | stage _ | boss => []

namespace Script

variable {α : Type}

def Group.numbers (g : Group α) : List (Number α) :=
  g.window :: (g.trajectory.flatMap Trajectory.Token.numbers ++ g.factors)

def Instruction.numbers : Instruction α → List (Number α)
  | playMusic _ volume tempo => [volume, tempo]
  | fadeMusic time | wait time => [time]
  | tint red green blue => [red, green, blue]
  | text _ x y => [x, y]
  | spawn group => group.numbers
  | spawnRepeatedly gap total group => gap :: total :: group.numbers
  | waitUntilClear modulus => [modulus]
  | comment | goto _ | goal .. | background _ | renderMode .. | finish => []

end Script

/-- Has a result if `measured` holds. Otherwise it may also have stopped at a range of infinite
width. -/
def Sure {β : Type} (measured : Prop) (x : Except Fault β) : Prop :=
  (∃ b, x = .ok b) ∨ ¬ measured ∧ x = .error .unboundedRange

namespace Sure

variable {β γ : Type} {measured : Prop}

theorem of_ok (b : β) : Sure measured (.ok b) := Or.inl ⟨b, rfl⟩

theorem bind {x : Except Fault β} {g : β → Except Fault γ} (hx : Sure measured x)
    (hg : ∀ b, x = .ok b → Sure measured (g b)) : Sure measured (x >>= g) := by
  rcases hx with ⟨b, rfl⟩ | ⟨hwide, rfl⟩
  · exact hg b rfl
  · exact Or.inr ⟨hwide, rfl⟩

theorem result {x : Except Fault β} (hx : Sure measured x) (h : measured) : ∃ b, x = .ok b :=
  hx.resolve_right fun hwide => hwide.1 h

end Sure

def Chance.Sure {β : Type} (measured : Prop) (c : Chance β) : Prop :=
  ∀ w, Barrage.Sure measured (c w)

namespace Chance

variable {β γ : Type} {measured : Prop}

theorem sure_pure (v : β) : Chance.Sure measured (pure v) := fun w => .of_ok (v, w)

theorem Sure.bind {c : Chance β} {g : β → Chance γ} (hc : c.Sure measured)
    (hg : ∀ v, (g v).Sure measured) : (c >>= g).Sure measured :=
  fun w => Barrage.Sure.bind (hc w) fun p _ => hg p.1 p.2

theorem sure_foldlM {f : γ → β → Chance γ} {items : List β}
    (h : ∀ x ∈ items, ∀ v, (f v x).Sure measured) (v : γ) : (items.foldlM f v).Sure measured := by
  induction items generalizing v with
  | nil => exact sure_pure v
  | cons x items ih =>
    rw [List.foldlM_cons]
    refine (h x (List.mem_cons_self ..) v).bind fun u => ?_
    exact ih (fun y hy => h y (List.mem_cons_of_mem _ hy)) u

theorem sure_mapM {f : β → Chance γ} {items : List β} (h : ∀ x ∈ items, (f x).Sure measured) :
    (items.mapM f).Sure measured := by
  induction items with
  | nil => exact sure_pure []
  | cons x items ih =>
    rw [List.mapM_cons]
    refine (h x (List.mem_cons_self ..)).bind fun u => ?_
    exact (ih fun y hy => h y (List.mem_cons_of_mem _ hy)).bind fun us => sure_pure _

variable {α : Type} [Scalar α]

theorem sure_uniformFrom (lo hi scale : α) (repeats : ℕ) :
    (uniformFrom lo hi scale repeats).Sure measured := by
  induction repeats with
  | zero => exact sure_pure lo
  | succ repeats ih =>
    have hword : Chance.Sure measured word := fun w => .of_ok w.next
    refine hword.bind fun u => ?_
    dsimp only
    split
    · exact sure_pure _
    · exact ih

end Chance

namespace Number

variable {α : Type} [Scalar α] {measured : Prop}

def isRandom : Number α → Bool
  | random .. => true
  | _ => false

/-- If there is something to draw from, it is of finite width. -/
def Measured : Number α → Prop
  | random lo hi => lo < hi → Scalar.isFinite (hi - lo) = true
  | _ => True

instance (n : Number α) : Decidable n.Measured :=
  match n with
  | random lo hi => inferInstanceAs (Decidable (lo < hi → Scalar.isFinite (hi - lo) = true))
  | literal _ | beats _ | pi _ | turn _ => isTrue trivial

theorem measured_of_fixed {n : Number α} (h : n.isRandom = false) : n.Measured := by
  cases n with
  | random => cases h
  | _ => trivial

theorem resolve_of_wide (tempo : α) {n : Number α} (h : ¬ n.Measured) (w : Words) :
    n.resolve tempo w = .error .unboundedRange := by
  cases n with
  | random lo hi =>
    obtain ⟨hlt, hwide⟩ := Classical.not_imp.1 h
    have hthrow : (random lo hi).resolve tempo = throw .unboundedRange := by
      simp [resolve, Chance.uniform, hlt, hwide]
    rw [hthrow]
    rfl
  | _ => exact absurd trivial h

theorem resolve_sure (tempo : α) {n : Number α} (h : measured → n.Measured) :
    (n.resolve tempo).Sure measured := by
  by_cases hn : n.Measured
  · cases n with
    | random lo hi =>
      by_cases hlt : lo < hi
      · have hdraw : (random lo hi).resolve tempo =
            Chance.uniformFrom lo hi (hi - lo) Chance.maxRepeats := by
          simp [resolve, Chance.uniform, hlt, hn hlt]
        rw [hdraw]
        exact Chance.sure_uniformFrom lo hi (hi - lo) Chance.maxRepeats
      · have hlow : (random lo hi).resolve tempo = pure lo := if_neg hlt
        rw [hlow]
        exact Chance.sure_pure lo
    | _ => exact Chance.sure_pure _
  · exact fun w => Or.inr ⟨fun hm => hn (h hm), resolve_of_wide tempo hn w⟩

end Number

namespace Trajectory

variable {α : Type} [Scalar α] {measured : Prop}

theorem token_sure (setting : Setting α) (d : Draft α) {t : Token α}
    (h : measured → ∀ n ∈ t.numbers, n.Measured) : (Draft.token setting d t).Sure measured := by
  have hresolve : ∀ n ∈ t.numbers, (n.resolve setting.tempo).Sure measured :=
    fun n hn => Number.resolve_sure _ fun hm => h hm n hn
  cases t with
  | after time | cancelAfter time | lasting time | linear side speed =>
    exact (hresolve _ (by simp [Token.numbers])).bind fun _ => Chance.sure_pure _
  | wave shape side start speed amplitude =>
    refine (hresolve start (by simp [Token.numbers])).bind fun _ => ?_
    refine (hresolve speed (by simp [Token.numbers])).bind fun _ => ?_
    exact (hresolve amplitude (by simp [Token.numbers])).bind fun _ => Chance.sure_pure _
  | move x y =>
    refine (hresolve x (by simp [Token.numbers])).bind fun _ => ?_
    exact (hresolve y (by simp [Token.numbers])).bind fun _ => Chance.sure_pure _
  | opening | closing | shoot | stage | boss => exact Chance.sure_pure _

theorem compile_sure (setting : Setting α) {tokens : List (Token α)}
    (h : measured → ∀ t ∈ tokens, ∀ n ∈ t.numbers, n.Measured) :
    (compile setting tokens).Sure measured :=
  (Chance.sure_foldlM (fun t ht d => token_sure setting d fun hm => h hm t ht) _).bind
    fun _ => Chance.sure_pure _

end Trajectory

end Barrage
