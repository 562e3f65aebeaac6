import Barrage.Channel
import Mathlib

/-! # What listeners hear

A listener hears what its channel carries when it subscribes, and from then on every change, until
its key is taken off or given to another listener. Listeners are told apart by the number of the
operation that brought them. -/

namespace Barrage.Channel

open Pattern (Packed)

/-- The patterns that differ from the one before them; the first is compared with `value`. -/
def novel (value : Option Packed) : List Packed → List Packed
  | [] => []
  | pattern :: rest =>
    if value = some pattern then novel value rest else pattern :: novel (some pattern) rest

theorem getLast?_novel (value : Option Packed) (patterns : List Packed) :
    (value.toList ++ novel value patterns).getLast? = patterns.getLast?.or value := by
  induction patterns generalizing value with
  | nil => cases value <;> rfl
  | cons pattern rest ih =>
    have hlast : (pattern :: rest).getLast?.or value = rest.getLast?.or (some pattern) := by
      rw [List.getLast?_cons]
      cases rest.getLast? <;> rfl
    rw [hlast, ← ih (some pattern), novel]
    split
    · next hsame => rw [hsame]
    · rw [List.getLast?_append_of_ne_nil _ (by simp)]
      rfl

theorem isChain_novel (value : Option Packed) (patterns : List Packed) :
    (value.toList ++ novel value patterns).IsChain (· ≠ ·) := by
  induction patterns generalizing value with
  | nil => cases value <;> simp [novel]
  | cons pattern rest ih =>
    rw [novel]
    split
    · exact ih value
    · next hne =>
      have hrest := ih (some pattern)
      cases value with
      | none => exact hrest
      | some first => exact List.isChain_cons_cons.2 ⟨fun heq => hne (congrArg some heq), hrest⟩

theorem novel_append (value : Option Packed) (earlier later : List Packed) :
    novel value (earlier ++ later) = novel value earlier ++ novel
      (earlier.getLast?.or value) later := by
  induction earlier generalizing value with
  | nil => rfl
  | cons pattern earlier ih =>
    have hlast : (pattern :: earlier).getLast?.or value = earlier.getLast?.or (some pattern) := by
      rw [List.getLast?_cons]
      cases earlier.getLast? <;> rfl
    rw [List.cons_append, novel, novel, hlast]
    split
    · next hsame => rw [ih, hsame]
    · rw [ih, List.cons_append]

/-! ## Publications -/

section

variable {τ : Type}

theorem publish_last (c : Channel τ) (pattern : Packed) :
    (c.publish pattern).channel.last = some pattern := by
  unfold publish
  split
  · assumption
  · rfl

theorem publish_listeners (c : Channel τ) (pattern : Packed) :
    (c.publish pattern).channel.listeners = c.listeners := by
  unfold publish
  split <;> rfl

theorem publish_heard (c : Channel τ) (pattern : Packed) :
    (c.publish pattern).heard =
      if c.last = some pattern then [] else c.listeners.map fun l => ⟨l.2, pattern⟩ := by
  unfold publish
  split <;> rfl

theorem publish_changed_iff (c : Channel τ) (pattern : Packed) :
    (c.publish pattern).changed = true ↔ c.last ≠ some pattern := by
  unfold publish
  split <;> simp [*]

theorem publishAll_last (c : Channel τ) (patterns : List Packed) :
    (c.publishAll patterns).1.last = patterns.getLast?.or c.last := by
  induction patterns generalizing c with
  | nil => rfl
  | cons pattern rest ih =>
    change ((c.publish pattern).channel.publishAll rest).1.last = _
    rw [ih, publish_last, List.getLast?_cons]
    cases rest.getLast? <;> rfl

theorem publishAll_append (c : Channel τ) (earlier later : List Packed) :
    c.publishAll (earlier ++ later) =
      (((c.publishAll earlier).1.publishAll later).1,
        (c.publishAll earlier).2 ++ ((c.publishAll earlier).1.publishAll later).2) := by
  induction earlier generalizing c with
  | nil => rfl
  | cons pattern rest ih => simp [publishAll, ih]

theorem publishAll_listeners (c : Channel τ) (patterns : List Packed) :
    (c.publishAll patterns).1.listeners = c.listeners := by
  induction patterns generalizing c with
  | nil => rfl
  | cons pattern rest ih => exact (ih _).trans (publish_listeners c pattern)

theorem publishAll_heard (c : Channel τ) (patterns : List Packed) :
    (c.publishAll patterns).2 =
      (novel c.last patterns).flatMap fun pattern => c.listeners.map fun l => ⟨l.2, pattern⟩ := by
  induction patterns generalizing c with
  | nil => rfl
  | cons pattern rest ih =>
    change (c.publish pattern).heard ++ ((c.publish pattern).channel.publishAll rest).2 = _
    rw [ih, publish_last, publish_listeners, publish_heard, novel]
    split
    · next hsame => rw [List.nil_append, hsame]
    · rfl

end

/-! ## Listeners -/

section

variable {τ : Type} {key : ℕ} {listener : τ} {listeners : List (ℕ × τ)}

def Ascending (listeners : List (ℕ × τ)) : Prop := listeners.Pairwise fun l m => l.1 < m.1

theorem insert_perm (h : Ascending listeners) :
    (insert key listener listeners).Perm ((key, listener) :: listeners.filter
      fun l => l.1 != key) := by
  induction listeners with
  | nil => exact .refl _
  | cons first rest ih =>
    obtain ⟨hfirst, hrest⟩ := List.pairwise_cons.1 h
    obtain ⟨k, l⟩ := first
    have hkeep : ∀ {k : ℕ}, (∀ m ∈ rest, k < m.1) → key ≤ k →
        rest.filter (fun m => m.1 != key) = rest := by
      intro k hlt hle
      refine List.filter_eq_self.2 fun m hm => ?_
      have hm := hlt m hm
      simp only [bne_iff_ne]
      omega
    unfold insert
    split_ifs with hlt heq
    · rw [List.filter_cons_of_pos (by simp only [bne_iff_ne]; omega), hkeep hfirst hlt.le]
    · rw [List.filter_cons_of_neg (by simp [heq]), hkeep hfirst heq.le]
    · rw [List.filter_cons_of_pos (by simp only [bne_iff_ne]; omega)]
      exact ((ih hrest).cons _).trans (.swap _ _ _)

theorem mem_insert (h : Ascending listeners) {l : ℕ × τ} :
    l ∈ insert key listener listeners ↔ l = (key, listener) ∨ l ∈ listeners ∧ l.1 ≠ key := by
  rw [(insert_perm h).mem_iff, List.mem_cons, List.mem_filter, bne_iff_ne]

theorem ascending_insert (h : Ascending listeners) : Ascending (insert key listener listeners) := by
  induction listeners with
  | nil => exact List.pairwise_singleton ..
  | cons first rest ih =>
    obtain ⟨hfirst, hrest⟩ := List.pairwise_cons.1 h
    obtain ⟨k, l⟩ := first
    unfold insert
    split_ifs with hlt heq
    · refine List.pairwise_cons.2 ⟨fun m hm => ?_, h⟩
      rcases List.mem_cons.1 hm with rfl | hm
      · exact hlt
      · exact hlt.trans (hfirst m hm)
    · exact List.pairwise_cons.2 ⟨fun m hm => heq.trans_lt (hfirst m hm), hrest⟩
    · refine List.pairwise_cons.2 ⟨fun m hm => ?_, ih hrest⟩
      rcases (mem_insert hrest).1 hm with rfl | ⟨hm, -⟩
      · change k < key
        omega
      · exact hfirst m hm

end

/-! ## Histories -/

inductive Operation where
  | publish (pattern : Packed)
  | subscribe (key : ℕ)
  | unsubscribe (key : ℕ)

namespace Operation

def published? : Operation → Option Packed
  | publish pattern => some pattern
  | _ => none

def ends (key : ℕ) : Operation → Bool
  | publish _ => false
  | subscribe k | unsubscribe k => k == key

end Operation

def perform (c : Channel ℕ) (number : ℕ) : Operation → Channel ℕ × List (Delivery ℕ)
  | .publish pattern => ((c.publish pattern).channel, (c.publish pattern).heard)
  | .subscribe key => c.subscribe key number
  | .unsubscribe key => (c.unsubscribe key, [])

def run (c : Channel ℕ) (number : ℕ) : List Operation → Channel ℕ × List (Delivery ℕ)
  | [] => (c, [])
  | o :: rest =>
    let (channel, heard) := c.perform number o
    let (channel, later) := channel.run (number + 1) rest
    (channel, heard ++ later)

theorem run_append (c : Channel ℕ) (number : ℕ) (earlier later : List Operation) :
    c.run number (earlier ++ later) =
      (((c.run number earlier).1.run (number + earlier.length) later).1,
        (c.run number earlier).2 ++ ((c.run number earlier).1.run
          (number + earlier.length) later).2) := by
  induction earlier generalizing c number with
  | nil => rfl
  | cons o earlier ih =>
    simp only [List.cons_append, run, ih, List.length_cons, List.append_assoc]
    rw [Nat.add_right_comm, ← Nat.add_assoc]

def published (history : List Operation) : List Packed := history.filterMap Operation.published?

def current (initial : Option Packed) (history : List Operation) : Option Packed :=
  (published history).getLast?.or initial

/-- Operations up to the first that takes the key away. -/
def tenure (key : ℕ) (history : List Operation) : List Operation :=
  history.takeWhile fun o => !o.ends key

/-- What one listener hears. -/
def heardBy (number : ℕ) (deliveries : List (Delivery ℕ)) : List Packed :=
  (deliveries.filter fun d => d.listener == number).map Delivery.pattern

def Registered (history : List Operation) (key number : ℕ) : Prop :=
  history[number]? = some (.subscribe key) ∧ ∀ o ∈ history.drop (number + 1), o.ends key = false

theorem heardBy_append (number : ℕ) (earlier later : List (Delivery ℕ)) :
    heardBy number (earlier ++ later) = heardBy number earlier ++ heardBy number later := by
  simp [heardBy]

theorem registered_snoc {history : List Operation} {o : Operation} {key number : ℕ} :
    Registered (history ++ [o]) key number ↔
      o = .subscribe key ∧ number = history.length ∨ Registered history key number ∧
      o.ends key = false := by
  unfold Registered
  rcases lt_trichotomy number history.length with hlt | rfl | hgt
  · rw [List.getElem?_append_left hlt, List.drop_append_of_le_length hlt]
    simp only [List.forall_mem_append, List.forall_mem_singleton, hlt.ne, and_false,
      false_or, and_assoc]
  · simp
  · rw [List.getElem?_eq_none (by simpa using hgt), List.getElem?_eq_none hgt.le]
    simp [hgt.ne']

/-- What a channel is after a history: it carries the last pattern, and its listeners are those that
came and were not taken off. -/
structure Kept (initial : Option Packed) (history : List Operation) (c : Channel ℕ) : Prop where
  last_eq : c.last = current initial history
  ascending : Ascending c.listeners
  mem_iff : ∀ key number, (key, number) ∈ c.listeners ↔ Registered history key number

variable {initial : Option Packed} {history before after : List Operation} {c : Channel ℕ}
    {key number : ℕ}

theorem ascending_perform (h : Ascending c.listeners) (number : ℕ) (o : Operation) :
    Ascending (c.perform number o).1.listeners := by
  cases o with
  | publish pattern =>
    change Ascending (c.publish pattern).channel.listeners
    rwa [publish_listeners]
  | subscribe key => exact ascending_insert h
  | unsubscribe key => exact h.filter _

theorem kept_perform (h : Kept initial history c) (o : Operation) :
    Kept initial (history ++ [o]) (c.perform history.length o).1 := by
  have hlast : current initial (history ++ [o]) = o.published?.or (current initial history) := by
    unfold current published
    rw [List.filterMap_append]
    cases o <;> simp [Operation.published?]
  refine ⟨?_, ascending_perform h.ascending _ o, fun key number => ?_⟩
  · rw [hlast, ← h.last_eq]
    cases o with
    | publish pattern => exact publish_last c pattern
    | subscribe key => rfl
    | unsubscribe key => rfl
  · rw [registered_snoc, ← h.mem_iff]
    cases o with
    | publish pattern =>
      change (key, number) ∈ (c.publish pattern).channel.listeners ↔ _
      rw [publish_listeners]
      simp [Operation.ends]
    | subscribe k =>
      change (key, number) ∈ insert k history.length c.listeners ↔ _
      rw [mem_insert h.ascending]
      simp only [Prod.mk.injEq, Operation.subscribe.injEq, Operation.ends, beq_eq_false_iff_ne]
      tauto
    | unsubscribe k =>
      change (key, number) ∈ c.listeners.filter (fun l => l.1 != k) ↔ _
      rw [List.mem_filter, bne_iff_ne]
      simp only [reduceCtorEq, false_and, false_or, Operation.ends, beq_eq_false_iff_ne, ne_comm]

theorem kept_run (initial : Option Packed) (history : List Operation) :
    Kept initial history (run ⟨initial, []⟩ 0 history).1 := by
  induction history using List.reverseRecOn with
  | nil => exact ⟨rfl, .nil, by simp [run, Registered]⟩
  | append_singleton history o ih =>
    rw [run_append, Nat.zero_add]
    exact kept_perform ih o

/-! ## One listener -/

def places (c : Channel ℕ) (number : ℕ) : List (ℕ × ℕ) := c.listeners.filter fun l => l.2 == number

theorem places_subscribe (h : Ascending c.listeners) (key other number : ℕ) :
    (places (c.subscribe key other).1 number).Perm
      ((if other = number then [(key, other)] else []) ++ (places c number).filter
        fun l => l.1 != key) := by
  refine ((insert_perm h).filter fun l => l.2 == number).trans (.of_eq ?_)
  rw [List.filter_cons, List.filter_comm, places]
  split_ifs <;> simp_all

theorem heardBy_subscribe (c : Channel ℕ) (key other number : ℕ) :
    heardBy number (c.subscribe key other).2 = if other = number then c.last.toList else [] := by
  change (((c.last.toList.map fun pattern => ⟨other, pattern⟩).filter
    fun d => d.listener == number).map Delivery.pattern) = _
  rw [List.filter_map, List.map_map]
  split_ifs with h <;> cases c.last <;> simp [h]

theorem perform_last (c : Channel ℕ) (number : ℕ) (o : Operation) :
    (c.perform number o).1.last = o.published?.or c.last := by
  cases o with
  | publish pattern => exact publish_last c pattern
  | subscribe key => rfl
  | unsubscribe key => rfl

variable {next : ℕ}

/-- An operation leaves a listener its place, unless it takes the key away. -/
theorem places_perform (h : Ascending c.listeners) (hne : next ≠ number) (o : Operation) :
    (places (c.perform next o).1 number).Perm ((places c number).filter fun l => !o.ends l.1) := by
  cases o with
  | publish pattern =>
    refine .of_eq ?_
    change places (c.publish pattern).channel number = _
    rw [places, publish_listeners]
    exact (List.filter_eq_self.2 fun _ _ => rfl).symm
  | subscribe key =>
    have hplaces := places_subscribe h key next number
    rw [if_neg hne] at hplaces
    refine hplaces.trans (.of_eq (List.filter_congr fun l _ => ?_))
    simp [Operation.ends, bne, Bool.beq_comm]
  | unsubscribe key =>
    refine .of_eq ((List.filter_comm ..).trans (List.filter_congr fun l _ => ?_))
    simp [Operation.ends, bne, Bool.beq_comm]

/-- What an operation tells a listener that it does not bring: a change, in all its places. -/
theorem heardBy_perform (c : Channel ℕ) (hne : next ≠ number) (o : Operation) :
    heardBy number (c.perform next o).2 =
      (novel c.last o.published?.toList).flatMap fun pattern => (places c number).map fun _ =>
        pattern := by
  cases o with
  | publish pattern =>
    change heardBy number (c.publish pattern).heard = (novel c.last [pattern]).flatMap _
    rw [publish_heard, novel]
    split
    · rfl
    · rw [heardBy, List.filter_map, List.map_map]
      exact (List.append_nil _).symm
  | subscribe key => exact (heardBy_subscribe c key next number).trans (if_neg hne)
  | unsubscribe key => rfl

theorem heardBy_run_cons (c : Channel ℕ) (number next : ℕ) (o : Operation)
    (history : List Operation) : heardBy number (c.run next (o :: history)).2 =
      heardBy number (c.perform next o).2 ++ heardBy number
        ((c.perform next o).1.run (next + 1) history).2 :=
  heardBy_append ..

theorem heardBy_run_of_absent (h : Ascending c.listeners) (habsent : places c number = [])
    (hother : number < next ∨ next + history.length ≤ number) :
    heardBy number (c.run next history).2 = [] := by
  induction history generalizing c next with
  | nil => rfl
  | cons o history ih =>
    rw [List.length_cons] at hother
    have hne : next ≠ number := by omega
    have hplaces := places_perform h hne o
    have hheard := heardBy_perform c hne o
    rw [habsent] at hplaces hheard
    rw [heardBy_run_cons, hheard, ih (ascending_perform h next o) hplaces.eq_nil (by omega)]
    simp

theorem heardBy_run_of_present (h : Ascending c.listeners)
    (hplace : places c number = [(key, number)]) (hlt : number < next) :
    heardBy number (c.run next history).2 = novel c.last (published (tenure key history)) := by
  induction history generalizing c next with
  | nil => rfl
  | cons o history ih =>
    have hne : next ≠ number := by omega
    have hascending := ascending_perform h next o
    have hplaces := places_perform h hne o
    have hheard := heardBy_perform c hne o
    rw [hplace] at hplaces hheard
    rw [heardBy_run_cons, hheard]
    by_cases hends : o.ends key = true
    · have hsilent : o.published? = none := by
        cases o <;> first | rfl | cases hends
      rw [List.filter_cons_of_neg (by simp [hends])] at hplaces
      rw [heardBy_run_of_absent hascending hplaces.eq_nil (Or.inl (by omega)), tenure,
        List.takeWhile_cons_of_neg (by simp [hends]), hsilent]
      rfl
    · rw [List.filter_cons_of_pos (by simp [hends])] at hplaces
      have hpublished : published (tenure key (o :: history)) =
          o.published?.toList ++ published (tenure key history) := by
        rw [tenure, List.takeWhile_cons_of_pos (by simp [hends])]
        cases o <;> rfl
      have hlast : o.published?.toList.getLast? = o.published? := by
        cases o.published? <;> rfl
      rw [ih hascending (List.perm_singleton.1 hplaces) (by omega), perform_last, hpublished,
        novel_append, hlast]
      simp

theorem heardBy_subscription (initial : Option Packed) (before : List Operation) (key : ℕ)
    (after : List Operation) : heardBy before.length
    (run ⟨initial, []⟩ 0 (before ++ .subscribe key :: after)).2 =
      (current initial before).toList ++ novel (current initial before)
        (published (tenure key after)) := by
  have hkept := kept_run initial before
  have hearly : heardBy before.length (run ⟨initial, []⟩ 0 before).2 = [] :=
    heardBy_run_of_absent List.Pairwise.nil rfl (Or.inr (by omega))
  rw [run_append, Nat.zero_add, heardBy_append, hearly, List.nil_append, heardBy_run_cons]
  generalize (run ⟨initial, []⟩ 0 before).1 = c at hkept
  have habsent : places c before.length = [] := by
    rw [places, List.filter_eq_nil_iff]
    rintro ⟨k, number⟩ hmem hnumber
    obtain rfl : number = before.length := by simpa using hnumber
    obtain ⟨hget, -⟩ := (hkept.mem_iff k before.length).1 hmem
    simp at hget
  have hplace : places (c.subscribe key before.length).1 before.length =
      [(key, before.length)] := by
    have hplaces := places_subscribe hkept.ascending key before.length before.length
    rw [if_pos rfl, habsent] at hplaces
    exact List.perm_singleton.1 hplaces
  have hreplay := heardBy_subscribe c key before.length before.length
  rw [if_pos rfl] at hreplay
  change heardBy _ (c.subscribe key before.length).2 ++ heardBy _
    ((c.subscribe key before.length).1.run _ after).2 = _
  rw [hreplay, heardBy_run_of_present (ascending_insert hkept.ascending) hplace
    (Nat.lt_succ_self _), ← hkept.last_eq]
  rfl

/-- A listener hears, from its subscription on, the pattern that its channel carries then and every
later one that differs from the pattern before it, until its key is taken off or taken over, and
nothing else. So it never hears a pattern twice running, and what it has heard last is what the
channel carries. A publication is a change if the channel carried something else; then it goes once
to each listener that came and was not taken off, in the order of their keys. -/
theorem listeners_hear_every_change (initial : Option Packed) :
    (∀ (before : List Operation) (key : ℕ) (after : List Operation),
      let channel := (run ⟨initial, []⟩ 0 (before ++ .subscribe key :: after)).1
      let heard := heardBy before.length (run ⟨initial, []⟩ 0 (before ++ .subscribe key :: after)).2
      heard = (current initial before).toList ++
          novel (current initial before) (published (tenure key after)) ∧
        heard.IsChain (· ≠ ·) ∧
        ((∀ o ∈ after, o.ends key = false) → heard.getLast? = channel.last)) ∧
    ∀ (history : List Operation) (pattern : Packed),
      let channel := (run ⟨initial, []⟩ 0 history).1
      let publication := channel.publish pattern
      channel.last = current initial history ∧
        publication.channel.last = some pattern ∧
        (publication.changed = true ↔ publication.channel.last ≠ channel.last) ∧
        publication.heard =
          (if publication.changed then channel.listeners.map fun l => ⟨l.2, pattern⟩ else []) ∧
        (channel.listeners.map Prod.fst).Pairwise (· < ·) ∧
        ∀ key number, (key, number) ∈ channel.listeners ↔ Registered history key number := by
  refine ⟨fun before key after => ?_, fun history pattern => ?_⟩
  · intro channel heard
    have hheard : heard = _ := heardBy_subscription initial before key after
    refine ⟨hheard, hheard ▸ isChain_novel _ _, fun hstays => ?_⟩
    have htenure : tenure key after = after := List.takeWhile_eq_self_iff.2 fun o ho =>
      by simp [hstays o ho]
    rw [hheard, getLast?_novel, htenure, (kept_run initial _).last_eq]
    simp [current, published, Operation.published?, List.getLast?_append, Option.or_assoc]
  · intro channel publication
    have hkept : Kept initial history channel := kept_run initial history
    refine ⟨hkept.last_eq, publish_last _ _, ?_, ?_, List.pairwise_map.2 hkept.ascending,
      hkept.mem_iff⟩
    · rw [publish_changed_iff, publish_last]
      exact ne_comm
    · change (channel.publish pattern).heard = if (channel.publish pattern).changed then _ else []
      unfold publish
      split <;> rfl

/-- A repeated pattern is not heard again, and a listener under another key disturbs nobody. -/
theorem late_listener_hears_two_changes :
    let history : List Operation :=
      [.subscribe 5, .publish ⟨2⟩] ++ .subscribe 3 :: [.publish ⟨2⟩, .publish ⟨4⟩, .subscribe 5,
        .publish ⟨2⟩]
    heardBy 2 (run ⟨some ⟨1⟩, []⟩ 0 history).2 = [⟨2⟩, ⟨4⟩, ⟨2⟩] ∧
      (heardBy 2 (run ⟨some ⟨1⟩, []⟩ 0 history).2).getLast? =
        (run ⟨some ⟨1⟩, []⟩ 0 history).1.last := by
  obtain ⟨hheard, -, hlast⟩ := (listeners_hear_every_change (some ⟨1⟩)).1
    [.subscribe 5, .publish ⟨2⟩] 3 [.publish ⟨2⟩, .publish ⟨4⟩, .subscribe 5, .publish ⟨2⟩]
  exact ⟨hheard.trans (by decide), hlast (by decide)⟩

end Barrage.Channel
