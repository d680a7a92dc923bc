import TinyMiddleware.Lib.Ledger

/-! A ledger of handles, and who owns what is held. A handle names at most one held
ticket; when it is released it may be handed out again. -/
namespace TinyMiddleware.Ledger

variable {ι ο : Type*}

/-- Each held ticket was accepted under the name of its holder, and no ticket waits. -/
structure Kept (l : Ledger ι ι) : Prop where
  sound : Sound l
  prompt : l.taken = l.accepted.length
  named : ∀ i k, l.held i = some k → l.accepted[k]? = some i

theorem kept_of_unused : Kept (⟨[], 0, fun _ => none, []⟩ : Ledger ι ι) where
  sound := sound_of_unused _ fun _ => rfl
  prompt := rfl
  named := by
    intro i k hk
    cases hk

theorem Kept.count_closed_le {l : Ledger ι ι} (h : Kept l) (k : Nat) : l.closed.count k ≤ 1 :=
  List.nodup_iff_count_le_one.mp h.sound.closed_nodup k

/-- Every ticket a handle has stood for is closed, exactly once, when the handle is
not held any more. -/
theorem Kept.all_closed_iff {l : Ledger ι ι} (h : Kept l) (i : ι) :
    (∀ k, l.accepted[k]? = some i → l.closed.count k = 1) ↔ l.held i = none := by
  constructor
  · intro hall
    by_contra hheld
    obtain ⟨k, hk⟩ := Option.ne_none_iff_exists'.mp hheld
    have hclosed := hall k (h.named i k hk)
    rw [List.count_eq_zero.mpr (h.sound.held_open i k hk)] at hclosed
    cases hclosed
  · intro hnone k hk
    have hlt : k < l.taken := h.prompt ▸ (List.getElem?_eq_some_iff.mp hk).1
    obtain ⟨j, hj⟩ | hclosed := h.sound.covered k hlt
    · -- the holder would be the handle itself
      obtain rfl := Option.some.inj ((h.named j k hj).symm.trans hk)
      rw [hnone] at hj
      cases hj
    · exact List.count_eq_one_of_mem h.sound.closed_nodup hclosed

/-- Every held handle has exactly one owner, and nobody owns anything else. -/
structure Accounts (l : Ledger ι ι) (owns : ο → ι → Prop) : Prop where
  kept : Kept l
  owned : ∀ i, l.held i ≠ none ↔ ∃ o, owns o i
  unshared : ∀ o p i, owns o i → owns p i → o = p

theorem Accounts.congr {l : Ledger ι ι} {owns after : ο → ι → Prop} (h : Accounts l owns)
    (same : ∀ p j, after p j ↔ owns p j) : Accounts l after := by
  have heq : after = owns := funext₂ fun p j => propext (same p j)
  exact heq ▸ h

theorem Accounts.unowned {l : Ledger ι ι} {owns : ο → ι → Prop} (h : Accounts l owns) {i : ι}
    (free : l.held i = none) (p : ο) : ¬ owns p i :=
  fun hp => (h.owned i).mpr ⟨p, hp⟩ free

variable [DecidableEq ι]

/-- The handle is accepted and taken at once, under its own name. -/
def acquire (l : Ledger ι ι) (i : ι) : Ledger ι ι where
  accepted := l.accepted ++ [i]
  taken := l.taken + 1
  held := Function.update l.held i (some l.taken)
  closed := l.closed

/-- Releasing what is not held changes nothing. -/
def release (l : Ledger ι ι) (i : ι) : Ledger ι ι :=
  match l.held i with
  | some k => { l with
      held := Function.update l.held i none
      closed := l.closed ++ [k] }
  | none => l

theorem held_acquire (l : Ledger ι ι) (i j : ι) :
    (l.acquire i).held j = if j = i then some l.taken else l.held j :=
  Function.update_apply _ _ _ _

theorem held_release (l : Ledger ι ι) (i j : ι) :
    (l.release i).held j = if j = i then none else l.held j := by
  unfold release
  split
  · exact Function.update_apply _ _ _ _
  · next hnone =>
      split
      · next hji => rw [hji, hnone]
      · rfl

theorem Kept.acquire {l : Ledger ι ι} (h : Kept l) {i : ι} (free : l.held i = none) :
    Kept (l.acquire i) where
  sound := by
    have hwaiting : l.taken < (l.accepted ++ [i]).length := by
      rw [List.length_append, List.length_singleton]
      exact Nat.lt_succ_of_le h.sound.taken_le
    exact (h.sound.accept i).take i free hwaiting
  prompt := by
    simp only [Ledger.acquire, List.length_append, List.length_singleton, h.prompt]
  named := by
    intro j k hk
    rw [held_acquire] at hk
    split at hk
    · next hji =>
        cases Option.some.inj hk
        rw [hji, h.prompt]
        exact List.getElem?_concat_length
    · have hold := h.named j k hk
      exact (List.getElem?_append_left (List.getElem?_eq_some_iff.mp hold).1).trans hold

theorem Kept.release {l : Ledger ι ι} (h : Kept l) (i : ι) : Kept (l.release i) := by
  cases hheld : l.held i with
  | none => simpa only [Ledger.release, hheld] using h
  | some k =>
      have hsound := h.sound.close i k hheld
      have hnamed : ∀ j m, (l.release i).held j = some m → l.accepted[m]? = some j := by
        intro j m hm
        rw [held_release] at hm
        split at hm
        · cases hm
        · exact h.named j m hm
      simp only [Ledger.release, hheld] at hnamed ⊢
      exact ⟨hsound, h.prompt, hnamed⟩

namespace Accounts

variable {l : Ledger ι ι} {owns after : ο → ι → Prop}

theorem acquire (h : Accounts l owns) (o : ο) {i : ι} (free : l.held i = none)
    (gain : ∀ p j, after p j ↔ owns p j ∨ p = o ∧ j = i) : Accounts (l.acquire i) after where
  kept := h.kept.acquire free
  owned := by
    intro j
    rw [held_acquire]
    split
    · next hji => exact iff_of_true (Option.some_ne_none _) ⟨o, (gain o j).mpr (Or.inr ⟨rfl, hji⟩)⟩
    · next hji =>
        rw [h.owned j]
        apply exists_congr
        intro p
        rw [gain p j]
        exact (or_iff_left fun hnew => hji hnew.2).symm
  unshared := by
    have hnobody := h.unowned free
    intro p q j hp hq
    obtain hp | ⟨rfl, rfl⟩ := (gain p j).mp hp
    · obtain hq | ⟨-, rfl⟩ := (gain q j).mp hq
      · exact h.unshared p q j hp hq
      · exact absurd hp (hnobody p)
    · obtain hq | ⟨rfl, -⟩ := (gain q j).mp hq
      · exact absurd hq (hnobody q)
      · rfl

theorem release (h : Accounts l owns) {i : ι} (lose : ∀ p j, after p j ↔ owns p j ∧ j ≠ i) :
    Accounts (l.release i) after where
  kept := h.kept.release i
  owned := by
    intro j
    rw [held_release]
    split
    · next hji =>
        refine iff_of_false (fun hnone => hnone rfl) ?_
        rintro ⟨p, hp⟩
        exact ((lose p j).mp hp).2 hji
    · next hji =>
        rw [h.owned j]
        apply exists_congr
        intro p
        rw [lose p j]
        exact (and_iff_left hji).symm
  unshared := by
    intro p q j hp hq
    exact h.unshared p q j ((lose p j).mp hp).1 ((lose q j).mp hq).1

/-- An owner of one handle goes, and gives it up. -/
theorem resign (h : Accounts l owns) {o : ο} {i : ι} (owner : owns o i)
    (only : ∀ j, owns o j → j = i) (gone : ∀ j, ¬ after o j)
    (others : ∀ p j, p ≠ o → (after p j ↔ owns p j)) : Accounts (l.release i) after := by
  apply h.release
  intro p j
  by_cases hpo : p = o
  · rw [hpo]
    exact iff_of_false (gone j) fun howns => howns.2 (only j howns.1)
  · rw [others p j hpo]
    refine (and_iff_left_of_imp ?_).symm
    rintro howns rfl
    exact hpo (h.unshared p o j howns owner)

end Accounts

end TinyMiddleware.Ledger
