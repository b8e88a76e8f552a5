import Mathlib.Tactic

/-!
# Hdl.Probe

Open addressing with a bounded linear probe.  The table `T : A → Option κ` says
which key each address holds, `slot k p` is the address probed for key `k` in
step `p`, and a search looks at `n` slots and stops at the first that is vacant
or holds the key.

`Findable` is the invariant of such a table: every stored key is found, and
found at the address that stores it.  Storing a key where its own search ends
keeps it (`Findable.store`).  Emptying an address keeps it exactly when no other
stored key has that address on its way (`findable_vacate_iff`).
-/

namespace Hdl

universe u v

variable {κ : Type u} {A : Type v}

/-- How a search ends: at the slot holding the key, at a vacant slot, or with
all slots taken by other keys. -/
inductive ProbeResult where
  | hit (p : Nat)
  | vacant (p : Nat)
  | full
  deriving DecidableEq, Repr

/-- Step `p` of the search for `k` finds another key. -/
def Blocked (look : Nat → Option κ) (k : κ) (p : Nat) : Prop := look p ≠ none ∧ look p ≠ some k

/-! ## how a search ends -/

section Search

variable {look : Nat → Option κ} {k : κ} {n p q : Nat}

/-- What each outcome of a search says about the slots. -/
def ProbeResult.Means (look : Nat → Option κ) (k : κ) (n p : Nat) : ProbeResult → Prop
  | .hit q => p ≤ q ∧ q < p + n ∧ look q = some k ∧ ∀ j, p ≤ j → j < q → Blocked look k j
  | .vacant q => p ≤ q ∧ q < p + n ∧ look q = none ∧ ∀ j, p ≤ j → j < q → Blocked look k j
  | .full => ∀ j, p ≤ j → j < p + n → Blocked look k j

/-- A blocked step is passed over. -/
theorem ProbeResult.Means.cons {r : ProbeResult} (h : r.Means look k n (p + 1))
    (hb : Blocked look k p) : r.Means look k (n + 1) p := by
  have hstep : ∀ j, p ≤ j → j = p ∨ p + 1 ≤ j := fun j hj => by omega
  cases r with
  | hit q | vacant q =>
      obtain ⟨h1, h2, h3, h4⟩ := h
      refine ⟨by omega, by omega, h3, fun j hj hjq => ?_⟩
      rcases hstep j hj with rfl | hj
      · exact hb
      · exact h4 j hj hjq
  | full =>
      intro j hj hjn
      rcases hstep j hj with rfl | hj
      · exact hb
      · exact h j hj (by omega)

/-- The outcomes exclude each other. -/
theorem ProbeResult.Means.unique {r r' : ProbeResult} (h : r.Means look k n p)
    (h' : r'.Means look k n p) : r = r' := by
  -- a search ends at its first step that is not blocked
  have hend : ∀ {q q'}, (∀ j, p ≤ j → j < q → Blocked look k j) → ¬ Blocked look k q' →
      p ≤ q' → q ≤ q' := fun hb hq' hp => by
    by_contra hlt
    exact hq' (hb _ hp (by omega))
  have hfree : ∀ {q}, look q = none ∨ look q = some k → ¬ Blocked look k q := by
    rintro q (hq | hq) ⟨hn, hs⟩
    · exact hn hq
    · exact hs hq
  rcases r with q | q | _ <;> rcases r' with q' | q' | _ <;> simp only [Means] at h h' ⊢
  · rw [le_antisymm (hend h.2.2.2 (hfree (Or.inr h'.2.2.1)) h'.1)
      (hend h'.2.2.2 (hfree (Or.inr h.2.2.1)) h.1)]
  · have := le_antisymm (hend h.2.2.2 (hfree (Or.inl h'.2.2.1)) h'.1)
      (hend h'.2.2.2 (hfree (Or.inr h.2.2.1)) h.1)
    simp [← this, h.2.2.1] at h'
  · exact absurd (h' q h.1 h.2.1) (hfree (Or.inr h.2.2.1))
  · have := le_antisymm (hend h.2.2.2 (hfree (Or.inr h'.2.2.1)) h'.1)
      (hend h'.2.2.2 (hfree (Or.inl h.2.2.1)) h.1)
    simp [← this, h.2.2.1] at h'
  · rw [le_antisymm (hend h.2.2.2 (hfree (Or.inl h'.2.2.1)) h'.1)
      (hend h'.2.2.2 (hfree (Or.inl h.2.2.1)) h.1)]
  · exact absurd (h' q h.1 h.2.1) (hfree (Or.inl h.2.2.1))
  · exact absurd (h q' h'.1 h'.2.1) (hfree (Or.inr h'.2.2.1))
  · exact absurd (h q' h'.1 h'.2.1) (hfree (Or.inl h'.2.2.1))

variable [DecidableEq κ]

/-- Search `n` slots from step `p` on, where `look` reads the slot of a step. -/
def probe (look : Nat → Option κ) (k : κ) : Nat → Nat → ProbeResult
  | 0, _ => .full
  | n + 1, p =>
      match look p with
      | none => .vacant p
      | some k' => if k' = k then .hit p else probe look k n (p + 1)

theorem probe_means : (probe look k n p).Means look k n p := by
  induction n generalizing p with
  | zero =>
      intro j hj hjp
      omega
  | succ n ih =>
      cases hp : look p with
      | none =>
          simp only [probe, hp]
          exact ⟨le_refl _, by omega, hp, fun j _ _ => by omega⟩
      | some k' =>
          simp only [probe, hp]
          by_cases hk : k' = k
          · rw [if_pos hk]
            exact ⟨le_refl _, by omega, hk ▸ hp, fun j _ _ => by omega⟩
          · rw [if_neg hk]
            exact ih.cons ⟨by simp [hp], by simp [hp, hk]⟩

/-- **Search**: the outcome is the one that describes the slots. -/
theorem probe_eq_iff {r : ProbeResult} : probe look k n p = r ↔ r.Means look k n p := by
  constructor
  · rintro rfl
    exact probe_means
  · exact probe_means.unique

end Search

/-! ## tables -/

section Table

variable [DecidableEq κ]

/-- The search for `k` in the table `T`. -/
def find (slot : κ → Nat → A) (n : Nat) (T : A → Option κ) (k : κ) : ProbeResult :=
  probe (fun p => T (slot k p)) k n 0

/-- Every stored key is found, at the address that stores it. -/
def Findable (slot : κ → Nat → A) (n : Nat) (T : A → Option κ) : Prop :=
  ∀ a k, T a = some k → ∃ p, find slot n T k = .hit p ∧ slot k p = a

/-- No stored key but the one at `a` itself has `a` on its way. -/
def Vacatable (slot : κ → Nat → A) (n : Nat) (T : A → Option κ) (a : A) : Prop :=
  ∀ k p, find slot n T k = .hit p → ∀ q, q < p → slot k q ≠ a

variable {slot : κ → Nat → A} {n : Nat} {T : A → Option κ} {k k' : κ} {a : A} {p p' : Nat}

theorem find_hit_iff :
    find slot n T k = .hit p ↔ p < n ∧ T (slot k p) = some k ∧
      ∀ q, q < p → T (slot k q) ≠ none ∧ T (slot k q) ≠ some k := by
  rw [find, probe_eq_iff]
  simp only [ProbeResult.Means, Blocked, Nat.zero_le, Nat.zero_add, true_and, forall_true_left]

theorem find_vacant_iff :
    find slot n T k = .vacant p ↔ p < n ∧ T (slot k p) = none ∧
      ∀ q, q < p → T (slot k q) ≠ none ∧ T (slot k q) ≠ some k := by
  rw [find, probe_eq_iff]
  simp only [ProbeResult.Means, Blocked, Nat.zero_le, Nat.zero_add, true_and, forall_true_left]

theorem find_full_iff :
    find slot n T k = .full ↔ ∀ q, q < n → T (slot k q) ≠ none ∧ T (slot k q) ≠ some k := by
  rw [find, probe_eq_iff]
  simp only [ProbeResult.Means, Blocked, Nat.zero_le, Nat.zero_add, forall_true_left]

/-- A key that is found is stored. -/
theorem stored_of_find (h : find slot n T k = .hit p) : T (slot k p) = some k :=
  (find_hit_iff.mp h).2.1

/-- A key stored in the first slot of its way is found there. -/
theorem find_home (hn : 0 < n) (h : T (slot k 0) = some k) : find slot n T k = .hit 0 :=
  find_hit_iff.mpr ⟨hn, h, fun q hq => absurd hq (Nat.not_lt_zero q)⟩

/-- In a findable table a key is stored at one address only. -/
theorem Findable.unique (hT : Findable slot n T) {a' : A} (h : T a = some k)
    (h' : T a' = some k) : a = a' := by
  obtain ⟨p, hp, rfl⟩ := hT a k h
  obtain ⟨p', hp', rfl⟩ := hT a' k h'
  rw [hp] at hp'
  rw [ProbeResult.hit.inj hp']

/-- In a findable table a key that is not found is nowhere stored. -/
theorem Findable.not_stored (hT : Findable slot n T) (h : ∀ p, find slot n T k ≠ .hit p) (a : A) :
    T a ≠ some k := by
  intro ha
  obtain ⟨p, hp, -⟩ := hT a k ha
  exact h p hp

/-- The empty table is findable. -/
theorem findable_empty : Findable slot n (fun _ => none) := fun _ _ h => by cases h

/-! ## storing a key -/

/-- The search for `k` may end at step `p` with room for `k`. -/
def EndsAt (slot : κ → Nat → A) (n : Nat) (T : A → Option κ) (k : κ) (p : Nat) : Prop :=
  find slot n T k = .vacant p ∨ find slot n T k = .hit p

theorem endsAt_iff :
    EndsAt slot n T k p ↔ p < n ∧ (T (slot k p) = none ∨ T (slot k p) = some k) ∧
      ∀ q, q < p → T (slot k q) ≠ none ∧ T (slot k q) ≠ some k := by
  rw [EndsAt, find_hit_iff, find_vacant_iff]
  tauto

section Update

variable [DecidableEq A]

/-- A key stored where its search ended is found there. -/
theorem find_store_self (h : EndsAt slot n T k p) :
    find slot n (Function.update T (slot k p) (some k)) k = .hit p := by
  obtain ⟨hp, hend, hbefore⟩ := endsAt_iff.mp h
  refine find_hit_iff.mpr ⟨hp, Function.update_self .., fun q hq => ?_⟩
  have hne : slot k q ≠ slot k p := by
    intro he
    have hq' := hbefore q hq
    rw [he] at hq'
    tauto
  rw [Function.update_of_ne hne]
  exact hbefore q hq

/-- A key stored at another address does not change where `k'` is found. -/
theorem find_store_of_ne (hne : k' ≠ k) (hpa : slot k' p' ≠ a) (h : find slot n T k' = .hit p') :
    find slot n (Function.update T a (some k)) k' = .hit p' := by
  obtain ⟨hp, hstored, hbefore⟩ := find_hit_iff.mp h
  refine find_hit_iff.mpr ⟨hp, by rwa [Function.update_of_ne hpa], fun q hq => ?_⟩
  by_cases hqa : slot k' q = a
  · rw [hqa, Function.update_self]
    simp [Ne.symm hne]
  · rw [Function.update_of_ne hqa]
    exact hbefore q hq

/-- Storing a key at an address that was vacant or already its own does not
change where other keys are found. -/
theorem find_store_ne (hne : k' ≠ k) (ha : T a = none ∨ T a = some k)
    (h : find slot n T k' = .hit p') :
    find slot n (Function.update T a (some k)) k' = .hit p' := by
  refine find_store_of_ne hne ?_ h
  rintro rfl
  rw [stored_of_find h] at ha
  simp [hne] at ha

/-- **Store**: a key may be stored where its own search ends. -/
theorem Findable.store (hT : Findable slot n T) (h : EndsAt slot n T k p) :
    Findable slot n (Function.update T (slot k p) (some k)) := by
  intro a k' hk'
  by_cases hkk : k' = k
  · subst hkk
    refine ⟨p, find_store_self h, ?_⟩
    by_contra hne
    -- a second copy elsewhere would have been found first
    rw [Function.update_of_ne (Ne.symm hne)] at hk'
    obtain ⟨p', hp', rfl⟩ := hT a k' hk'
    rcases h with h | h <;> rw [hp'] at h
    · cases h
    · exact hne (by rw [ProbeResult.hit.inj h])
  · have hne : a ≠ slot k p := by
      rintro rfl
      rw [Function.update_self] at hk'
      exact hkk (Option.some.inj hk').symm
    rw [Function.update_of_ne hne] at hk'
    obtain ⟨p', hp', hslot⟩ := hT a k' hk'
    exact ⟨p', find_store_ne hkk (endsAt_iff.mp h).2.1 hp', hslot⟩

/-! ## emptying an address -/

/-- A key whose way avoids `a` is found as before once `a` is empty. -/
theorem find_vacate_of_avoids (h : find slot n T k = .hit p) (hav : ∀ q, q ≤ p → slot k q ≠ a) :
    find slot n (Function.update T a none) k = .hit p := by
  obtain ⟨hp, hstored, hbefore⟩ := find_hit_iff.mp h
  refine find_hit_iff.mpr ⟨hp, by rwa [Function.update_of_ne (hav p (le_refl _))], fun q hq => ?_⟩
  rw [Function.update_of_ne (hav q hq.le)]
  exact hbefore q hq

/-- A key that has `a` on its way is no longer found once `a` is empty. -/
theorem find_vacate_of_passes (h : find slot n T k = .hit p) {q : Nat} (hq : q ≤ p)
    (ha : slot k q = a) (p' : Nat) :
    find slot n (Function.update T a none) k ≠ .hit p' := by
  intro h'
  obtain ⟨hp, hstored, hbefore⟩ := find_hit_iff.mp h
  obtain ⟨hp', hstored', hbefore'⟩ := find_hit_iff.mp h'
  by_cases hqp : q < p'
  · exact (hbefore' q hqp).1 (by rw [ha, Function.update_self])
  · by_cases hpa : slot k p' = a
    · rw [hpa, Function.update_self] at hstored'
      cases hstored'
    · rw [Function.update_of_ne hpa] at hstored'
      by_cases hlt : p' < p
      · exact (hbefore p' hlt).2 hstored'
      · exact hpa (by rw [show p' = q by omega, ha])

/-- If the keys stored elsewhere are still found once `a` is empty, then `a` is
on the way of none of them. -/
theorem vacatable_of_found
    (h : ∀ k p, find slot n T k = .hit p → slot k p ≠ a →
      ∃ p', find slot n (Function.update T a none) k = .hit p') : Vacatable slot n T a := by
  intro k p hp q hq hqa
  have hpa : slot k p ≠ a := by
    intro he
    obtain ⟨-, hstored, hbefore⟩ := find_hit_iff.mp hp
    exact (hbefore q hq).2 (by rw [hqa, ← he, hstored])
  obtain ⟨p', hp'⟩ := h k p hp hpa
  exact find_vacate_of_passes hp hq.le hqa p' hp'

/-- **Vacate**: emptying an address keeps the table findable exactly when no
stored key has it on its way. -/
theorem findable_vacate_iff (hT : Findable slot n T) :
    Findable slot n (Function.update T a none) ↔ Vacatable slot n T a := by
  constructor
  · intro hT'
    apply vacatable_of_found
    intro k p hp hpa
    obtain ⟨p', hp', -⟩ := hT' (slot k p) k (by rw [Function.update_of_ne hpa, stored_of_find hp])
    exact ⟨p', hp'⟩
  · intro hv a' k hk
    have hne : a' ≠ a := by
      rintro rfl
      rw [Function.update_self] at hk
      cases hk
    rw [Function.update_of_ne hne] at hk
    obtain ⟨p, hp, rfl⟩ := hT a' k hk
    refine ⟨p, find_vacate_of_avoids hp fun q hq => ?_, rfl⟩
    by_cases hqp : q < p
    · exact hv k p hp q hqp
    · rwa [show q = p by omega]

/-- Storing a key where its search ends leaves other addresses vacatable. -/
theorem Vacatable.store (hT : Findable slot n T) (hv : Vacatable slot n T a)
    (h : EndsAt slot n T k p) (hway : ∀ q, q < p → slot k q ≠ a) :
    Vacatable slot n (Function.update T (slot k p) (some k)) a := by
  intro k' p' hp'
  by_cases hkk : k' = k
  · subst hkk
    rw [find_store_self h] at hp'
    rw [← ProbeResult.hit.inj hp']
    exact hway
  · have hstored := stored_of_find hp'
    have hne : slot k' p' ≠ slot k p := by
      intro he
      rw [he, Function.update_self] at hstored
      exact hkk (Option.some.inj hstored).symm
    rw [Function.update_of_ne hne] at hstored
    obtain ⟨p'', hp'', -⟩ := hT _ k' hstored
    have hkeep := find_store_ne hkk (endsAt_iff.mp h).2.1 hp''
    rw [hp'] at hkeep
    rw [ProbeResult.hit.inj hkeep]
    exact hv k' p'' hp''

end Update

end Table

end Hdl
