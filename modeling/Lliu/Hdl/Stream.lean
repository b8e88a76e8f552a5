import Lliu.Hdl.Run
import Mathlib.Data.Nat.Nth

/-!
# Hdl.Stream

What goes in and out of a synchronous machine through handshakes, without the
cycles in which it happens.  `collect` lists the items an interface has
transferred; a *transducer* takes items one at a time and gives a list for each.

A machine refines a transducer when each cycle either takes an item as the
transducer does or changes nothing of its state, and what it has given, together
with what it still holds back, is what the transducer has given
(`Refines.collect`): its outputs do not depend on gaps and backpressure.
-/

namespace Hdl

/-! ## transfers -/

/-- The items transferred before cycle `n`. -/
def collect (f : Nat → Option α) : Nat → List α
  | 0 => []
  | n + 1 => collect f n ++ (f n).toList

@[simp] theorem collect_zero (f : Nat → Option α) : collect f 0 = [] := rfl

theorem collect_succ (f : Nat → Option α) (n : Nat) :
    collect f (n + 1) = collect f n ++ (f n).toList := rfl

/-- Only the cycles before `n` count. -/
theorem collect_congr {f g : Nat → Option α} {n : Nat} (h : ∀ k, k < n → f k = g k) :
    collect f n = collect g n := by
  induction n with
  | zero => rfl
  | succ n ih =>
      rw [collect_succ, collect_succ, ih fun k hk => h k (by omega), h n (Nat.lt_succ_self n)]

/-- The first cycle apart. -/
theorem collect_front (f : Nat → Option α) (n : Nat) :
    collect f (n + 1) = (f 0).toList ++ collect (fun k => f (k + 1)) n := by
  induction n with
  | zero => simp [collect_succ]
  | succ n ih => rw [collect_succ, ih, collect_succ, List.append_assoc]

theorem collect_isPrefix (f : Nat → Option α) {m n : Nat} (h : m ≤ n) :
    collect f m <+: collect f n := by
  induction n, h using Nat.le_induction with
  | base => exact List.prefix_refl _
  | succ n _ ih => exact ih.trans (List.prefix_append _ _)

/-- The items are transferred one at a time. -/
theorem exists_collect_eq_take {f : Nat → Option α} {n k : Nat} (hk : k ≤ (collect f n).length) :
    ∃ m, m ≤ n ∧ collect f m = (collect f n).take k := by
  induction n with
  | zero => exact ⟨0, Nat.le_refl 0, by simp⟩
  | succ n ih =>
      by_cases hle : k ≤ (collect f n).length
      · obtain ⟨m, hm, heq⟩ := ih hle
        refine ⟨m, Nat.le_succ_of_le hm, ?_⟩
        rw [heq, collect_succ, List.take_append_of_le_length hle]
      · have hone : (f n).toList.length ≤ 1 := by cases f n <;> simp
        rw [collect_succ, List.length_append] at hk
        refine ⟨n + 1, Nat.le_refl _, (List.take_of_length_le ?_).symm⟩
        rw [collect_succ, List.length_append]
        omega

/-! ## counting -/

/-- How often `f` is high before cycle `n`. -/
def count (f : Nat → Bool) (n : Nat) : Nat := Nat.count (fun k => f k = true) n

@[simp] theorem count_zero (f : Nat → Bool) : count f 0 = 0 := Nat.count_zero _

theorem count_succ (f : Nat → Bool) (n : Nat) : count f (n + 1) = count f n + (f n).toNat := by
  rw [count, Nat.count_succ, count]
  cases f n with
  | true => rfl
  | false => rfl

theorem count_mono (f : Nat → Bool) {a n : Nat} (h : a ≤ n) : count f a ≤ count f n :=
  Nat.count_monotone _ h

/-- The first cycle in which `f` is high. -/
theorem exists_first {f : Nat → Bool} {k : Nat} (h : f k = true) :
    ∃ a, a ≤ k ∧ f a = true ∧ ∀ j, j < a → f j = false := by
  have hex : ∃ a, f a = true := ⟨k, h⟩
  exact ⟨Nat.find hex, Nat.find_min' hex h, Nat.find_spec hex, fun j hj =>
    Bool.eq_false_iff.mpr (Nat.find_min hex hj)⟩

/-- The items transferred that satisfy `q`. -/
theorem countP_collect (q : α → Bool) (f : Nat → Option α) (n : Nat) :
    (collect f n).countP q = count (fun k => (f k).any q) n := by
  induction n with
  | zero => rfl
  | succ n ih =>
      rw [collect_succ, List.countP_append, ih, count_succ]
      cases f n with
      | none => rfl
      | some x => cases hq : q x <;> simp [hq]

theorem length_collect (f : Nat → Option α) (n : Nat) :
    (collect f n).length = count (fun k => (f k).isSome) n := by
  rw [← List.countP_true, countP_collect]
  rfl

/-- If `f` is high only where `g` is, and as often, it is high wherever `g` is. -/
theorem of_count_le {f g : Nat → Bool} {n : Nat} (h : ∀ k, k < n → f k = true → g k = true)
    (hle : count g n ≤ count f n) {k : Nat} (hk : k < n) (hg : g k = true) : f k = true := by
  induction n with
  | zero => omega
  | succ n ih =>
      have hmono : count f n ≤ count g n := Nat.count_mono_left fun k hk => h k (by omega)
      have hn : (f n).toNat ≤ (g n).toNat := Bool.toNat_le_toNat (h n (Nat.lt_succ_self n))
      rw [count_succ, count_succ] at hle
      obtain hlt | rfl := Nat.lt_succ_iff_lt_or_eq.mp hk
      · exact ih (fun k hk => h k (by omega)) (by omega) hlt
      · have hone := Bool.toNat_le (f k)
        rw [hg, Bool.toNat_true] at hle
        exact Bool.toNat_eq_one.mp (by omega)

/-- Counting among the cycles in which `f` is high, by their ordinals. -/
theorem count_ordinal (f g : Nat → Bool) (n : Nat) :
    count (fun k => f k && g (count f k)) n = count g (count f n) := by
  induction n with
  | zero => rfl
  | succ n ih =>
      rw [count_succ, ih, count_succ]
      cases f n with
      | true => rw [Bool.true_and, Bool.toNat_true, count_succ]
      | false => rfl

/-- The cycle in which `f` is high for the `p`-th time. -/
noncomputable def nthCycle (f : Nat → Bool) (p : Nat) : Nat := Nat.nth (fun k => f k = true) p

theorem nthCycle_count {f : Nat → Bool} {n : Nat} (h : f n = true) : nthCycle f (count f n) = n :=
  Nat.nth_count h

theorem nthCycle_spec {f : Nat → Bool} {n p : Nat} (hp : p < count f n) :
    nthCycle f p < n ∧ f (nthCycle f p) = true ∧ count f (nthCycle f p) = p := by
  induction n with
  | zero => exact absurd hp (Nat.not_lt_zero p)
  | succ n ih =>
      by_cases hlt : p < count f n
      · obtain ⟨hn, hf, hcount⟩ := ih hlt
        exact ⟨by omega, hf, hcount⟩
      · have hone := Bool.toNat_le (f n)
        rw [count_succ] at hp
        have hf : f n = true := Bool.toNat_eq_one.mp (by omega)
        have heq : p = count f n := by omega
        rw [heq, nthCycle_count hf]
        exact ⟨Nat.lt_succ_self n, hf, rfl⟩

/-- The items transferred, one for each cycle in which `f` is high. -/
theorem collect_eq_map (f : Nat → Bool) (b : Nat → α) (n : Nat) :
    collect (fun k => if f k then some (b k) else none) n =
      (List.range (count f n)).map fun p => b (nthCycle f p) := by
  induction n with
  | zero => rfl
  | succ n ih =>
      rw [collect_succ, ih, count_succ]
      cases hf : f n with
      | true => simp [List.range_succ, nthCycle_count hf]
      | false => simp

/-- Items transferred in a row, from cycle `lo` on. -/
theorem collect_window (b : Nat → α) (lo len n : Nat) :
    collect (fun k => if lo ≤ k ∧ k < lo + len then some (b (k - lo)) else none) n =
      (List.range (min (n - lo) len)).map b := by
  induction n with
  | zero => simp
  | succ n ih =>
      rw [collect_succ, ih]
      split
      · next hin =>
          rw [show min (n + 1 - lo) len = min (n - lo) len + 1 by omega, List.range_succ,
            List.map_append, show min (n - lo) len = n - lo by omega]
          rfl
      · next hout =>
          rw [show min (n + 1 - lo) len = min (n - lo) len by omega, Option.toList_none,
            List.append_nil]

/-! ## transducers -/

/-- Take the items of a list one after the other. -/
def feed (take : τ → β → τ × List γ) (t : τ) : List β → τ × List γ
  | [] => (t, [])
  | b :: bs => ((feed take (take t b).1 bs).1, (take t b).2 ++ (feed take (take t b).1 bs).2)

section Feed

variable {take : τ → β → τ × List γ} {t : τ}

@[simp] theorem feed_nil : feed take t [] = (t, []) := rfl

theorem feed_cons (b : β) (bs : List β) : feed take t (b :: bs) =
    ((feed take (take t b).1 bs).1, (take t b).2 ++ (feed take (take t b).1 bs).2) := rfl

theorem feed_append (bs bs' : List β) : feed take t (bs ++ bs') =
    ((feed take (feed take t bs).1 bs').1,
      (feed take t bs).2 ++ (feed take (feed take t bs).1 bs').2) := by
  induction bs generalizing t with
  | nil => rfl
  | cons b bs ih => rw [List.cons_append, feed_cons, ih, feed_cons, List.append_assoc]

theorem feed_concat (bs : List β) (b : β) : feed take t (bs ++ [b]) =
    ((take (feed take t bs).1 b).1, (feed take t bs).2 ++ (take (feed take t bs).1 b).2) := by
  rw [feed_append, feed_cons, feed_nil, List.append_nil]

/-- Each item suits the state that it is taken in. -/
def FeedAll (take : τ → β → τ × List γ) (suits : τ → β → Prop) (t : τ) : List β → Prop
  | [] => True
  | b :: bs => suits t b ∧ FeedAll take suits (take t b).1 bs

variable {suits : τ → β → Prop} {bs : List β}

theorem feedAll_append {bs' : List β} : FeedAll take suits t (bs ++ bs') ↔
    FeedAll take suits t bs ∧ FeedAll take suits (feed take t bs).1 bs' := by
  induction bs generalizing t with
  | nil => exact (iff_of_eq (true_and _)).symm
  | cons b bs ih => rw [List.cons_append, FeedAll, FeedAll, ih, feed_cons, and_assoc]

/-- The item after any first ones. -/
theorem FeedAll.suits_next (h : FeedAll take suits t bs) {bs' : List β} {b : β} (hpre : bs' ++ [b] <+: bs) :
    suits (feed take t bs').1 b := by
  obtain ⟨rest, rfl⟩ := hpre
  rw [List.append_assoc, feedAll_append] at h
  exact h.2.1

end Feed

/-! ## refinement -/

/-- What one cycle of a machine does with its streams: `got` and `gave` are what
it takes and gives in each cycle, `view` is the transducer state it stands for
and `pending` what it holds back. -/
structure Refines (step : σ → ι → σ) (got : σ → ι → Option β) (gave : σ → ι → Option γ)
    (take : τ → β → τ × List γ) (Inv : σ → Prop) (view : σ → τ) (pending : σ → List γ) : Prop where
  inv : ∀ s i, Inv s → Inv (step s i)
  idle : ∀ s i, Inv s → got s i = none →
    view (step s i) = view s ∧ (gave s i).toList ++ pending (step s i) = pending s
  took : ∀ s i b, Inv s → got s i = some b →
    view (step s i) = (take (view s) b).1 ∧
    (gave s i).toList ++ pending (step s i) = pending s ++ (take (view s) b).2

section Refines

variable {step : σ → ι → σ} {got : σ → ι → Option β} {gave : σ → ι → Option γ}
  {take : τ → β → τ × List γ} {Inv : σ → Prop} {view : σ → τ} {pending : σ → List γ}
  {s : σ} {i : Nat → ι}

/-- **Refinement rule**: after any cycles the machine stands where the
transducer is after the items taken, and has given what the transducer gives,
but for what it holds back. -/
theorem Refines.collect (h : Refines step got gave take Inv view pending) (h0 : Inv s) (n : Nat) :
    Inv (run step s i n) ∧
    view (run step s i n) =
      (feed take (view s) (collect (fun k => got (run step s i k) (i k)) n)).1 ∧
    Hdl.collect (fun k => gave (run step s i k) (i k)) n ++ pending (run step s i n) =
      pending s ++ (feed take (view s) (Hdl.collect (fun k => got (run step s i k) (i k)) n)).2 := by
  induction n with
  | zero => exact ⟨h0, rfl, by simp⟩
  | succ n ih =>
      obtain ⟨hinv, hview, hout⟩ := ih
      rw [collect_succ, collect_succ, run_succ]
      refine ⟨h.inv _ _ hinv, ?_⟩
      cases hg : got (run step s i n) (i n) with
      | none =>
          obtain ⟨hv, hp⟩ := h.idle _ _ hinv hg
          rw [Option.toList_none, List.append_nil, List.append_assoc, hp, hv]
          exact ⟨hview, hout⟩
      | some b =>
          obtain ⟨hv, hp⟩ := h.took _ _ b hinv hg
          rw [Option.toList_some, feed_concat, List.append_assoc, hp, ← List.append_assoc, hout, hv,
            hview, List.append_assoc]
          exact ⟨rfl, rfl⟩

end Refines

end Hdl
