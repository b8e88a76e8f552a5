import Lliu.Hdl.Stream

/-!
# Hdl.Slot

Handshakes through a register that holds one item.

* `Slot`: nothing is lost, so the items that have come in are those that have
  gone out and the one held.
* `Join`: two channels, each with a slot of its own, whose items leave in pairs;
  the n-th pair is of the n-th items.
* `Flag`: only the number of items matters; an item that comes in while another
  one stays is lost.
* `Executes`: items are carried out one at a time, each in the cycle it comes in.
-/

namespace Hdl

/-! ## slots -/

/-- What the slot holds and what comes in is what goes out and what it holds next. -/
structure Slot (ins outs held : Nat → Option α) : Prop where
  empty : held 0 = none
  step : ∀ n, (held n).toList ++ (ins n).toList = (outs n).toList ++ (held (n + 1)).toList

/-- The items leave in order, and only the one held is still to leave. -/
theorem Slot.collect_eq {ins outs held : Nat → Option α} (h : Slot ins outs held) (n : Nat) :
    collect ins n = collect outs n ++ (held n).toList := by
  induction n with
  | zero => simp [h.empty]
  | succ n ih => rw [collect_succ, collect_succ, ih, List.append_assoc, h.step, List.append_assoc]

theorem map_collect (g : α → β) (f : Nat → Option α) (n : Nat) :
    (collect f n).map g = collect (fun k => (f k).map g) n := by
  induction n with
  | zero => rfl
  | succ n ih =>
      rw [collect_succ, collect_succ, List.map_append, ih]
      cases f n <;> rfl

/-! ## joins -/

/-- Two slots whose items leave together. -/
structure Join (a : Nat → Option α) (b : Nat → Option β) (outs : Nat → Option (α × β))
    (heldA : Nat → Option α) (heldB : Nat → Option β) : Prop where
  left : Slot a (fun n => (outs n).map Prod.fst) heldA
  right : Slot b (fun n => (outs n).map Prod.snd) heldB

/-- **Pairing**: the pairs that have left are of the first items of either channel,
in order, and only the items held are still to leave. -/
theorem Join.collect_eq {a : Nat → Option α} {b : Nat → Option β} {outs : Nat → Option (α × β)}
    {heldA : Nat → Option α} {heldB : Nat → Option β} (h : Join a b outs heldA heldB) (n : Nat) :
    collect a n = (collect outs n).map Prod.fst ++ (heldA n).toList ∧
    collect b n = (collect outs n).map Prod.snd ++ (heldB n).toList := by
  rw [map_collect, map_collect]
  exact ⟨h.left.collect_eq n, h.right.collect_eq n⟩

/-! ## flags -/

/-- A flag that is raised by what comes in and lowered by what goes out; what comes
in while it stays raised is lost. -/
structure Flag (ins outs lost held : Nat → Bool) : Prop where
  empty : held 0 = false
  step : ∀ n, (held n).toNat + (ins n).toNat =
    (outs n).toNat + (lost n).toNat + (held (n + 1)).toNat

section Flag

variable {ins outs lost held : Nat → Bool} {f : Nat → Bool} {n : Nat}

theorem Flag.count_eq (h : Flag ins outs lost held) (n : Nat) :
    count ins n = count outs n + count lost n + (held n).toNat := by
  induction n with
  | zero => simp [h.empty]
  | succ n ih =>
      have hstep := h.step n
      rw [count_succ, count_succ, count_succ]
      omega

theorem count_eq_zero_iff : count f n = 0 ↔ ∀ k, k < n → f k = false := by
  induction n with
  | zero => simp
  | succ n ih =>
      rw [count_succ, Nat.add_eq_zero_iff, ih, Bool.toNat_eq_zero]
      constructor
      · rintro ⟨hlt, hn⟩ k hk
        obtain hk | rfl := Nat.lt_succ_iff_lt_or_eq.mp hk
        · exact hlt k hk
        · exact hn
      · intro h
        exact ⟨fun k hk => h k (Nat.lt_succ_of_lt hk), h n (Nat.lt_succ_self n)⟩

/-- **No loss**: as many have gone out as have come in, but for the one held,
exactly if none has been lost. -/
theorem Flag.count_eq_iff (h : Flag ins outs lost held) (n : Nat) :
    count outs n + (held n).toNat = count ins n ↔ ∀ k, k < n → lost k = false := by
  have hcount := h.count_eq n
  rw [← count_eq_zero_iff]
  constructor <;> intro heq <;> omega

end Flag

/-! ## execution -/

/-- The items `ins` are carried out by a transducer: `view` is its state, and what
it gives for an item is given in the next cycle. -/
structure Executes (take : τ → β → τ × List γ) (ins : Nat → Option β) (view : Nat → τ)
    (gave : Nat → List γ) : Prop where
  start : gave 0 = []
  idle : ∀ n, ins n = none → view (n + 1) = view n ∧ gave (n + 1) = []
  took : ∀ n b, ins n = some b → view (n + 1) = (take (view n) b).1 ∧ gave (n + 1) = (take (view n) b).2

/-- **Execution rule**: each item has been carried out once, in order, and nothing
else has been done. -/
theorem Executes.feed_eq {take : τ → β → τ × List γ} {ins : Nat → Option β} {view : Nat → τ}
    {gave : Nat → List γ} (h : Executes take ins view gave) (n : Nat) :
    view n = (feed take (view 0) (collect ins n)).1 ∧
    (List.range (n + 1)).flatMap gave = (feed take (view 0) (collect ins n)).2 := by
  induction n with
  | zero => simp [h.start]
  | succ n ih =>
      obtain ⟨hview, hgave⟩ := ih
      rw [List.range_succ, List.flatMap_append, hgave, collect_succ]
      cases hi : ins n with
      | none =>
          obtain ⟨hv, hg⟩ := h.idle n hi
          simp [hv, hg, hview]
      | some b =>
          obtain ⟨hv, hg⟩ := h.took n b hi
          rw [Option.toList_some, feed_concat, hv, hview]
          simp [hg, hview]

end Hdl
