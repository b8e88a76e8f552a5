import Mathlib.Logic.Function.Basic
import Mathlib.Data.List.Induction

/-!
# Hdl.Store

A memory that is written one location at a time.  After a list of writes a location has
the value of the last write to it, or its first value if there was none (`store_apply`).
-/

namespace Hdl

variable {α : Type u} {β : Type v} [DecidableEq α]

/-- A memory after some writes, each of a location and its value. -/
def store (m : α → β) (ws : List (α × β)) : α → β :=
  ws.foldl (fun m w => Function.update m w.1 w.2) m

@[simp] theorem store_nil (m : α → β) : store m [] = m := rfl

theorem store_cons (m : α → β) (w : α × β) (ws : List (α × β)) :
    store m (w :: ws) = store (Function.update m w.1 w.2) ws := rfl

theorem store_append (m : α → β) (ws ws' : List (α × β)) :
    store m (ws ++ ws') = store (store m ws) ws' := List.foldl_append

theorem store_concat (m : α → β) (ws : List (α × β)) (w : α × β) :
    store m (ws ++ [w]) = Function.update (store m ws) w.1 w.2 := by
  rw [store_append, store_cons, store_nil]

/-- The value last written to a location. -/
def lastWrite (ws : List (α × β)) (a : α) : Option β :=
  ((ws.filter fun w => w.1 = a).getLast?).map Prod.snd

/-- **Reads**: a location has the value last written to it. -/
theorem store_apply (m : α → β) (ws : List (α × β)) (a : α) :
    store m ws a = (lastWrite ws a).getD (m a) := by
  induction ws using List.reverseRecOn with
  | nil => rfl
  | append_singleton ws w ih =>
      rw [store_concat, lastWrite, List.filter_append]
      by_cases h : w.1 = a
      · subst h
        simp
      · rw [Function.update_of_ne (Ne.symm h), ih, lastWrite]
        simp [h]

/-- **Runs**: a memory that makes the writes `ws n` in cycle `n` has made them all, in order. -/
theorem store_run {m : Nat → α → β} {ws : Nat → List (α × β)}
    (h : ∀ n, m (n + 1) = store (m n) (ws n)) (n : Nat) :
    m n = store (m 0) ((List.range n).flatMap ws) := by
  induction n with
  | zero => rfl
  | succ n ih =>
      rw [h, ih, List.range_succ, List.flatMap_append, store_append, List.flatMap_singleton]

/-- Writes to distinct rows, each at an address and with a value of its own. -/
theorem store_rows [DecidableEq κ] (ks : List κ) (addr : κ → α) (data : κ → β) (m : κ × α → β) (k : κ)
    (a : α) : store m (ks.map fun k => ((k, addr k), data k)) (k, a) =
      if k ∈ ks ∧ a = addr k then data k else m (k, a) := by
  induction ks generalizing m with
  | nil => simp
  | cons k' ks ih =>
      rw [List.map_cons, store_cons, ih]
      by_cases hin : k ∈ ks ∧ a = addr k
      · rw [if_pos hin, if_pos ⟨List.mem_cons_of_mem k' hin.1, hin.2⟩]
      · rw [if_neg hin]
        by_cases hk : (k, a) = (k', addr k')
        · rw [hk, Function.update_self]
          obtain ⟨rfl, rfl⟩ := Prod.mk.inj hk
          rw [if_pos ⟨List.mem_cons_self, rfl⟩]
        · rw [Function.update_of_ne hk, if_neg]
          rintro ⟨hmem, ha⟩
          rcases List.mem_cons.mp hmem with rfl | hmem
          · exact hk (by rw [ha])
          · exact hin ⟨hmem, ha⟩

end Hdl
