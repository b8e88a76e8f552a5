import Mathlib.Logic.Function.Basic
import Mathlib.Algebra.BigOperators.Group.List.Basic
import Lliu.Hdl.Stream

/-!
# Hdl.LimitLedger

A ledger of signed amounts.  An item may propose an order; the order is *let through*
if the rules allow the exposure it leads to on its account, and is then booked there.
So the ledger is a transducer (`LimitLedger.take`): its state are the exposures, and it
gives the orders it lets through.

Whatever comes in, the exposures are the sums of what was let through
(`feed_take_eq_sum`), they stay where the rules keep them (`feed_take_keeps`), and the
orders are some of those proposed, in their order (`feed_take_sublist`).
-/

namespace Hdl

/-- The rules of a ledger with accounts `κ`, items `β`, orders `ω` and amounts `μ`. -/
structure LimitLedger (κ : Type u) (β : Type v) (ω : Type w) (μ : Type x) where
  /-- The order that an item proposes. -/
  propose : β → Option ω
  account : ω → κ
  amount : ω → μ
  /-- Whether the order may lead to this exposure. -/
  allows : β → ω → μ → Bool

namespace LimitLedger

variable {κ : Type u} {β : Type v} {ω : Type w} {μ : Type x} [AddCommMonoid μ] (l : LimitLedger κ β ω μ)

/-- The exposure that an order leads to. -/
def exposure (pos : κ → μ) (o : ω) : μ := pos (l.account o) + l.amount o

/-- The order of an item that is let through. -/
def through (pos : κ → μ) (b : β) : Option ω :=
  (l.propose b).filter fun o => l.allows b o (l.exposure pos o)

theorem through_eq_some {l : LimitLedger κ β ω μ} {pos : κ → μ} {b : β} {o : ω} :
    l.through pos b = some o ↔
      l.propose b = some o ∧ l.allows b o (l.exposure pos o) = true := by
  rw [through, Option.filter_eq_some_iff]

variable [DecidableEq κ]

/-- The exposures with an order booked. -/
def book (pos : κ → μ) (o : ω) : κ → μ := Function.update pos (l.account o) (l.exposure pos o)

/-- What an item does. -/
def take (pos : κ → μ) (b : β) : (κ → μ) × List ω :=
  match l.through pos b with
  | some o => (l.book pos o, [o])
  | none => (pos, [])

/-- What an order adds to an account. -/
def added (a : κ) (o : ω) : μ := if l.account o = a then l.amount o else 0

variable {l} {pos : κ → μ} {b : β} {o : ω}

theorem take_of_some (h : l.through pos b = some o) : l.take pos b = (l.book pos o, [o]) := by
  rw [take, h]

theorem take_of_none (h : l.through pos b = none) : l.take pos b = (pos, []) := by rw [take, h]

theorem book_apply (a : κ) : l.book pos o a = pos a + l.added a o := by
  rw [book, added]
  by_cases h : l.account o = a
  · subst h
    rw [Function.update_self, if_pos rfl, exposure]
  · rw [Function.update_of_ne (Ne.symm h), if_neg h, add_zero]

/-- One item adds the order it lets through. -/
theorem take_fst (a : κ) : (l.take pos b).1 a = pos a + ((l.take pos b).2.map (l.added a)).sum := by
  cases h : l.through pos b with
  | none => simp [take_of_none h]
  | some o => simp [take_of_some h, book_apply]

/-- **Sums**: the exposures are what was let through. -/
theorem feed_take_eq_sum (bs : List β) (a : κ) :
    (feed l.take pos bs).1 a = pos a + ((feed l.take pos bs).2.map (l.added a)).sum := by
  induction bs generalizing pos with
  | nil => simp
  | cons b bs ih => rw [feed_cons, ih, take_fst, List.map_append, List.sum_append, add_assoc]

/-- **Limits**: what the rules keep of every exposure they allow, all exposures keep. -/
theorem feed_take_keeps {P : μ → Prop} (h : ∀ b o e, l.allows b o e = true → P e)
    (h0 : ∀ a, P (pos a)) (bs : List β) (a : κ) : P ((feed l.take pos bs).1 a) := by
  induction bs generalizing pos with
  | nil => exact h0 a
  | cons b bs ih =>
      rw [feed_cons]
      apply ih
      intro a
      cases ht : l.through pos b with
      | none =>
          rw [take_of_none ht]
          exact h0 a
      | some o =>
          rw [take_of_some ht]
          change P (Function.update pos (l.account o) (l.exposure pos o) a)
          by_cases ha : a = l.account o
          · rw [ha, Function.update_self]
            exact h _ _ _ (through_eq_some.mp ht).2
          · rw [Function.update_of_ne ha]
            exact h0 a

/-- **Order**: what is let through is some of what was proposed. -/
theorem feed_take_sublist (bs : List β) :
    (feed l.take pos bs).2.Sublist (bs.filterMap l.propose) := by
  induction bs generalizing pos with
  | nil => simp
  | cons b bs ih =>
      rw [feed_cons]
      cases ht : l.through pos b with
      | none =>
          rw [take_of_none ht, List.nil_append]
          exact ih.trans (List.Sublist.filterMap _ (List.sublist_cons_self b bs))
      | some o =>
          rw [take_of_some ht, List.filterMap_cons_some (through_eq_some.mp ht).1]
          exact ih.cons_cons o

end LimitLedger

end Hdl
