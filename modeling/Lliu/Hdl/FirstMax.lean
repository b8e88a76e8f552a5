import Mathlib.Order.Defs.PartialOrder

/-!
# Hdl.FirstMax

The first of the greatest candidates of a list, when only some of its elements are
candidates.  A tournament finds it: of the first greatest candidates of two lists, the
second is that of their concatenation only if its key is strictly greater.
-/

namespace Hdl

variable {α : Type u} {β : Type v} [Preorder β] {cand : α → Prop} {key : α → β}
  {xs ys : List α} {x : α}

/-- `x` is the first of the greatest candidates among `xs`: a candidate before it has a
smaller key, one after it no greater key. -/
def FirstMax (cand : α → Prop) (key : α → β) (xs : List α) (x : α) : Prop :=
  cand x ∧ ∃ before after, xs = before ++ x :: after ∧
    (∀ y ∈ before, cand y → key y < key x) ∧ ∀ y ∈ after, cand y → key y ≤ key x

namespace FirstMax

theorem singleton (h : cand x) : FirstMax cand key [x] x := by
  refine ⟨h, [], [], rfl, ?_, ?_⟩ <;> simp

theorem mem (h : FirstMax cand key xs x) : x ∈ xs := by
  obtain ⟨-, before, after, rfl, -, -⟩ := h
  simp

/-- No candidate has a greater key. -/
theorem bound (h : FirstMax cand key xs x) {y : α} (hy : y ∈ xs) (hc : cand y) :
    key y ≤ key x := by
  obtain ⟨-, before, after, rfl, hb, ha⟩ := h
  rcases List.mem_append.mp hy with hy | hy
  · exact le_of_lt (hb y hy hc)
  · rcases List.mem_cons.mp hy with rfl | hy
    · exact le_refl _
    · exact ha y hy hc

/-- Elements that are no better may follow. -/
theorem append (h : FirstMax cand key xs x) (hle : ∀ y ∈ ys, cand y → key y ≤ key x) :
    FirstMax cand key (xs ++ ys) x := by
  obtain ⟨hc, before, after, rfl, hb, ha⟩ := h
  refine ⟨hc, before, after ++ ys, by simp, hb, fun y hy => ?_⟩
  rcases List.mem_append.mp hy with hy | hy
  · exact ha y hy
  · exact hle y hy

/-- Elements that are worse may precede. -/
theorem prepend (h : FirstMax cand key xs x) (hlt : ∀ y ∈ ys, cand y → key y < key x) :
    FirstMax cand key (ys ++ xs) x := by
  obtain ⟨hc, before, after, rfl, hb, ha⟩ := h
  refine ⟨hc, ys ++ before, after, by simp, fun y hy => ?_, ha⟩
  rcases List.mem_append.mp hy with hy | hy
  · exact hlt y hy
  · exact hb y hy

/-- In an increasing list a candidate of a smaller index has a smaller key. -/
theorem lt_of_lt [Preorder α] (h : FirstMax cand key xs x) (hs : xs.Pairwise (· < ·)) {y : α}
    (hy : y ∈ xs) (hlt : y < x) (hc : cand y) : key y < key x := by
  obtain ⟨-, before, after, rfl, hb, -⟩ := h
  rcases List.mem_append.mp hy with hy | hy
  · exact hb y hy hc
  · have hafter := (List.pairwise_cons.mp (List.pairwise_append.mp hs).2.1).1
    rcases List.mem_cons.mp hy with rfl | hy
    · exact absurd hlt (lt_irrefl y)
    · exact absurd (lt_trans hlt (hafter y hy)) (lt_irrefl y)

end FirstMax

end Hdl
