import Mathlib.Data.List.Induction

/-!
# Hdl.Frames

A stream of beats cut into frames: a beat for which `last` holds ends the frame that
it is in.  The frames grow at their end with the stream (`frames_concat`), so what a
machine does with each beat can be followed frame by frame.

Where the end of a frame depends on more than its last beat, `cut` takes a predicate on
the frame so far; `Open` and `Whole` are the frames that are under way and complete.
-/

namespace Hdl

/-- The complete frames of a stream and the beats of the one under way. -/
def frames (last : α → Bool) (l : List α) : List (List α) × List α :=
  l.foldl (fun p a => if last a then (p.1 ++ [p.2 ++ [a]], []) else (p.1, p.2 ++ [a])) ([], [])

section Frames

variable {last : α → Bool}

@[simp] theorem frames_nil : frames last [] = ([], []) := rfl

theorem frames_concat (l : List α) (a : α) : frames last (l ++ [a]) =
    if last a then ((frames last l).1 ++ [(frames last l).2 ++ [a]], [])
    else ((frames last l).1, (frames last l).2 ++ [a]) := by
  rw [frames, List.foldl_append]
  rfl

/-- All the frames, the one under way included. -/
def allFrames (last : α → Bool) (l : List α) : List (List α) :=
  (frames last l).1 ++ [(frames last l).2]

theorem flatten_filter_concat (q : List α → Bool) (fs : List (List α)) (f : List α) :
    ((fs ++ [f]).filter q).flatten = (fs.filter q).flatten ++ if q f then f else [] := by
  rw [List.filter_append, List.flatten_append]
  cases hq : q f <;> simp [hq]

/-- The frames selected grow by a beat if its frame is selected; a frame is selected
with its first beat. -/
theorem flatten_filter_allFrames {q : List α → Bool} (hq : ∀ f a, f ≠ [] → q (f ++ [a]) = q f)
    (l : List α) (a : α) : ((allFrames last (l ++ [a])).filter q).flatten =
      ((allFrames last l).filter q).flatten ++ if q ((frames last l).2 ++ [a]) then [a] else [] := by
  have hopen : ∀ f : List α, (if q (f ++ [a]) then f ++ [a] else []) =
      (if q f then f else []) ++ if q (f ++ [a]) then [a] else [] := by
    intro f
    cases f with
    | nil => simp
    | cons b f =>
        rw [hq _ a (List.cons_ne_nil b f)]
        split <;> simp
  rw [allFrames, allFrames, frames_concat, flatten_filter_concat]
  split
  · rw [flatten_filter_concat, flatten_filter_concat, hopen]
    simp
  · rw [flatten_filter_concat, hopen, List.append_assoc]

end Frames

/-! ## frames closed by what they contain -/

/-- A frame that is not closed yet. -/
inductive Open (closes : List α → Bool) : List α → Prop
  | nil : Open closes []
  | concat (f : List α) (a : α) (h : Open closes f) (ha : closes (f ++ [a]) = false) :
      Open closes (f ++ [a])

/-- A frame closed by its last beat. -/
inductive Whole (closes : List α → Bool) : List α → Prop
  | concat (f : List α) (a : α) (h : Open closes f) (ha : closes (f ++ [a]) = true) :
      Whole closes (f ++ [a])

/-- The complete frames of a stream and the beats of the one under way. -/
def cut (closes : List α → Bool) (l : List α) : List (List α) × List α :=
  l.foldl (fun p a =>
    if closes (p.2 ++ [a]) then (p.1 ++ [p.2 ++ [a]], []) else (p.1, p.2 ++ [a])) ([], [])

section Cut

variable {closes : List α → Bool}

/-- Under way, a frame with a beat is not closed. -/
theorem Open.not_closes {f : List α} (h : Open closes f) (hne : f ≠ []) : closes f = false := by
  cases h with
  | nil => exact absurd rfl hne
  | concat f a h ha => exact ha

@[simp] theorem cut_nil : cut closes [] = ([], []) := rfl

theorem cut_concat (l : List α) (a : α) : cut closes (l ++ [a]) =
    if closes ((cut closes l).2 ++ [a]) then ((cut closes l).1 ++ [(cut closes l).2 ++ [a]], [])
    else ((cut closes l).1, (cut closes l).2 ++ [a]) := by
  unfold cut
  rw [List.foldl_append]
  rfl

/-- Nothing of the stream is left out. -/
theorem flatten_cut (l : List α) : (cut closes l).1.flatten ++ (cut closes l).2 = l := by
  induction l using List.reverseRecOn with
  | nil => rfl
  | append_singleton l a ih =>
      rw [cut_concat]
      split
      · rw [List.flatten_append, List.flatten_singleton, List.append_nil, ← List.append_assoc, ih]
      · rw [← List.append_assoc, ih]

theorem open_cut (l : List α) : Open closes (cut closes l).2 := by
  induction l using List.reverseRecOn with
  | nil => exact .nil
  | append_singleton l a ih =>
      rw [cut_concat]
      split
      · exact .nil
      · rename_i h
        exact .concat _ a ih (by simpa using h)

theorem whole_cut (l : List α) : ∀ f ∈ (cut closes l).1, Whole closes f := by
  induction l using List.reverseRecOn with
  | nil => simp
  | append_singleton l a ih =>
      rw [cut_concat]
      split
      · rename_i h
        have hlast : Whole closes ((cut closes l).2 ++ [a]) := .concat _ a (open_cut l) h
        intro f hf
        rcases List.mem_append.mp hf with hf | hf
        · exact ih f hf
        · rwa [List.mem_singleton.mp hf]
      · exact ih

end Cut

end Hdl
