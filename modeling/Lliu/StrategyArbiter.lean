import Lliu.Hdl.FirstMax
import Lliu.Hdl.Run
import Lliu.Pkg
import Mathlib.Order.Fin.Basic

/-!
# Lliu.StrategyArbiter

`strategy_arbiter.sv`: the tournament over the cores' scores.  The nodes of its
three levels are one function, `Contender.pick`, and each level is registered,
so the winner is out three cycles after the scores.

A node of any level stands for the cores below it: it is invalid when none of them
competes, and else it is the first of those with the best score, with the fields of
that core (`Stands`).
-/

namespace Lliu

open Hdl

/-- `NUM_CORES`. -/
abbrev numCores : Nat := 8

@[instance]
theorem neZero_numCores : NeZero numCores := ⟨by decide⟩

/-- The inputs of `strategy_arbiter`. -/
structure StrategyArbiterIn where
  coreScores : Fin numCores → Float32T
  coreValids : Fin numCores → Bool
  coreSides : Fin numCores → Bool
  scoreThresh : Float32T

/-- A node of the tournament. -/
structure Contender where
  score : Float32T
  id : BitVec 3
  valid : Bool
  side : Bool
  deriving DecidableEq, Repr

/-- The winner of two: an invalid node loses, and the first wins a tie. -/
def Contender.pick (a b : Contender) : Contender :=
  if !a.valid && !b.valid then { a with valid := false }
  else if !a.valid then { b with valid := true }
  else if !b.valid then { a with valid := true }
  else if b.score ≤ a.score then { a with valid := true }
  else { b with valid := true }

/-- The cleared node. -/
def Contender.zero : Contender where
  score := 0
  id := 0
  valid := false
  side := false

/-- The registers of `strategy_arbiter`. -/
structure StrategyArbiter where
  lv0R : Fin 4 → Contender
  lv1R : Fin 2 → Contender
  best : Contender

namespace StrategyArbiter

/-- The registers after reset. -/
def reset : StrategyArbiter where
  lv0R := fun _ => Contender.zero
  lv1R := fun _ => Contender.zero
  best := Contender.zero

/-- `best_score`. -/
def bestScore (s : StrategyArbiter) : Float32T := s.best.score

/-- `best_core_id`. -/
def bestCoreId (s : StrategyArbiter) : BitVec 3 := s.best.id

/-- `best_valid`. -/
def bestValid (s : StrategyArbiter) : Bool := s.best.valid

/-- `best_side`. -/
def bestSide (s : StrategyArbiter) : Bool := s.best.side

/-- `gated_valid`: a score below the threshold does not compete. -/
def gatedValid (i : StrategyArbiterIn) (k : Fin numCores) : Bool :=
  i.coreValids k && decide (i.scoreThresh ≤ i.coreScores k)

/-- Core `k` as a leaf of the tournament. -/
def leaf (i : StrategyArbiterIn) (k : Fin numCores) : Contender where
  score := i.coreScores k
  id := BitVec.ofNat 3 k.val
  valid := gatedValid i k
  side := i.coreSides k

/-- The first of the pair below node `g`. -/
def fstOf (g : Fin n) : Fin (2 * n) := ⟨2 * g.val, by omega⟩

/-- The second of the pair below node `g`. -/
def sndOf (g : Fin n) : Fin (2 * n) := ⟨2 * g.val + 1, by omega⟩

/-- A level of the tournament from the level below. -/
def level (below : Fin (2 * n) → Contender) (g : Fin n) : Contender :=
  (below (fstOf g)).pick (below (sndOf g))

/-- One clock edge. -/
def step (s : StrategyArbiter) (i : StrategyArbiterIn) : StrategyArbiter where
  lv0R := level (leaf i)
  lv1R := level s.lv0R
  best := (s.lv1R 0).pick (s.lv1R 1)

/-! ## the tournament -/

/-- The winner among the cores, three cycles later at the outputs. -/
def winner (i : StrategyArbiterIn) : Contender :=
  (level (level (leaf i)) (0 : Fin 2)).pick (level (level (leaf i)) (1 : Fin 2))

theorem best_step_step_step (s : StrategyArbiter) (i i' i'' : StrategyArbiterIn) :
    (((s.step i).step i').step i'').best = winner i := rfl

theorem valid_pick (a b : Contender) : (a.pick b).valid = (a.valid || b.valid) := by
  rw [Contender.pick]
  cases a.valid <;> cases b.valid <;> simp [apply_ite Contender.valid]

theorem pick_of_invalid {a b : Contender} (ha : a.valid = false) (hb : b.valid = false) :
    (a.pick b).id = a.id := by
  simp [Contender.pick, ha, hb]

/-- There is a winner exactly if some core competes. -/
theorem valid_winner (i : StrategyArbiterIn) :
    (winner i).valid = true ↔ ∃ k, gatedValid i k = true := by
  have hleaf : ∀ k : Fin numCores, (leaf i k).valid = gatedValid i k := fun _ => rfl
  simp only [winner, level, valid_pick, Bool.or_eq_true, hleaf]
  constructor
  · rintro (((h | h) | h | h) | (h | h) | h | h) <;> exact ⟨_, h⟩
  · rintro ⟨k, hk⟩
    match k, hk with
    | 0, hk => exact Or.inl (Or.inl (Or.inl hk))
    | 1, hk => exact Or.inl (Or.inl (Or.inr hk))
    | 2, hk => exact Or.inl (Or.inr (Or.inl hk))
    | 3, hk => exact Or.inl (Or.inr (Or.inr hk))
    | 4, hk => exact Or.inr (Or.inl (Or.inl hk))
    | 5, hk => exact Or.inr (Or.inl (Or.inr hk))
    | 6, hk => exact Or.inr (Or.inr (Or.inl hk))
    | 7, hk => exact Or.inr (Or.inr (Or.inr hk))

/-- Without a winner the core number is zero. -/
theorem id_winner_of_none {i : StrategyArbiterIn} (h : ∀ k, gatedValid i k = false) :
    (winner i).id = 0 := by
  have hleaf : ∀ k : Fin numCores, (leaf i k).valid = false := h
  have hlevel : ∀ {n : Nat} {below : Fin (2 * n) → Contender}, (∀ k, (below k).valid = false) →
      ∀ g, (level below g).valid = false ∧ (level below g).id = (below (fstOf g)).id := by
    intro n below hb g
    rw [level, valid_pick, hb, hb]
    exact ⟨rfl, pick_of_invalid (hb _) (hb _)⟩
  have h0 := hlevel (n := 4) hleaf
  have h1 := hlevel (n := 2) fun k => (h0 k).1
  rw [winner, pick_of_invalid (h1 0).1 (h1 1).1, (h1 0).2, (h0 _).2]
  rfl

/-! ## the best score -/

/-- The first of two wins if it is valid and not beaten by the second. -/
theorem pick_eq_left {a b : Contender} (ha : a.valid = true)
    (h : b.valid = true → b.score ≤ a.score) : a.pick b = a := by
  have hself : { a with valid := true } = a := by rw [← ha]
  rw [Contender.pick, hself]
  cases hb : b.valid with
  | false => simp [ha]
  | true => simp [ha, h hb]

/-- The second wins if it is valid and beats the first. -/
theorem pick_eq_right {a b : Contender} (hb : b.valid = true)
    (h : a.valid = true → ¬ b.score ≤ a.score) : a.pick b = b := by
  have hself : { b with valid := true } = b := by rw [← hb]
  rw [Contender.pick, hself]
  cases ha : a.valid with
  | false => simp [hb]
  | true => simp [hb, h ha]

variable {i : StrategyArbiterIn} {ks ks' : List (Fin numCores)} {a b : Contender}

/-- Core `k` competes: it is valid and its score reaches the threshold. -/
def Competes (i : StrategyArbiterIn) (k : Fin numCores) : Prop :=
  i.coreValids k = true ∧ i.scoreThresh.toNat ≤ (i.coreScores k).toNat

instance (i : StrategyArbiterIn) (k : Fin numCores) : Decidable (Competes i k) :=
  inferInstanceAs (Decidable (_ ∧ _))

theorem gatedValid_iff {k : Fin numCores} : gatedValid i k = true ↔ Competes i k := by
  simp [gatedValid, Competes, BitVec.le_def]

/-- The score by which the cores are ordered. -/
def scoreOf (i : StrategyArbiterIn) (k : Fin numCores) : Nat := (i.coreScores k).toNat

/-- The node `c` stands for the cores `ks`. -/
inductive Stands (i : StrategyArbiterIn) (ks : List (Fin numCores)) : Contender → Prop
  | none (c : Contender) (hvalid : c.valid = false) (hnone : ∀ k ∈ ks, ¬ Competes i k) :
      Stands i ks c
  | best (k : Fin numCores) (hbest : FirstMax (Competes i) (scoreOf i) ks k) :
      Stands i ks { score := i.coreScores k, id := BitVec.ofNat 3 k.val, valid := true,
                    side := i.coreSides k }

theorem stands_leaf (i : StrategyArbiterIn) (k : Fin numCores) : Stands i [k] (leaf i k) := by
  by_cases h : Competes i k
  · rw [leaf, gatedValid_iff.mpr h]
    exact .best k (FirstMax.singleton h)
  · exact .none _ (Bool.eq_false_iff.mpr fun hv => h (gatedValid_iff.mp hv)) (by simpa using h)

/-- **Step lemma**: the winner of two nodes stands for the cores of both. -/
theorem Stands.pick (ha : Stands i ks a) (hb : Stands i ks' b) :
    Stands i (ks ++ ks') (a.pick b) := by
  cases ha with
  | none a hav hnone =>
      cases hb with
      | none b hbv hnone' =>
          refine .none _ (by simp [valid_pick, hav, hbv]) fun k hk => ?_
          exact (List.mem_append.mp hk).elim (hnone k) (hnone' k)
      | best k hbest =>
          rw [pick_eq_right rfl (by simp [hav])]
          exact .best k (hbest.prepend fun j hj hc => absurd hc (hnone j hj))
  | best k hbest =>
      cases hb with
      | none b hbv hnone' =>
          rw [pick_eq_left rfl (by simp [hbv])]
          exact .best k (hbest.append fun j hj hc => absurd hc (hnone' j hj))
      | best k' hbest' =>
          by_cases hle : scoreOf i k' ≤ scoreOf i k
          · rw [pick_eq_left rfl fun _ => hle]
            exact .best k (hbest.append fun j hj hc => (hbest'.bound hj hc).trans hle)
          · rw [pick_eq_right rfl fun _ => hle]
            refine .best k' (hbest'.prepend fun j hj hc => ?_)
            exact (hbest.bound hj hc).trans_lt (Nat.lt_of_not_le hle)

/-- A level of the tournament joins the cores of each pair below. -/
theorem stands_level {below : Fin (2 * n) → Contender} {cores : Fin (2 * n) → List (Fin numCores)}
    (h : ∀ g, Stands i (cores g) (below g)) (g : Fin n) :
    Stands i (cores (fstOf g) ++ cores (sndOf g)) (level below g) :=
  (h (fstOf g)).pick (h (sndOf g))

/-- The winner stands for all cores. -/
theorem stands_winner (i : StrategyArbiterIn) : Stands i (List.finRange numCores) (winner i) := by
  have hlv0 := stands_level (n := 4) (stands_leaf i)
  have hlv1 := stands_level (n := 2) hlv0
  exact (hlv1 0).pick (hlv1 1)

/-- The node `c` stands for the cores `ks`: it is the best of those that compete, if
any does. -/
structure BestOf (i : StrategyArbiterIn) (c : Contender) (ks : List (Fin numCores)) : Prop where
  best : c.valid = true → ∃ k ∈ ks, gatedValid i k = true ∧ c.score = i.coreScores k ∧
    c.id = BitVec.ofNat 3 k.val
  le : ∀ j ∈ ks, gatedValid i j = true → c.valid = true ∧ i.coreScores j ≤ c.score

theorem Stands.bestOf (h : Stands i ks a) : BestOf i a ks := by
  cases h with
  | none a hvalid hnone =>
      refine ⟨fun hv => by simp [hvalid] at hv, fun j hj hg => ?_⟩
      exact absurd (gatedValid_iff.mp hg) (hnone j hj)
  | best k hbest =>
      refine ⟨fun _ => ⟨k, hbest.mem, gatedValid_iff.mpr hbest.1, rfl, rfl⟩, fun j hj hg => ?_⟩
      exact ⟨rfl, hbest.bound hj (gatedValid_iff.mp hg)⟩

theorem bestOf_winner (i : StrategyArbiterIn) : BestOf i (winner i) (List.finRange numCores) :=
  (stands_winner i).bestOf

/-! ## runs -/

/-- What is at the outputs is the winner of the inputs three cycles before. -/
theorem best_add_three (s : StrategyArbiter) (i : Nat → StrategyArbiterIn) (n : Nat) :
    (run step s i (n + 3)).best = winner (i n) :=
  best_step_step_step (run step s i n) (i n) (i (n + 1)) (i (n + 2))

/-- **The tournament**: three cycles later there is a best core exactly if some valid core
reaches the threshold, and it is the first of those with the greatest score, with its own
score and side. -/
theorem best_lowest_of_greatest (s : StrategyArbiter) (i : Nat → StrategyArbiterIn) (n : Nat) :
    ((run step s i (n + 3)).bestValid = true ↔
        ∃ k, (i n).coreValids k = true ∧
          (i n).scoreThresh.toNat ≤ ((i n).coreScores k).toNat) ∧
      ((run step s i (n + 3)).bestValid = true →
        ∃ k : Fin numCores, (run step s i (n + 3)).bestCoreId.toNat = k.val ∧
          (run step s i (n + 3)).bestScore = (i n).coreScores k ∧
          (run step s i (n + 3)).bestSide = (i n).coreSides k ∧
          Competes (i n) k ∧
          (∀ j, Competes (i n) j → ((i n).coreScores j).toNat ≤ ((i n).coreScores k).toNat) ∧
          ∀ j < k, Competes (i n) j →
            ((i n).coreScores j).toNat < ((i n).coreScores k).toNat) := by
  rw [bestValid, bestCoreId, bestScore, bestSide, best_add_three]
  have hstands := stands_winner (i n)
  generalize winner (i n) = c at hstands
  cases hstands with
  | none c hvalid hnone =>
      have hno : ¬ ∃ k, Competes (i n) k := fun ⟨k, hk⟩ => hnone k (List.mem_finRange k) hk
      exact ⟨iff_of_false (by simp [hvalid]) hno, by simp [hvalid]⟩
  | best k hbest =>
      refine ⟨⟨fun _ => ⟨k, hbest.1⟩, fun _ => rfl⟩, fun _ => ⟨k, ?_, rfl, rfl, hbest.1, ?_, ?_⟩⟩
      · have hk : k.val < 8 := k.isLt
        simp only [BitVec.toNat_ofNat]
        omega
      · exact fun j hj => hbest.bound (List.mem_finRange j) hj
      · exact fun j hlt hj =>
          hbest.lt_of_lt (List.pairwise_lt_finRange numCores) (List.mem_finRange j) hlt hj

end StrategyArbiter

end Lliu
