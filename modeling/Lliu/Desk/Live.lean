import Lliu.Desk

/-!
# Lliu.Desk.Live

What a desk does not need.  The engine keeps two of its five partial sums, so a score depends
on the features and weights of 13 positions only (`score_congr`).  Feature 30, the only one in
which a message sees the price of the message before, is not one of them: a message that is
not supported leaves no trace.  So the signals are those of the supported messages, with any
weights in the other positions (`signals_live`).
-/

namespace Lliu

open Hdl ItchParserV2

/-! ## the sums -/

namespace DotProductEngine

variable {ps qs : List (Bfloat16T × Bfloat16T)}

/-- The pairs of a class, wherever the count starts. -/
theorem filter_zipIdx_congr {j s : Nat} (hlen : ps.length = qs.length)
    (h : ∀ k, (s + k) % 5 = j → ps[k]? = qs[k]?) :
    (ps.zipIdx s).filter (fun p => p.2 % 5 == j) = (qs.zipIdx s).filter (fun p => p.2 % 5 == j) := by
  induction ps generalizing qs s with
  | nil => rw [List.length_eq_zero_iff.mp hlen.symm]
  | cons p ps ih =>
      cases qs with
      | nil => cases hlen
      | cons q qs =>
          have htail := @ih qs (s + 1) (Nat.succ.inj hlen) fun k hk => by
            have := h (k + 1) (by omega)
            rwa [List.getElem?_cons_succ, List.getElem?_cons_succ] at this
          rw [List.zipIdx_cons, List.zipIdx_cons, List.filter_cons, List.filter_cons, htail]
          by_cases hs : s % 5 = j
          · have hhead : p = q := Option.some.inj (h 0 hs)
            rw [hhead]
          · simp [hs]

theorem mergeOver_congr {js : List Nat} (hlen : ps.length = qs.length)
    (h : ∀ k, k % 5 ∈ js → ps[k]? = qs[k]?) : mergeOver js ps = mergeOver js qs := by
  refine List.foldl_ext _ _ _ fun a j hj => ?_
  have hclass : ∀ k, (0 + k) % 5 = j → ps[k]? = qs[k]? := fun k hk => h k (by rwa [← hk, Nat.zero_add] at hj)
  rw [partialSum, partialSum, filter_zipIdx_congr hlen hclass]

end DotProductEngine

namespace Desk

/-! ## positions -/

/-- The positions of a vector that the engine's result depends on. -/
def Live (j : Nat) : Prop := j % 5 ∈ DotProductEngine.retainedAccs 32

instance (j : Nat) : Decidable (Live j) := inferInstanceAs (Decidable (_ ∈ _))

example : (List.range 32).filter (fun j => Live j) = [1, 3, 6, 8, 11, 13, 16, 18, 21, 23, 26, 28, 31] := by
  decide

/-- A score depends on them only. -/
theorem score_congr {P P' : Setup} {t : Nat} {v v' : Fin 32 → Int} {k : Fin numCores}
    (hv : ∀ j : Fin 32, Live j → v j = v' j) (hw : ∀ j, Live j → P.weight t k j = P'.weight t k j) :
    score P t v k = score P' t v' k := by
  refine DotProductEngine.mergeOver_congr (by simp) fun j hj => ?_
  rw [List.getElem?_map, List.getElem?_map]
  cases hget : (List.finRange 32)[j]? with
  | none => rfl
  | some a =>
      obtain ⟨hlt, ha⟩ := List.getElem?_eq_some_iff.mp hget
      have hval : a.val = j := by rw [← ha, List.getElem_finRange]; rfl
      have hlive : Live a := by rwa [Live, hval]
      rw [Option.map_some, Option.map_some, hv a hlive, hw a hlive]

/-! ## the product of the message before -/

/-- A message without it. -/
def blank (x : Seen) : Seen := { x with pxVol := 0 }

theorem intFeature_blank (q : Quotes) (old : List Seen) (x : Seen) (k : Fin 12) :
    intFeature q (old.map blank) (blank x) k = intFeature q old x k := by
  have hlast : lastPrice (old.map blank) = lastPrice old := by
    cases old <;> rfl
  have hbuys : netBuys (old.map blank) = netBuys old := by
    rw [netBuys, List.map_map, netBuys]
    rfl
  rw [intFeature.eq_def, intFeature.eq_def, hlast, hbuys]
  rfl

/-- It is seen in feature 30 only. -/
theorem feature_blank (q : Quotes) (old : List Seen) (x : Seen) {k : Fin 32} (hk : k.val ≠ 30) :
    feature q (old.map blank) (blank x) k = feature q old x k := by
  have hbought : (blank x :: old.map blank).map Seen.bought = (x :: old).map Seen.bought := by
    rw [← List.map_cons, List.map_map]
    rfl
  have hsold : (blank x :: old.map blank).map Seen.sold = (x :: old).map Seen.sold := by
    rw [← List.map_cons, List.map_map]
    rfl
  have height : eightAgo (old.map blank) (blank x) = eightAgo old x := by
    rw [eightAgo, eightAgo, List.getElem?_map]
    cases old[7]? <;> rfl
  rw [feature, feature, hbought, hsold, height, if_neg hk, if_neg hk]
  simp only [intFeature_blank]

/-! ## signals -/

/-- Two desks that differ only in what no signal shows. -/
structure Alike (d d' : Desk) : Prop where
  book : d.book = d'.book
  seen : d.seen.map blank = d'.seen.map blank

variable {P : Setup} {w : Nat → Fin numCores → Nat → Bfloat16T} {d d' : Desk}

theorem Alike.features (h : Alike d d') (t : Nat) (m : Fields) {k : Fin 32} (hk : k.val ≠ 30) :
    d.features t m k = d'.features t m k := by
  have hsee : blank (d.see t m) = blank (d'.see t m) := rfl
  rw [Desk.features, Desk.features, ← feature_blank _ _ _ hk, h.book, h.seen, hsee, feature_blank _ _ _ hk]

theorem Alike.signal (h : Alike d d') {t : Nat} (m : Fields)
    (hw : ∀ k j, Live j → w t k j = P.weight t k j) :
    Desk.signal P d t m = Desk.signal { P with weight := w } d' t m := by
  have hscores : score P t (d.features t m) = score { P with weight := w } t (d'.features t m) := by
    funext k
    refine score_congr (fun j hj => h.features t m ?_) fun j hj => (hw k j hj).symm
    intro h30
    rw [h30] at hj
    exact absurd hj (by decide)
  rw [Desk.signal, Desk.signal, hscores, h.book]

/-- A supported message gives the same signals and leaves the desks alike. -/
theorem Alike.take (h : Alike d d') {e : Nat × Fields} (hw : ∀ k j, Live j → w e.1 k j = P.weight e.1 k j) :
    Alike (Desk.take P d e).1 (Desk.take { P with weight := w } d' e).1 ∧
    (Desk.take P d e).2 = (Desk.take { P with weight := w } d' e).2 := by
  rw [Desk.take, Desk.take]
  by_cases hwatch : (supported e.2.msgType && P.watches e.1 e.2.stock) = true
  · rw [if_pos hwatch, if_pos hwatch, h.signal e.2 hw]
    refine ⟨⟨by rw [h.book], ?_⟩, rfl⟩
    rw [List.map_cons, List.map_cons, h.seen]
    rfl
  · rw [if_neg hwatch, if_neg hwatch]
    exact ⟨⟨by rw [h.book], h.seen⟩, rfl⟩

theorem bookOp_of_not_supported {x : BitVec 8} (h : supported x = false) : bookOp x = none := by
  revert h
  revert x
  decide

/-- Any other message changes nothing that is seen. -/
theorem Alike.skip (h : Alike d d') {e : Nat × Fields} (hs : supported e.2.msgType = false) :
    Alike (Desk.take P d e).1 d' ∧ (Desk.take P d e).2 = [] := by
  have hbook : d.book.exec (bookMsg e.2) = d.book := if_pos (bookOp_of_not_supported hs)
  rw [Desk.take, hs, Bool.false_and, if_neg Bool.false_ne_true, hbook]
  exact ⟨⟨h.book, h.seen⟩, rfl⟩

/-- **What signals depend on**: the signals of any messages are those of the supported ones, with
any weights in the positions that are not live. -/
theorem signals_live {es : List (Nat × Fields)} (hw : ∀ t k j, Live j → w t k j = P.weight t k j) :
    signals P es = signals { P with weight := w } (es.filter fun e => supported e.2.msgType) := by
  have hrun : ∀ d d', Alike d d' → (feed (Desk.take P) d es).2 =
      (feed (Desk.take { P with weight := w }) d' (es.filter fun e => supported e.2.msgType)).2 := by
    induction es with
    | nil =>
        intro d d' _
        rw [List.filter_nil, feed_nil, feed_nil]
    | cons e es ih =>
        intro d d' h
        cases hs : supported e.2.msgType with
        | true =>
            obtain ⟨halike, hout⟩ := h.take (hw e.1)
            rw [List.filter_cons, if_pos hs, feed_cons, feed_cons, hout, ih _ _ halike]
        | false =>
            obtain ⟨halike, hout⟩ := h.skip (P := P) hs
            rw [List.filter_cons, if_neg (by simp [hs]), feed_cons, hout, ih _ _ halike, List.nil_append]
  exact hrun start start ⟨rfl, rfl⟩

end Desk

end Lliu
