/-!
# Hdl.Server

A server without a queue: it takes a request that comes while it is ready, works on it
for a time that depends on the request, and does not see those that come meanwhile.  So
it is ready exactly when the time of the requests it took is over (`Server.ready_of_after`,
`Server.after_of_ready`).
-/

namespace Hdl

/-- After a request in cycle `t` that finds it ready it is busy for `dur t` cycles and ready
again in the next; without a request it stays ready. -/
structure Server (ready request : Nat → Bool) (dur : Nat → Nat) : Prop where
  start : ready 0 = true
  idle : ∀ n, ready n = true → request n = false → ready (n + 1) = true
  busy : ∀ n, ready n = true → request n = true → ∀ k, k < dur n → ready (n + 1 + k) = false
  done : ∀ n, ready n = true → request n = true → ready (n + 1 + dur n) = true

namespace Server

variable {ready request : Nat → Bool} {dur : Nat → Nat}

/-- In every cycle it is ready or within the time of a request it took. -/
theorem ready_or_busy (h : Server ready request dur) (n : Nat) : ready n = true ∨
    ∃ t, t < n ∧ ready t = true ∧ request t = true ∧ n ≤ t + dur t := by
  induction n with
  | zero => exact Or.inl h.start
  | succ n ih =>
      rcases ih with hr | ⟨t, hlt, hr, hq, hle⟩
      · cases hq : request n with
        | false => exact Or.inl (h.idle n hr hq)
        | true =>
            by_cases hd : dur n = 0
            · refine Or.inl ?_
              have hdone := h.done n hr hq
              rwa [hd] at hdone
            · exact Or.inr ⟨n, Nat.lt_succ_self n, hr, hq, by omega⟩
      · by_cases hlast : n = t + dur t
        · refine Or.inl ?_
          rw [hlast, show t + dur t + 1 = t + 1 + dur t by omega]
          exact h.done t hr hq
        · exact Or.inr ⟨t, by omega, hr, hq, by omega⟩

/-- It is ready once the requests it took are served. -/
theorem ready_of_after (h : Server ready request dur) {n : Nat}
    (hafter : ∀ t, t < n → ready t = true → request t = true → t + dur t < n) : ready n = true := by
  rcases h.ready_or_busy n with hr | ⟨t, hlt, hr, hq, hle⟩
  · exact hr
  · have := hafter t hlt hr hq
    omega

/-- A request that is taken comes after the time of every one taken before. -/
theorem after_of_ready (h : Server ready request dur) {t n : Nat} (ht : ready t = true)
    (hq : request t = true) (hlt : t < n) (hn : ready n = true) : t + dur t < n := by
  refine Nat.lt_of_not_le fun hge => ?_
  have hbusy := h.busy t ht hq (n - (t + 1)) (by omega)
  rw [show t + 1 + (n - (t + 1)) = n by omega, hn] at hbusy
  cases hbusy

end Server

end Hdl
