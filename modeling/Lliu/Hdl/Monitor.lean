import Lliu.Hdl.Run

/-!
# Hdl.Monitor

Monitors of a test bench.  A monitor is a synchronous machine that sees the signals of each cycle
and lists what is wrong with them.  Its report is empty if an invariant, of the monitor beside the
design it watches, leaves nothing to list (`report_eq_nil`).
-/

namespace Hdl

/-- A monitor with state `σ`, signals `ι` and complaints `ε`. -/
structure Monitor (σ : Type u) (ι : Type v) (ε : Type w) where
  start : σ
  step : σ → ι → σ
  check : σ → ι → List ε

namespace Monitor

variable (m : Monitor σ ι ε) (i : Nat → ι)

/-- The state in cycle `n`. -/
def trace (n : Nat) : σ := run m.step m.start i n

/-- What it lists before cycle `n`. -/
def report : Nat → List ε
  | 0 => []
  | n + 1 => report n ++ m.check (m.trace i n) (i n)

variable {m i}

@[simp] theorem report_zero : m.report i 0 = [] := rfl

theorem report_succ (n : Nat) : m.report i (n + 1) = m.report i n ++ m.check (m.trace i n) (i n) := rfl

theorem trace_succ (n : Nat) : m.trace i (n + 1) = m.step (m.trace i n) (i n) := rfl

theorem report_eq_nil_iff (n : Nat) :
    m.report i n = [] ↔ ∀ k, k < n → m.check (m.trace i k) (i k) = [] := by
  induction n with
  | zero => simp
  | succ n ih =>
      rw [report_succ, List.append_eq_nil_iff, ih]
      constructor
      · rintro ⟨hlt, hn⟩ k hk
        obtain hk | rfl := Nat.lt_succ_iff_lt_or_eq.mp hk
        · exact hlt k hk
        · exact hn
      · exact fun h => ⟨fun k hk => h k (by omega), h n (Nat.lt_succ_self n)⟩

/-- **Silence**: an invariant under which there is nothing to list. -/
theorem report_eq_nil {P : Nat → σ → Prop} (h0 : P 0 m.start)
    (hstep : ∀ n, P n (m.trace i n) → P (n + 1) (m.step (m.trace i n) (i n)))
    (hcheck : ∀ n, P n (m.trace i n) → m.check (m.trace i n) (i n) = []) (n : Nat) :
    m.report i n = [] :=
  (report_eq_nil_iff n).mpr fun k _ => hcheck k (run_invariant h0 hstep k)

end Monitor

end Hdl
