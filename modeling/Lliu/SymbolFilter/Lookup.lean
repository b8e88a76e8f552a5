import Lliu.Hdl.Hold
import Lliu.Hdl.Run
import Lliu.SymbolFilter

/-!
# Lliu.SymbolFilter.Lookup

Lookups over whole runs.  What an entry holds is the last write to it; a lookup compares
in the cycle after `stock_valid`, and its result is out two cycles later, apart from
lookups and writes in the cycles around it.
-/

namespace Lliu

namespace SymbolFilter

open Hdl

/-! ## the entries -/

/-- The ticker of an entry, if it is valid. -/
def entry (s : SymbolFilter) (k : Fin symFilterEntries) : Option (BitVec 64) :=
  if s.camValid k then some (s.camEntry k) else none

/-- What a write makes of the entry it is for. -/
def written (i : SymbolFilterIn) : Option (BitVec 64) :=
  if i.camWrEnBit then some i.camWrData else none

theorem entry_step (s : SymbolFilter) (i : SymbolFilterIn) (k : Fin symFilterEntries) :
    (s.step i).entry k = if camWrite i k then written i else s.entry k := by
  have hvalid : (s.step i).camValid k = if camWrite i k then i.camWrEnBit else s.camValid k := rfl
  have hentry : (s.step i).camEntry k = if camWrite i k then i.camWrData else s.camEntry k := rfl
  rw [entry, hvalid, hentry]
  cases camWrite i k <;> rfl

/-- A write is for the entry of its index. -/
theorem camWrite_iff {i : SymbolFilterIn} {k : Fin symFilterEntries} :
    camWrite i k = true ↔ i.camWrValid = true ∧ i.camWrIndex.toNat = k := by
  have hk : k.val < 2 ^ 7 := Nat.lt_trans k.isLt (by decide)
  rw [camWrite, Bool.and_eq_true, beq_iff_eq, BitVec.toNat_eq, BitVec.toNat_ofNat,
    Nat.mod_eq_of_lt hk]

/-- The groups are all entries. -/
theorem exists_groupEntry (k : Fin symFilterEntries) : ∃ g j, groupEntry g j = k := by
  have hk : k.val < 64 := k.isLt
  exact ⟨⟨k.val / 8, by omega⟩, ⟨k.val % 8, by omega⟩, Fin.ext (Nat.div_add_mod _ _)⟩

/-! ## runs -/

section Run

variable {i : Nat → SymbolFilterIn}

/-- The registers in cycle `n` of a run from reset. -/
def trace (i : Nat → SymbolFilterIn) (n : Nat) : SymbolFilter := run step reset i n

/-- A write of entry `k` in cycle `m`. -/
def writesEntry (i : Nat → SymbolFilterIn) (k : Fin symFilterEntries) (m : Nat) : Bool :=
  (i m).camWrValid && (i m).camWrIndex.toNat == k

/-- In cycle `n` entry `k` is valid with a ticker: the last write to it before marks it valid
and has this ticker. -/
def Holds (i : Nat → SymbolFilterIn) (n : Nat) (k : Fin symFilterEntries) (ticker : BitVec 64) :
    Prop :=
  ∃ c, LastLoad (writesEntry i k) 0 n c ∧ (i c).camWrEnBit = true ∧ (i c).camWrData = ticker

theorem hold_entry (k : Fin symFilterEntries) :
    Hold (writesEntry i k) (fun m => written (i m)) (fun n => (trace i n).entry k) := by
  intro n
  have hload : writesEntry i k n = camWrite (i n) k := by
    rw [Bool.eq_iff_iff, camWrite_iff, writesEntry, Bool.and_eq_true, beq_iff_eq]
  rw [hload]
  exact entry_step _ _ _

/-- The entries are those of the writes. -/
theorem entry_eq_some_iff {n : Nat} {k : Fin symFilterEntries} {ticker : BitVec 64} :
    (trace i n).entry k = some ticker ↔ Holds i n k ticker := by
  have hhold := hold_entry (i := i) k
  constructor
  · intro h
    by_cases hsome : ∃ m, m < n ∧ writesEntry i k m = true
    · obtain ⟨m, hm, hload⟩ := hsome
      obtain ⟨c, hc⟩ := exists_lastLoad hload hm
      have hentry := hhold.of_lastLoad hc
      rw [h, written] at hentry
      refine ⟨c, ⟨Nat.zero_le c, hc.lt, hc.load, hc.last⟩, ?_⟩
      split at hentry
      · next hen => exact ⟨hen, (Option.some.inj hentry).symm⟩
      · exact absurd hentry (by simp)
    · have hkept := hhold.kept (Nat.zero_le n) fun c _ hc => by
        rw [Bool.eq_false_iff]
        exact fun hload => hsome ⟨c, hc, hload⟩
      rw [h] at hkept
      exact absurd hkept (by simp [trace, entry, reset])
  · rintro ⟨c, hc, hen, rfl⟩
    rw [hhold.of_lastLoad hc, written, if_pos hen]

/-! ## lookups -/

/-- A stock is compared in the cycle after it came in. -/
theorem groupOr_succ (n : Nat) (g : Fin 8) : (trace i (n + 1)).groupOr g = true ↔
    ∃ j, (trace i (n + 1)).entry (groupEntry g j) = some (i n).stock := by
  have hmatch : ∀ k, (trace i (n + 1)).matchVec k = true ↔
      (trace i (n + 1)).entry k = some (i n).stock := by
    intro k
    have hstock : (trace i (n + 1)).stockQ = (i n).stock := rfl
    rw [matchVec, entry, hstock]
    cases (trace i (n + 1)).camValid k with
    | false => simp
    | true => simp [eq_comm (a := (i n).stock)]
  simp only [groupOr, List.any_eq_true, List.mem_finRange, true_and, hmatch]

theorem lookupMatchQ_add (n : Nat) : (trace i (n + 3)).lookupMatchQ = true ↔
    ∃ k, Holds i (n + 1) k (i n).stock := by
  have hcomb : (trace i (n + 3)).lookupMatchQ =
      (List.finRange 8).any (trace i (n + 1)).groupOr := rfl
  simp only [hcomb, List.any_eq_true, List.mem_finRange, true_and, groupOr_succ, entry_eq_some_iff]
  constructor
  · rintro ⟨g, j, h⟩
    exact ⟨groupEntry g j, h⟩
  · rintro ⟨k, h⟩
    obtain ⟨g, j, rfl⟩ := exists_groupEntry k
    exact ⟨g, j, h⟩

/-- **Lookup**: `watchlist_hit` is high three cycles after a `stock_valid` whose stock is in a
valid entry in the cycle after it, and in no other cycle. -/
theorem watchlistHit_iff (i : Nat → SymbolFilterIn) (m : Nat) :
    (trace i m).watchlistHit = true ↔
      ∃ n, m = n + 3 ∧ (i n).stockValid = true ∧ ∃ k, Holds i (n + 1) k (i n).stock := by
  match m with
  | 0 | 1 | 2 =>
      refine ⟨fun h => ?_, fun ⟨n, hn, _⟩ => absurd hn (by omega)⟩
      exact absurd (show false = true from h) (by decide)
  | n + 3 =>
      have hvalid : (trace i (n + 3)).lookupValidQ = (i n).stockValid := rfl
      rw [watchlistHit, Bool.and_eq_true, hvalid, lookupMatchQ_add]
      constructor
      · rintro ⟨hv, hhit⟩
        exact ⟨n, rfl, hv, hhit⟩
      · rintro ⟨n', hn, hv, hhit⟩
        obtain rfl : n = n' := by omega
        exact ⟨hv, hhit⟩

end Run

end SymbolFilter

end Lliu
