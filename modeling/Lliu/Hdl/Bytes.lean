import Mathlib.Tactic.Ring
import Lliu.Hdl.Axis

/-!
# Hdl.Bytes

Numbers as lists of bytes, the most significant one first: the two directions are inverse to
each other where the number fits, and a byte is read off by division.
-/

namespace Hdl

/-- The number of some bytes. -/
def fromBytes (bs : List Byte) : Nat := bs.foldl (fun n b => 256 * n + b.toNat) 0

/-- The last `n` bytes of a number. -/
def toBytes : Nat → Nat → List Byte
  | 0, _ => []
  | n + 1, v => toBytes n (v / 256) ++ [BitVec.ofNat 8 v]

@[simp] theorem fromBytes_nil : fromBytes [] = 0 := rfl

theorem fromBytes_concat (bs : List Byte) (b : Byte) : fromBytes (bs ++ [b]) = 256 * fromBytes bs + b.toNat := by
  rw [fromBytes, List.foldl_append]
  rfl

@[simp] theorem length_toBytes (n v : Nat) : (toBytes n v).length = n := by
  induction n generalizing v with
  | zero => rfl
  | succ n ih => rw [toBytes, List.length_append, ih, List.length_singleton]

theorem fromBytes_append (bs cs : List Byte) :
    fromBytes (bs ++ cs) = 256 ^ cs.length * fromBytes bs + fromBytes cs := by
  induction cs using List.reverseRecOn with
  | nil => simp
  | append_singleton cs c ih =>
      rw [← List.append_assoc, fromBytes_concat, fromBytes_concat, ih, List.length_append,
        List.length_singleton, Nat.pow_succ]
      ring

theorem fromBytes_lt (bs : List Byte) : fromBytes bs < 256 ^ bs.length := by
  induction bs using List.reverseRecOn with
  | nil => decide
  | append_singleton bs b ih =>
      have hb := b.isLt
      rw [fromBytes_concat, List.length_append, List.length_singleton, Nat.pow_succ]
      omega

/-- Decoding after encoding. -/
theorem fromBytes_toBytes {n v : Nat} (h : v < 256 ^ n) : fromBytes (toBytes n v) = v := by
  induction n generalizing v with
  | zero => exact (Nat.lt_one_iff.mp h).symm
  | succ n ih =>
      rw [Nat.pow_succ] at h
      rw [toBytes, fromBytes_concat, ih (by omega), BitVec.toNat_ofNat]
      omega

/-- Encoding after decoding. -/
theorem toBytes_fromBytes (bs : List Byte) : toBytes bs.length (fromBytes bs) = bs := by
  induction bs using List.reverseRecOn with
  | nil => rfl
  | append_singleton bs b ih =>
      have hb := b.isLt
      have hdiv : (256 * fromBytes bs + b.toNat) / 256 = fromBytes bs := by omega
      have hmod : BitVec.ofNat 8 (256 * fromBytes bs + b.toNat) = b := by
        apply BitVec.eq_of_toNat_eq
        rw [BitVec.toNat_ofNat]
        omega
      rw [List.length_append, List.length_singleton, toBytes, fromBytes_concat, hdiv, hmod, ih]

/-- A byte of a number. -/
theorem getElem?_toBytes {n k : Nat} (v : Nat) (hk : k < n) :
    (toBytes n v)[k]? = some (BitVec.ofNat 8 (v / 256 ^ (n - 1 - k))) := by
  induction n generalizing v with
  | zero => omega
  | succ n ih =>
      rw [toBytes]
      obtain hlt | rfl := Nat.lt_or_eq_of_le (Nat.le_of_lt_succ hk)
      · have hexp : (n - 1 - k).succ = n + 1 - 1 - k := by omega
        rw [List.getElem?_append_left (by rwa [length_toBytes]), ih _ hlt, Nat.div_div_eq_div_mul,
          ← Nat.pow_succ', hexp]
      · rw [List.getElem?_append_right (by rw [length_toBytes]), length_toBytes, Nat.sub_self]
        simp

end Hdl
