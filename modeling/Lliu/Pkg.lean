import Mathlib.Algebra.Ring.Int.Defs
import Mathlib.Algebra.Ring.Nat

/-!
# Lliu.Pkg

The shared parameters and packed types of `lliu_pkg.sv`, as far as the
modelled modules use them.  Vectors of fixed width are `BitVec`s, single wires
are `Bool`s.
-/

namespace Lliu

/-! ## types -/

/-- `bfloat16_t`: 1 sign bit, 8 exponent bits, 7 mantissa bits. -/
abbrev Bfloat16T := BitVec 16

/-- `float32_t`: 1 sign bit, 8 exponent bits, 23 mantissa bits. -/
abbrev Float32T := BitVec 32

/-- A 64-bit ITCH order reference number. -/
abbrev OrderRef := BitVec 64

/-! ## ITCH message types -/

/-- `'A'` Add Order. -/
def itchMsgAddOrder : BitVec 8 := 0x41#8

/-- `'F'` Add Order with MPID attribution. -/
def itchMsgAddOrderMpid : BitVec 8 := 0x46#8

/-- `'X'` Order Cancel. -/
def itchMsgOrderCancel : BitVec 8 := 0x58#8

/-- `'D'` Order Delete. -/
def itchMsgOrderDelete : BitVec 8 := 0x44#8

/-- `'U'` Order Replace. -/
def itchMsgOrderReplace : BitVec 8 := 0x55#8

/-- `'E'` Order Executed. -/
def itchMsgOrderExec : BitVec 8 := 0x45#8

/-- `'C'` Order Executed with Price. -/
def itchMsgOrderExecPx : BitVec 8 := 0x43#8

/-- `'P'` Trade. -/
def itchMsgTrade : BitVec 8 := 0x50#8

/-! ## order book parameters -/

/-- `OB_LEVELS`. -/
abbrev obLevels : Nat := 4

@[instance]
theorem neZero_obLevels : NeZero obLevels := ⟨by decide⟩

/-- `OB_REF_TABLE_BITS`: the reference table has `2 ^ 13` entries. -/
abbrev obRefTableBits : Nat := 13

/-- `OB_SYM_ID_W = $clog2(OB_NUM_SYMBOLS)` for 64 symbols. -/
abbrev obSymIdW : Nat := 6

/-- A symbol index `0 .. OB_NUM_SYMBOLS-1`. -/
abbrev SymId := BitVec obSymIdW

/-- An address of the order reference table. -/
abbrev RefAddr := BitVec obRefTableBits

/-! ## counters -/

/-- Counters that do not wrap are equal where their values are. -/
theorem ofNat_inj_of_lt {w a b : Nat} (ha : a < 2 ^ w) (hb : b < 2 ^ w) :
    BitVec.ofNat w a = BitVec.ofNat w b ↔ a = b := by
  constructor
  · intro h
    have hnat := congrArg BitVec.toNat h
    rwa [BitVec.toNat_ofNat, BitVec.toNat_ofNat, Nat.mod_eq_of_lt ha, Nat.mod_eq_of_lt hb] at hnat
  · exact fun h => congrArg _ h

end Lliu
