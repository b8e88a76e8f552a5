import Lliu.Hdl.Bytes
import Lliu.ItchParserV2.Messages

/-!
# Lliu.Axi4StreamDriver

`tb/cocotb/drivers/axi4_stream_driver.py`: how the tests put bytes on the stream of a parser.
-/

namespace Lliu

open Hdl ItchParserV2

namespace Axi4StreamDriver

/-- The beats of `send`. -/
def send (data : List Byte) : List ItchBeat :=
  let padded := data ++ List.replicate ((8 - data.length % 8) % 8) 0
  let numBeats := padded.length / 8
  (List.range numBeats).map fun i =>
    { tdata := BitVec.ofNat 64 (fromBytes ((padded.drop (8 * i)).take 8))
      tlast := i = numBeats - 1 }

/-! ## what the parser reads -/

/-- The lanes of a beat are the bytes of its number. -/
theorem lanes_ofNat {l : List Byte} (h : l.length = 8) (last : Bool) :
    (⟨BitVec.ofNat 64 (fromBytes l), last⟩ : ItchBeat).lanes = l := by
  have hlt : fromBytes l < 2 ^ 64 := by
    have := fromBytes_lt l
    rwa [h] at this
  have hl : toBytes 8 (fromBytes l) = l := by
    have := toBytes_fromBytes l
    rwa [h] at this
  refine List.ext_getElem? fun k => ?_
  rw [ItchBeat.lanes]
  by_cases hk : k < 8
  · have hbyte : beatByte (BitVec.ofNat 64 (fromBytes l)) k =
        BitVec.ofNat 8 (fromBytes l / 256 ^ (8 - 1 - k)) := by
      have hpow : 256 ^ (8 - 1 - k) = 2 ^ (56 - 8 * k) := by
        rw [show 256 = 2 ^ 8 from rfl, ← Nat.pow_mul]
        congr 1
        omega
      apply BitVec.eq_of_toNat_eq
      rw [beatByte, BitVec.extractLsb'_toNat, BitVec.toNat_ofNat, BitVec.toNat_ofNat, Nat.mod_eq_of_lt hlt,
        Nat.shiftRight_eq_div_pow, hpow]
    conv_rhs => rw [← hl, getElem?_toBytes _ hk]
    rw [List.getElem?_map, List.getElem?_range hk, Option.map_some, hbyte]
  · rw [List.getElem?_eq_none (by simpa using hk), List.getElem?_eq_none (by omega)]

/-- The beats of padded bytes bring those before the padding. -/
theorem words_chunks {n : Nat} {data padded : List Byte} (hlen : padded.length = 8 * (n + 1))
    (hlead : data <+: padded) (hlt : 8 * n < data.length) :
    Words ((List.range (n + 1)).map fun i =>
      ⟨BitVec.ofNat 64 (fromBytes ((padded.drop (8 * i)).take 8)), i = n⟩) data := by
  induction n generalizing data padded with
  | zero =>
      refine .last _ _ (List.ne_nil_of_length_pos (by omega)) ?_ rfl
      rw [lanes_ofNat (by simp [hlen])]
      rwa [Nat.mul_zero, List.drop_zero, List.take_of_length_le (by omega)]
  | succ n ih =>
      have htake : padded.take 8 = data.take 8 := by
        obtain ⟨rest, rfl⟩ := hlead
        rw [List.take_append_of_le_length (by omega)]
      have htail := @ih (data.drop 8) (padded.drop 8) (by rw [List.length_drop]; omega)
        (hlead.drop 8) (by rw [List.length_drop]; omega)
      have hnext : ((List.range (n + 1)).map Nat.succ).map (fun i : Nat =>
          (⟨BitVec.ofNat 64 (fromBytes ((padded.drop (8 * i)).take 8)), i = n + 1⟩ : ItchBeat)) =
          (List.range (n + 1)).map fun i : Nat =>
            ⟨BitVec.ofNat 64 (fromBytes (((padded.drop 8).drop (8 * i)).take 8)), i = n⟩ := by
        rw [List.map_map]
        refine List.map_congr_left fun i _ => ?_
        rw [Function.comp, List.drop_drop, show 8 + 8 * i = 8 * i.succ by omega]
        simp
      have hsplit : data = (⟨BitVec.ofNat 64 (fromBytes ((padded.drop (8 * 0)).take 8)), false⟩ : ItchBeat).lanes
          ++ data.drop 8 := by
        rw [Nat.mul_zero, List.drop_zero, lanes_ofNat (by rw [List.length_take]; omega), htake,
          List.take_append_drop]
      rw [List.range_succ_eq_map, List.map_cons, hnext]
      conv_rhs => rw [hsplit]
      exact .cons _ _ _ rfl htail

/-- **The driver**: what it sends brings the bytes. -/
theorem words_send {data : List Byte} (h : data ≠ []) : Words (send data) data := by
  have hpos := List.length_pos_of_ne_nil h
  obtain ⟨n, hn⟩ : ∃ n, (data ++ List.replicate ((8 - data.length % 8) % 8) (0 : Byte)).length = 8 * (n + 1) := by
    rw [List.length_append, List.length_replicate]
    exact ⟨(data.length + (8 - data.length % 8) % 8) / 8 - 1, by omega⟩
  have hbeats : (data ++ List.replicate ((8 - data.length % 8) % 8) (0 : Byte)).length / 8 = n + 1 := by omega
  rw [send, hbeats, Nat.add_sub_cancel]
  refine words_chunks hn (List.prefix_append _ _) ?_
  rw [List.length_append, List.length_replicate] at hn
  omega

end Axi4StreamDriver

end Lliu
