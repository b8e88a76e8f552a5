import Lliu.LliuTopV2.Trading
import Lliu.OuchPacketSva

/-!
# Lliu.OuchPacketSva.Verdicts

What the checker has to say of the output of the top level, in every run (`report_eq`).  It finds
the message type and the side only in packets with certain numbers, the first of them packet 20290,
and takes the stock name for shares and price.
-/

namespace Lliu

namespace OuchPacketSva

open Hdl OuchEngine

/-! ## the bytes of a packet -/

/-- The verdict on the packet with number `token` and template row `t`. -/
def verdict (token : BitVec 64) (t : OuchTemplate (BitVec 32) (BitVec 64)) : List OuchFault :=
  (if token.extractLsb' 8 8 ≠ 0x4F then [.packetType] else []) ++
  (if token.setWidth 8 ≠ 0x42 ∧ token.setWidth 8 ≠ 0x53 then [.side] else []) ++
  (if t.b2 = 0 then [.shares] else []) ++
  (if t.b3 = 0 then [.price] else [])

theorem append_eq_zero_iff {x : BitVec v} {y : BitVec w} : x ++ y = 0 ↔ x = 0 ∧ y = 0 := by
  constructor
  · intro h
    have hx := congrArg (BitVec.extractLsb' w v) h
    have hy := congrArg (BitVec.extractLsb' 0 w) h
    rw [BitVec.extractLsb'_append_eq_left] at hx
    rw [BitVec.extractLsb'_append_eq_right] at hy
    exact ⟨hx.trans (by simp), hy.trans (by simp)⟩
  · rintro ⟨rfl, rfl⟩
    simp

/-- A word is zero if its bytes are, in whatever order. -/
theorem reversed_eq_zero_iff (x : BitVec 32) :
    (x.extractLsb' 0 8 ++ x.extractLsb' 8 8 ++ x.extractLsb' 16 8 ++ x.extractLsb' 24 8 : BitVec 32) = 0 ↔
      x = 0 := by
  have hwhole : x.extractLsb' 24 8 ++ x.extractLsb' 16 8 ++ x.extractLsb' 8 8 ++ x.extractLsb' 0 8 = x := by
    rw [BitVec.extractLsb'_append_extractLsb'_eq_extractLsb' (show 24 = 16 + 8 by omega),
      BitVec.extractLsb'_append_extractLsb'_eq_extractLsb' (show 16 = 8 + 8 by omega),
      BitVec.extractLsb'_append_extractLsb'_eq_extractLsb' (show 8 = 0 + 8 by omega)]
    exact BitVec.extractLsb'_eq_self
  conv_rhs => rw [← hwhole]
  rw [append_eq_zero_iff, append_eq_zero_iff, append_eq_zero_iff, append_eq_zero_iff, append_eq_zero_iff,
    append_eq_zero_iff]
  tauto

theorem sixBeats_packet (token : BitVec 64) (o : LatchedOrder) (t : OuchTemplate (BitVec 32) (BitVec 64)) :
    SixBeats (packet token o t) := rfl

theorem faults_packet (token : BitVec 64) (o : LatchedOrder) (t : OuchTemplate (BitVec 32) (BitVec 64)) :
    faults (byteOf (packet token o t)) = verdict token t := by
  have htype : byteOf (packet token o t) 0 = token.extractLsb' 8 8 := by
    change (msgType ++ token.extractLsb' 8 56).extractLsb' 0 8 = _
    rw [BitVec.extractLsb'_append_eq_of_add_le (by omega)]
    ext k hk
    simp [show k < 56 by omega]
  have hside : byteOf (packet token o t) 15 = token.setWidth 8 := (beat1_fields token o.side).1
  have hstock : ∀ k, k < 4 → byteOf (packet token o t) (16 + k) = t.b2.extractLsb' (8 * k) 8 := by
    intro k hk
    have hlane : byteOf (packet token o t) (16 + k) = (0#8 ++ o.shares ++ t.b2).extractLsb' (8 * k) 8 := by
      rw [byteOf, show (16 + k) / 8 = 2 by omega, show (16 + k) % 8 = k by omega]
      rfl
    rw [hlane, BitVec.extractLsb'_append_eq_of_add_le (by omega)]
  have hname : ∀ k, k < 4 → byteOf (packet token o t) (28 + k) = t.b3.extractLsb' (8 * k) 8 := by
    intro k hk
    have hlane : byteOf (packet token o t) (28 + k) = (t.b3 ++ o.price).extractLsb' (32 + 8 * k) 8 := by
      rw [byteOf, show (28 + k) / 8 = 3 by omega, show 8 * ((28 + k) % 8) = 32 + 8 * k by omega]
      rfl
    rw [hlane, BitVec.extractLsb'_append_eq_of_le (by omega), Nat.add_sub_cancel_left]
  rw [faults, htype, hside, hstock 0 (by omega), hstock 1 (by omega), hstock 2 (by omega), hstock 3 (by omega),
    hname 0 (by omega), hname 1 (by omega), hname 2 (by omega), hname 3 (by omega), verdict]
  simp only [Nat.mul_zero, Nat.reduceMul, reversed_eq_zero_iff]

/-- A packet without complaints: the low bytes of its number look like a type and a side, and its
template has a stock name in both halves. -/
theorem verdict_eq_nil_iff (token : BitVec 64) (t : OuchTemplate (BitVec 32) (BitVec 64)) :
    verdict token t = [] ↔
      (token.toNat % 2 ^ 16 = 0x4F42 ∨ token.toNat % 2 ^ 16 = 0x4F53) ∧ t.b2 ≠ 0 ∧ t.b3 ≠ 0 := by
  have hhigh : token.extractLsb' 8 8 = 0x4F ↔ token.toNat / 256 % 256 = 0x4F := by
    rw [← BitVec.toNat_inj, BitVec.extractLsb'_toNat, Nat.shiftRight_eq_div_pow]
    rfl
  have hlow : ∀ b : BitVec 8, token.setWidth 8 = b ↔ token.toNat % 256 = b.toNat := fun b => by
    rw [← BitVec.toNat_inj, BitVec.toNat_setWidth]
  have hnum : ((token.extractLsb' 8 8 = 0x4F) ∧ (token.setWidth 8 = 0x42 ∨ token.setWidth 8 = 0x53)) ↔
      (token.toNat % 2 ^ 16 = 0x4F42 ∨ token.toNat % 2 ^ 16 = 0x4F53) := by
    rw [hhigh, hlow, hlow]
    change (_ ∧ (_ = 0x42 ∨ _ = 0x53)) ↔ _
    omega
  rw [← hnum, verdict]
  simp only [List.append_eq_nil_iff, ite_eq_right_iff, List.cons_ne_nil, imp_false, not_not, not_and_or, ne_eq]
  tauto

/-! ## a run -/

variable {i : Nat → LliuTopV2In}

/-- The output of the top level in cycle `n`. -/
def outputs (i : Nat → LliuTopV2In) (n : Nat) : OuchPacketSvaIn where
  mAxisTdata := (LliuTopV2.trace i n).uOuch.mAxisTdata
  mAxisTkeep := (LliuTopV2.trace i n).uOuch.mAxisTkeep
  mAxisTvalid := (LliuTopV2.trace i n).uOuch.mAxisTvalid
  mAxisTlast := (LliuTopV2.trace i n).uOuch.mAxisTlast
  mAxisTready := (i n).mAxisTready

/-- The beats that the checker takes are those transferred. -/
theorem collect_got (n : Nat) :
    collect (fun k => got (run step reset (outputs i) k) (outputs i k)) n = LliuTopV2.transferred i n := rfl

/-- The last beat of whole packets is marked. -/
theorem tlast_of_flatten {ps : List (List Beat)} {bs : List Beat} {b : Beat} (h : ∀ p ∈ ps, SixBeats p)
    (heq : bs ++ [b] = ps.flatten) : b.tlast = true := by
  obtain rfl | ⟨qs, p, rfl⟩ := List.eq_nil_or_concat ps
  · simp at heq
  · obtain ⟨d0, d1, d2, d3, d4, d5, rfl, -, -, -, -, -, hlast⟩ := (h p (by simp)).eq
    have hend := congrArg List.getLast? heq
    rw [List.concat_eq_append, List.flatten_append, List.flatten_singleton] at hend
    simp only [List.getLast?_append, List.getLast?_singleton, List.getLast?_cons_cons, Option.some_or,
      Option.some.injEq] at hend
    rw [hend, hlast]

theorem sixBeats_packets (os : List (LatchedOrder × OuchTemplate (BitVec 32) (BitVec 64))) :
    ∀ p ∈ packets 0 os, SixBeats p := by
  intro p hp
  obtain ⟨k, hk, rfl⟩ := List.mem_mapIdx.mp hp
  exact sixBeats_packet _ _ _

/-- A packet is not interrupted. -/
theorem tvalid_succ {n : Nat} (hb : beatAccepted (outputs i n) = true) (hlast : (outputs i n).mAxisTlast = false) :
    (outputs i (n + 1)).mAxisTvalid = true := by
  have hbus := LliuTopV2.onBus_trace (i := i) n
  obtain ⟨hvalid, hready⟩ := Bool.and_eq_true_iff.mp hb
  have hsend := hbus.valid.mp hvalid
  refine (LliuTopV2.onBus_trace (i := i) (n + 1)).valid.mpr ?_
  have hstate := (step_send ((LliuTopV2.trace i n).ouchIn (i n)) hsend).1
  change ((LliuTopV2.trace i n).uOuch.step ((LliuTopV2.trace i n).ouchIn (i n))).state = .sSend
  rw [hstate]
  split
  · next hend =>
      have hidle : (LliuTopV2.trace i (n + 1)).uOuch.state = .sIdle := hstate.trans (if_pos hend)
      have hgave : (LliuTopV2.trace i n).uOuch.gave ((LliuTopV2.trace i n).ouchIn (i n)) =
          some (LliuTopV2.trace i n).uOuch.outBeat := if_pos hb
      have hsent := LliuTopV2.transferred_accepted (i := i) (n + 1)
      rw [due, hidle, List.append_nil, LliuTopV2.transferred, collect_succ, hgave] at hsent
      have hmark : (outputs i n).mAxisTlast = true := tlast_of_flatten (sixBeats_packets _) hsent
      rw [hlast] at hmark
      cases hmark
  · rfl

/-- What the checker lists, packet by packet. -/
theorem report_flatten (n : Nat) : monitor.report (outputs i) n =
    (collect (fun k => gave (run step reset (outputs i) k) (outputs i k)) n).flatten := by
  induction n with
  | zero => rfl
  | succ n ih =>
      have hquiet : (monitor.trace (outputs i) n).continuous = true → (outputs i n).mAxisTvalid = true := by
        intro hc
        cases n with
        | zero => cases hc
        | succ n =>
            obtain ⟨hb, hl⟩ := Bool.and_eq_true_iff.mp hc
            exact tvalid_succ hb (by simpa using hl)
      have hnone : ((monitor.trace (outputs i) n).continuous && !(outputs i n).mAxisTvalid) = false := by
        cases hc : (monitor.trace (outputs i) n).continuous with
        | false => rfl
        | true => rw [hquiet hc]; rfl
      have hcheck : monitor.check (monitor.trace (outputs i) n) (outputs i n) =
          (gave (run step reset (outputs i) n) (outputs i n)).toList.flatten := by
        change check _ _ = _
        rw [check, hnone, if_neg Bool.false_ne_true, List.append_nil, gave]
        change (if (run step reset (outputs i) n).checkNow then _ else _) = _
        split <;> simp [monitor, Monitor.trace]
      rw [Monitor.report_succ, ih, collect_succ, List.flatten_append, hcheck]

/-- **The structural checker**: in every run it lists, in the cycle after the last beat of each
packet, the verdict on the packet's number and its template row, and nothing else; and it has no
complaint of packet `k` just if the low bytes of `k` are those of a type and a side and the
template has a stock name in both halves. -/
theorem report_eq (i : Nat → LliuTopV2In) (n : Nat) :
    monitor.report (outputs i) (n + 1) =
      (((LliuTopV2.accepted i n).mapIdx fun k o => verdict (BitVec.ofNat 64 k) o.2).take
        ((LliuTopV2.transferred i n).length / 6)).flatten ∧
    ∀ k (t : OuchTemplate (BitVec 32) (BitVec 64)), verdict (BitVec.ofNat 64 k) t = [] ↔
      (k % 2 ^ 16 = 0x4F42 ∨ k % 2 ^ 16 = 0x4F53) ∧ t.b2 ≠ 0 ∧ t.b3 ≠ 0 := by
  obtain ⟨-, -, hout⟩ := refines.collect (s := reset) (i := outputs i) trivial n
  have hgave : collect (fun k => gave (run step reset (outputs i) k) (outputs i k)) (n + 1) =
      (feed take (reset.pktBuf, 0) (LliuTopV2.transferred i n)).2 := by
    rw [← collect_got, collect_succ]
    refine Eq.trans ?_ hout
    rw [gave]
    split <;> rfl
  have hpackets : (packets 0 (LliuTopV2.accepted i n)).map (fun p => faults (byteOf p)) =
      (LliuTopV2.accepted i n).mapIdx fun k o => verdict (BitVec.ofNat 64 k) o.2 := by
    rw [packets]
    refine List.ext_getElem (by simp) fun k hk hk' => ?_
    simp [faults_packet]
  have hnumber : ∀ k, (BitVec.ofNat 64 k).toNat % 2 ^ 16 = k % 2 ^ 16 := fun k => by
    rw [BitVec.toNat_ofNat]
    exact Nat.mod_mod_of_dvd k (by decide)
  constructor
  · rw [report_flatten, hgave, feed_packets (sixBeats_packets _) (LliuTopV2.transferred_accepted n),
      List.map_take, hpackets]
  · intro k t
    rw [verdict_eq_nil_iff, hnumber]

/-- The first packet, before any template is written, passes no check. -/
example : verdict 0 ⟨0, 0, 0, 0⟩ = [.packetType, .side, .shares, .price] := by decide

end OuchPacketSva

end Lliu
