import Lliu.GoldenModel
import Lliu.ItchParser.Agreement
import Lliu.ItchParserV2.Packets

/-!
# Lliu.GoldenModel.Parsing

The parser against its reference.  Of packets of messages, the first version's parser finds the
Add Orders that `parse_add_order` finds in the bodies, with the same fields (`golden_parses`).
-/

namespace Lliu

open Hdl
open ItchParserV2 (Packet Brings)

namespace GoldenModel

/-! ## the bytes of a field -/

/-- A slice of a list that is long enough. -/
theorem slice_eq {bs : List Byte} {k n : Nat} (h : k + n ≤ bs.length) :
    (bs.drop k).take n = (List.range n).map fun j => bs.getD (k + j) 0 := by
  refine List.ext_getElem (by simp; omega) fun j hj _ => ?_
  have hlt : k + j < bs.length := by
    simp only [List.length_take, List.length_drop] at hj
    omega
  simp [List.getElem?_eq_getElem hlt]

theorem toNat_append_byte (x : BitVec w) (b : Byte) : (x ++ b).toNat = 256 * x.toNat + b.toNat := by
  rw [BitVec.toNat_append, ← Nat.shiftLeft_add_eq_or_of_lt b.isLt, Nat.shiftLeft_eq, Nat.mul_comm]

section Slices

variable {bs : List Byte} {k : Nat}

/-- A big-endian field of four bytes. -/
theorem fromBytes_be32 (h : k + 4 ≤ bs.length) (hk : k + 4 ≤ 64) : fromBytes ((bs.drop k).take 4) =
    (ItchParserV2.be32 (fun a => bs.getD a.toNat 0) (BitVec.ofNat 6 k)).toNat := by
  have haddr : ∀ j, j < 4 → (BitVec.ofNat 6 k + BitVec.ofNat 6 j).toNat = k + j := by
    intro j hj
    rw [BitVec.toNat_add, BitVec.toNat_ofNat, BitVec.toNat_ofNat]
    omega
  have h0 : (BitVec.ofNat 6 k).toNat = k := by
    rw [BitVec.toNat_ofNat]
    omega
  rw [slice_eq h, ItchParserV2.be32]
  simp only [toNat_append_byte]
  change 256 * (256 * (256 * (256 * 0 + (bs.getD (k + 0) 0).toNat) + (bs.getD (k + 1) 0).toNat) +
      (bs.getD (k + 2) 0).toNat) + (bs.getD (k + 3) 0).toNat =
    256 * (256 * (256 * (bs.getD (BitVec.ofNat 6 k).toNat 0).toNat +
      (bs.getD (BitVec.ofNat 6 k + BitVec.ofNat 6 1).toNat 0).toNat) +
      (bs.getD (BitVec.ofNat 6 k + BitVec.ofNat 6 2).toNat 0).toNat) +
      (bs.getD (BitVec.ofNat 6 k + BitVec.ofNat 6 3).toNat 0).toNat
  rw [h0, haddr 1 (by decide), haddr 2 (by decide), haddr 3 (by decide), Nat.mul_zero, Nat.zero_add,
    Nat.add_zero]

/-- One of eight bytes. -/
theorem fromBytes_be64 (h : k + 8 ≤ bs.length) (hk : k + 8 ≤ 64) : fromBytes ((bs.drop k).take 8) =
    (ItchParserV2.be64 (fun a => bs.getD a.toNat 0) (BitVec.ofNat 6 k)).toNat := by
  have hsplit : (bs.drop k).take 8 = (bs.drop k).take 4 ++ (bs.drop (k + 4)).take 4 := by
    rw [show 8 = 4 + 4 from rfl, List.take_add, List.drop_drop]
  have hlength : ((bs.drop (k + 4)).take 4).length = 4 := by simp; omega
  have hnext : BitVec.ofNat 6 k + 4 = BitVec.ofNat 6 (k + 4) := (BitVec.ofNat_add k 4).symm
  rw [hsplit, fromBytes_append, hlength, fromBytes_be32 (by omega) (by omega),
    fromBytes_be32 (by omega) (by omega), ItchParserV2.be64, hnext, BitVec.toNat_append,
    ← Nat.shiftLeft_add_eq_or_of_lt (BitVec.isLt _), Nat.shiftLeft_eq, Nat.mul_comm]
  norm_num

end Slices

/-! ## messages -/

/-- The Add Order of a pulse. -/
def toAddOrder (f : ItchParserV2.Fields) : Option AddOrder :=
  if f.msgType = itchMsgAddOrder then some ⟨f.orderRef.toNat, f.side.toNat, f.price.toNat⟩ else none

/-- The reference finds in a body what the parser finds in the message. -/
theorem parse_body (m : ItchParserV2.ItchMsg) :
    m.pulse.filterMap toAddOrder = (parseAddOrder m.body).toList := by
  have htype : m.fields.msgType = m.body.getD 0 0 := rfl
  by_cases ht : m.body.getD 0 0 = itchMsgAddOrder
  · have hsupp : ItchParserV2.supported (m.body.getD 0 0) = true := by rw [ht]; decide
    have hlen : 36 ≤ m.body.length := by
      have hext := m.complete hsupp
      rwa [ht] at hext
    have hfields : m.fields = ⟨itchMsgAddOrder, ItchParserV2.be64 (fun a => m.body.getD a.toNat 0) 11, 0,
        ItchParserV2.be32 (fun a => m.body.getD a.toNat 0) 32,
        ItchParserV2.be32 (fun a => m.body.getD a.toNat 0) 20, m.body.getD 19 0 == 0x42#8,
        ItchParserV2.be64 (fun a => m.body.getD a.toNat 0) 24⟩ :=
      ItchParserV2.fieldsOf_stock ht (by decide)
    have hside : (m.body.getD 19 0 == 0x42#8).toNat = if m.body.getD 19 0 = 0x42 then 1 else 0 := by
      by_cases h : m.body.getD 19 0 = 0x42
      · rw [if_pos h, h]
        rfl
      · have hne : (m.body.getD 19 0 == 0x42#8) = false := beq_eq_false_iff_ne.mpr h
        rw [if_neg h, hne]
        rfl
    have hparse : parseAddOrder m.body = some ⟨m.fields.orderRef.toNat, m.fields.side.toNat,
        m.fields.price.toNat⟩ := by
      rw [parseAddOrder, if_neg (by omega), if_neg (fun h => h ht), fromBytes_be64 (by omega) (by decide),
        fromBytes_be32 (by omega) (by decide), hfields, hside]
      rfl
    have hadd : toAddOrder m.fields = some ⟨m.fields.orderRef.toNat, m.fields.side.toNat,
        m.fields.price.toNat⟩ := if_pos (htype.trans ht)
    rw [ItchParserV2.ItchMsg.pulse, ItchParserV2.ItchMsg.type, if_pos hsupp, hparse,
      List.filterMap_cons_some hadd]
    rfl
  · have hparse : parseAddOrder m.body = none := by
      rw [parseAddOrder]
      split
      · rfl
      · exact if_pos ht
    have hadd : toAddOrder m.fields = none := if_neg (htype ▸ ht)
    rw [ItchParserV2.ItchMsg.pulse, hparse]
    split
    · rw [List.filterMap_cons_none hadd]
      rfl
    · rfl

/-! ## the first version -/

section Run

variable (i : Nat → ItchParserIn)

/-- The beats taken before cycle `n`. -/
def beats (n : Nat) : List ItchParserV2.ItchBeat :=
  collect (fun k => if (itchParserRun i k).beat (i k) then
    some ⟨(i k).sAxisTdata, (i k).sAxisTlast⟩ else none) n

/-- The Add Orders for which `fields_valid` has pulsed before cycle `n`. -/
def addOrders (n : Nat) : List AddOrder :=
  collect (fun k =>
    if (itchParserRun i k).uFieldExtract.fieldsValid then
      some
        { orderRef := (itchParserRun i k).uFieldExtract.orderRef.toNat
          side := (itchParserRun i k).uFieldExtract.side.toNat
          price := (itchParserRun i k).uFieldExtract.price.toNat }
    else none) n

variable {i}

theorem filterMap_collect (g : α → Option β) (f : Nat → Option α) (n : Nat) :
    (collect f n).filterMap g = collect (fun k => (f k).bind g) n := by
  induction n with
  | zero => rfl
  | succ n ih =>
      rw [collect_succ, collect_succ, List.filterMap_append, ih]
      cases h : f n with
      | none => rfl
      | some a =>
          cases hg : g a with
          | none => simp [hg]
          | some b => simp [hg]

/-- In lockstep the first parser pulses for the Add Orders of the second. -/
theorem addOrder_of_lockstep {s : ItchParser} {t : ItchParserV2} (h : Lockstep s t)
    (j : ItchParserV2In) : (t.gave j).bind toAddOrder =
    if s.uFieldExtract.fieldsValid then
      some ⟨s.uFieldExtract.orderRef.toNat, s.uFieldExtract.side.toNat, s.uFieldExtract.price.toNat⟩
    else none := by
  cases hs : s.uFieldExtract.fieldsValid with
  | true =>
      obtain ⟨hv, ht⟩ := h.valid.mp hs
      obtain ⟨href, hside, hprice, -⟩ := h.fields hs
      rw [ItchParserV2.gave, hv, if_pos rfl, if_pos rfl, href, hside, hprice]
      exact if_pos ht
  | false =>
      have hnot : ¬ (t.fieldsValid = true ∧ t.msgType = itchMsgAddOrder) := fun hv => by
        rw [h.valid.mpr hv] at hs
        cases hs
      rw [ItchParserV2.gave, if_neg Bool.false_ne_true]
      cases hv : t.fieldsValid with
      | false => rfl
      | true => exact if_neg fun ht => hnot ⟨hv, ht⟩

/-- Up to the first long frame both parsers take the same beats. -/
theorem taken_eq {n : Nat} (h : ShortFrames i n) :
    ItchParserV2.taken (ItchParserV2.started fun _ => 0) (fun k => (i k).toV2) n = beats i n := by
  refine collect_congr fun k hk => ?_
  obtain ⟨hlock, -⟩ := (h.mono (Nat.le_of_lt hk)).lockstep
  rw [ItchParserV2.got]
  change (if (itchParserV2Run i k).beat (i k).toV2 = true then _ else _) = _
  rw [hlock.beat]
  rfl

/-- **Short frames**: when the beats taken bring packets, no frame in them is a long one. -/
theorem shortFrames_of_brings {n : Nat} {ps : List Packet} (hbeats : Brings (beats i n) ps) :
    ShortFrames i n := by
  have hall := ItchParserV2.feedAll_brings (s := ItchParserV2.started fun _ => 0) rfl hbeats
  suffices h : ∀ m, m ≤ n → ShortFrames i m from h n (Nat.le_refl n)
  intro m hle
  induction m with
  | zero => exact fun k hk => absurd hk (Nat.not_lt_zero k)
  | succ m ih =>
      have hshort := ih (by omega)
      intro k hk hst hbeat
      obtain hlt | rfl := Nat.lt_succ_iff_lt_or_eq.mp hk
      · exact hshort k hlt hst hbeat
      -- the parser of the second version is idle as well, and takes the same beat
      obtain ⟨hlock, -⟩ := hshort.lockstep
      have hidle := ItchParserV2.feed_taken_idle (fun _ => 0) (fun k => (i k).toV2) (n := k)
        (hlock.state.symm.trans hst)
      rw [taken_eq hshort] at hidle
      have hnext : beats i k ++ [⟨(i k).sAxisTdata, (i k).sAxisTlast⟩] <+: beats i n := by
        have hpre : beats i (k + 1) <+: beats i n := collect_isPrefix _ hle
        rwa [beats, collect_succ, if_pos hbeat] at hpre
      have hsuits : ItchParserV2.ShortAt _ ⟨(i k).sAxisTdata, (i k).sAxisTlast⟩ := hall.suits_next hnext
      exact hsuits hidle

/-- The Add Orders of packets. -/
theorem addOrders_packets {n : Nat} {ps : List Packet} (hbeats : Brings (beats i n) ps) :
    addOrders i (n + 2) = (ps.flatMap Packet.all).flatMap fun m => m.pulse.filterMap toAddOrder := by
  have hshort := shortFrames_of_brings hbeats
  have hlock : ∀ k < n + 2, Lockstep (itchParserRun i k) (itchParserV2Run i k) := fun k hk => by
    by_cases hle : k ≤ n
    · exact (hshort.mono hle).lockstep.1
    · obtain rfl : k = n + 1 := by omega
      exact hshort.lockstep.1.step hshort.fits
  have hpulsed : (ItchParserV2.pulsed (ItchParserV2.started fun _ => 0) (fun k => (i k).toV2)
      (n + 2)).filterMap toAddOrder = addOrders i (n + 2) := by
    rw [ItchParserV2.pulsed, filterMap_collect]
    exact collect_congr fun k hk => addOrder_of_lockstep (hlock k hk) _
  rw [← hpulsed, ItchParserV2.pulsed_packets _ _ ((taken_eq hshort).symm ▸ hbeats), List.filterMap_flatMap]

/-- **The parser and its reference**: when the beats taken bring packets, the Add Orders found
two cycles later are those that `parse_add_order` finds in the messages, in order. -/
theorem golden_parses {n : Nat} {ps : List Packet} (hbeats : Brings (beats i n) ps) :
    addOrders i (n + 2) = (ps.flatMap Packet.all).filterMap fun m => parseAddOrder m.body := by
  rw [addOrders_packets hbeats, List.filterMap_eq_flatMap_toList]
  exact congrArg (fun f => List.flatMap f _) (funext parse_body)

/-- The packet of `addOrderBeats`. -/
def addOrderPacket : Packet where
  messages := []
  last :=
    { body := [0x41, 0, 1, 0, 0, 0, 0, 0, 0, 0, 0, 0, 0, 0, 0, 0, 0, 0, 0x2A, 0x42, 0, 0, 0, 0x64,
        0x41, 0x41, 0x50, 0x4C, 0x20, 0x20, 0x20, 0x20, 0, 0, 0x03, 0xE8]
      nonempty := by decide
      fits := by decide
      complete := by decide }
  aligned := by simp

theorem brings_addOrder : Brings (beats (beatStream addOrderBeats) 5) [addOrderPacket] := by
  have hbeats : beats (beatStream addOrderBeats) 5 = [⟨0x0024410001000000, false⟩, ⟨0, false⟩,
      ⟨0x000000002A420000, false⟩, ⟨0x00644141504C2020, false⟩, ⟨0x2020000003E80000, true⟩] := by
    decide +kernel
  have hencode : addOrderPacket.encode = (⟨0x0024410001000000, false⟩ : ItchParserV2.ItchBeat).lanes ++
      ((⟨0, false⟩ : ItchParserV2.ItchBeat).lanes ++
      ((⟨0x000000002A420000, false⟩ : ItchParserV2.ItchBeat).lanes ++
      ((⟨0x00644141504C2020, false⟩ : ItchParserV2.ItchBeat).lanes ++
        [0x20, 0x20, 0, 0, 0x03, 0xE8]))) := by decide +kernel
  have hwords : ItchParserV2.Words (beats (beatStream addOrderBeats) 5) addOrderPacket.encode := by
    rw [hbeats, hencode]
    exact .cons _ _ _ rfl (.cons _ _ _ rfl (.cons _ _ _ rfl (.cons _ _ _ rfl
      (.last _ _ (by simp) (by decide +kernel) rfl))))
  rw [← List.append_nil (beats _ 5)]
  exact .cons _ [] _ [] hwords .nil

/-- Order 42, to buy at 1000. -/
theorem addOrderPacket_parsed : addOrders (beatStream addOrderBeats) 7 = [⟨42, 1, 1000⟩] :=
  (golden_parses brings_addOrder).trans (by decide)

end Run

end GoldenModel

end Lliu
