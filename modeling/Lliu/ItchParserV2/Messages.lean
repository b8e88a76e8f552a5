import Mathlib.Data.List.GetD
import Lliu.Hdl.Axis
import Lliu.Hdl.Stream
import Lliu.ItchParserV2

/-!
# Lliu.ItchParserV2.Messages

How the parser reads the messages of a packet.  As a transducer it takes beats
and gives the fields of a message for each pulse of `fields_valid` (`refines`).

A message is read from the start of a beat, and what follows it in its last beat
is skipped.  So messages that end with a beat are read one after the other
(`feed_messages`); one whose end is missing is dropped (`Reading.feed_last`).
-/

namespace Lliu

namespace ItchParserV2

open Hdl

/-! ## the parser as a transducer -/

/-- A beat at the input. -/
structure ItchBeat where
  tdata : BitVec 64
  tlast : Bool
  deriving DecidableEq, Repr

/-- The outputs of a message. -/
structure Fields where
  msgType : BitVec 8
  orderRef : OrderRef
  newOrderRef : OrderRef
  price : BitVec 32
  shares : BitVec 32
  side : Bool
  stock : BitVec 64
  deriving DecidableEq, Repr

/-- The fields that `S_EMIT` registers. -/
def fieldsOf (buf : BitVec 6 → BitVec 8) : Fields where
  msgType := buf 0
  orderRef := be64 buf 11
  newOrderRef := if buf 0 == itchMsgOrderReplace then be64 buf 19 else 0
  price := priceOf buf
  shares := sharesOf buf
  side := sideOf buf
  stock := stockOf buf

/-- The fields at the outputs. -/
def fields (s : ItchParserV2) : Fields :=
  ⟨s.msgType, s.orderRef, s.newOrderRef, s.price, s.shares, s.side, s.stock⟩

/-- The beat transferred in a cycle. -/
def got (s : ItchParserV2) (i : ItchParserV2In) : Option ItchBeat :=
  if s.beat i then some ⟨i.sAxisTdata, i.sAxisTlast⟩ else none

/-- The message for which `fields_valid` is high. -/
def gave (s : ItchParserV2) (_ : ItchParserV2In) : Option Fields :=
  if s.fieldsValid then some s.fields else none

/-- The beats taken before cycle `n` of a run. -/
def taken (s : ItchParserV2) (i : Nat → ItchParserV2In) (n : Nat) : List ItchBeat :=
  collect (fun k => (run step s i k).got (i k)) n

/-- The messages for which `fields_valid` has pulsed before cycle `n` of a run. -/
def pulsed (s : ItchParserV2) (i : Nat → ItchParserV2In) (n : Nat) : List Fields :=
  collect (fun k => (run step s i k).gave (i k)) n

/-- The fields about to be registered. -/
def emitted (s : ItchParserV2) : List Fields :=
  if s.state = .sEmit ∧ supported (s.msgBuf 0) = true then [fieldsOf s.msgBuf] else []

/-- The fields that are at the outputs or about to be registered. -/
def pending (s : ItchParserV2) : List Fields :=
  (if s.fieldsValid then [s.fields] else []) ++ s.emitted

/-- The state once the pending fields have been given. -/
def settled (s : ItchParserV2) : ItchParserV2 :=
  { (if s.state = .sEmit then s.stepEmit else s) with fieldsValid := false }

/-- A beat offered without `pipeline_hold`. -/
def ready (b : ItchBeat) : ItchParserV2In := ⟨b.tdata, true, b.tlast, false⟩

/-- Take a beat and give the message that it completes. -/
def take (s : ItchParserV2) (b : ItchBeat) : ItchParserV2 × List Fields :=
  ((s.step (ready b)).settled, (s.step (ready b)).emitted)

section Refines

variable {s : ItchParserV2} {i : ItchParserV2In} {b : ItchBeat}

theorem settled_of_quiet (hst : s.state ≠ .sEmit) (hv : s.fieldsValid = false) : s.settled = s := by
  rw [settled, if_neg hst, ← hv]

theorem of_got_eq_some (h : s.got i = some b) :
    s.beat i = true ∧ b = ⟨i.sAxisTdata, i.sAxisTlast⟩ ∧ s.state ≠ .sEmit := by
  rw [got] at h
  split at h
  · rename_i hb
    refine ⟨hb, (Option.some.inj h).symm, fun he => ?_⟩
    simp [beat, sAxisTready, he] at hb
  · cases h

theorem beat_of_got_eq_none (h : s.got i = none) : s.beat i = false := by
  rw [got] at h
  split at h
  · cases h
  · rename_i hb
    exact Bool.eq_false_of_not_eq_true hb

theorem beat_ready (h : s.state ≠ .sEmit) : s.beat (ready b) = true := by
  simp [beat, sAxisTready, ready, h]

/-- A beat is taken in `S_IDLE` and `S_ACCUMULATE`, as the transducer takes it. -/
theorem step_of_got (h : s.got i = some b) (hv : s.ValidInIdle) :
    s.step i = s.settled.step (ready b) ∧ (s.step i).fieldsValid = false := by
  obtain ⟨hbeat, rfl, hne⟩ := of_got_eq_some h
  cases hst : s.state with
  | sEmit => exact absurd hst hne
  | sIdle =>
      have hbeat' : s.settled.beat (ready ⟨i.sAxisTdata, i.sAxisTlast⟩) = true :=
        beat_ready (by simp [settled, hst])
      simp only [step, settled, hst, stepIdle, hbeat, if_true, reduceCtorEq, if_false] at hbeat' ⊢
      simp only [hbeat', if_true]
      exact ⟨rfl, trivial⟩
  | sAccumulate =>
      have hfv := hv.of_ne (by simp [hst])
      rw [settled_of_quiet hne hfv]
      simp only [step, hst, stepAccumulate, hbeat, beat_ready hne, if_true]
      exact ⟨rfl, hfv⟩

/-- **Refinement**: gaps and backpressure do not change what is read. -/
theorem refines : Refines step got gave take ValidInIdle settled pending where
  inv _ i h := h.step i
  idle s i hv hg := by
    have hbeat := beat_of_got_eq_none hg
    cases hst : s.state with
    | sIdle =>
        refine ⟨by simp [step, hst, stepIdle, hbeat, settled], ?_⟩
        cases hfv : s.fieldsValid <;> simp [step, hst, stepIdle, hbeat, gave, pending, emitted, hfv]
    | sAccumulate =>
        have hfv := hv.of_ne (by simp [hst])
        simp [step, hst, stepAccumulate, hbeat, gave, hfv]
    | sEmit =>
        have hfv := hv.of_ne (by simp [hst])
        have hemit : s.step i = s.stepEmit := by rw [step, hst]
        rw [hemit]
        refine ⟨by simp [settled, hst, stepEmit], ?_⟩
        simp [gave, hfv, pending, emitted, hst, stepEmit, fields, fieldsOf]
  took s i b hv hg := by
    obtain ⟨hstep, hfv⟩ := step_of_got hg hv
    obtain ⟨-, -, hne⟩ := of_got_eq_some hg
    rw [take, ← hstep]
    refine ⟨rfl, ?_⟩
    have hnone : s.emitted = [] := if_neg fun h => hne h.1
    rw [pending, pending, hnone, hfv, gave]
    cases s.fieldsValid <;> rfl

end Refines

/-! ## messages -/

/-- The body bytes that the fields of a supported type are read from. -/
def extent (t : BitVec 8) : Nat :=
  if carriesStock t || t == itchMsgOrderExecPx then 36
  else if t == itchMsgOrderReplace then 35
  else if t == itchMsgOrderCancel || t == itchMsgOrderExec then 23
  else 19

/-- A message: its body has a type, fits in `msg_buf`, and contains the fields of
its type if that is a supported one. -/
structure ItchMsg where
  body : List Byte
  nonempty : 0 < body.length
  fits : body.length ≤ 62
  complete : supported (body.getD 0 0) = true → extent (body.getD 0 0) ≤ body.length

namespace ItchMsg

/-- The message type. -/
def type (m : ItchMsg) : BitVec 8 := m.body.getD 0 0

/-- The message with its length prefix. -/
def encode (m : ItchMsg) : List Byte :=
  (BitVec.ofNat 16 m.body.length).extractLsb' 8 8 ::
    (BitVec.ofNat 16 m.body.length).extractLsb' 0 8 :: m.body

/-- The fields of a message. -/
def fields (m : ItchMsg) : Fields := fieldsOf fun a => m.body.getD a.toNat 0

/-- The pulses that a message shall lead to. -/
def pulse (m : ItchMsg) : List Fields := if supported m.type then [m.fields] else []

theorem length_encode (m : ItchMsg) : m.encode.length = m.body.length + 2 := rfl

end ItchMsg

/-! ### the fields of a body -/

section Fields

variable {buf buf' : BitVec 6 → BitVec 8} {m : ItchMsg} {s : ItchParserV2}

theorem be32_congr (k : Nat) (hk : k + 3 < 64)
    (h : ∀ a : BitVec 6, k ≤ a.toNat → a.toNat < k + 4 → buf a = buf' a) :
    be32 buf (BitVec.ofNat 6 k) = be32 buf' (BitVec.ofNat 6 k) := by
  have hbyte : ∀ j, j < 4 → buf (BitVec.ofNat 6 k + BitVec.ofNat 6 j) =
      buf' (BitVec.ofNat 6 k + BitVec.ofNat 6 j) := by
    intro j hj
    have haddr : (BitVec.ofNat 6 k + BitVec.ofNat 6 j).toNat = k + j := by
      rw [BitVec.toNat_add, BitVec.toNat_ofNat, BitVec.toNat_ofNat]
      omega
    exact h _ (by omega) (by omega)
  have h0 : buf (BitVec.ofNat 6 k) = buf' (BitVec.ofNat 6 k) := by
    simpa using hbyte 0 (by omega)
  have h1 : buf (BitVec.ofNat 6 k + 1) = buf' (BitVec.ofNat 6 k + 1) := hbyte 1 (by omega)
  have h2 : buf (BitVec.ofNat 6 k + 2) = buf' (BitVec.ofNat 6 k + 2) := hbyte 2 (by omega)
  have h3 : buf (BitVec.ofNat 6 k + 3) = buf' (BitVec.ofNat 6 k + 3) := hbyte 3 (by omega)
  rw [be32, be32, h0, h1, h2, h3]

theorem be64_congr (k : Nat) (hk : k + 7 < 64)
    (h : ∀ a : BitVec 6, k ≤ a.toNat → a.toNat < k + 8 → buf a = buf' a) :
    be64 buf (BitVec.ofNat 6 k) = be64 buf' (BitVec.ofNat 6 k) := by
  have hhi : be32 buf (BitVec.ofNat 6 k) = be32 buf' (BitVec.ofNat 6 k) :=
    be32_congr k (by omega) fun a hlo ha => h a hlo (by omega)
  have hlo : be32 buf (BitVec.ofNat 6 (k + 4)) = be32 buf' (BitVec.ofNat 6 (k + 4)) :=
    be32_congr (k + 4) (by omega) fun a hlo ha => h a (by omega) ha
  have hadd : BitVec.ofNat 6 (k + 4) = BitVec.ofNat 6 k + 4 := BitVec.ofNat_add k 4
  rw [hadd] at hlo
  rw [be64, be64, hhi, hlo]

theorem extent_of_price {t : BitVec 8} (h : (carriesStock t || t == itchMsgOrderExecPx) = true) :
    extent t = 36 := if_pos h

theorem extent_of_replace {t : BitVec 8} (h : (t == itchMsgOrderReplace) = true) : extent t = 35 := by
  rw [eq_of_beq h]
  rfl

theorem le_extent {t : BitVec 8} : 19 ≤ extent t := by
  rw [extent]
  split_ifs <;> omega

/-- The fields depend on the type and on the bytes from 11 on in its extent only. -/
theorem fieldsOf_congr_of (htype : buf 0 = buf' 0)
    (h : ∀ a : BitVec 6, 11 ≤ a.toNat → a.toNat < extent (buf 0) → buf a = buf' a) :
    fieldsOf buf = fieldsOf buf' := by
  have hmin : 19 ≤ extent (buf 0) := le_extent
  have hstock : carriesStock (buf 0) = true → extent (buf 0) = 36 := fun hc =>
    extent_of_price (by rw [hc, Bool.true_or])
  have h32 : ∀ k, 11 ≤ k → k + 4 ≤ extent (buf 0) → k + 3 < 64 →
      be32 buf (BitVec.ofNat 6 k) = be32 buf' (BitVec.ofNat 6 k) := fun k hk hle hlt =>
    be32_congr k hlt fun a hlo ha => h a (by omega) (by omega)
  have h64 : ∀ k, 11 ≤ k → k + 8 ≤ extent (buf 0) → k + 7 < 64 →
      be64 buf (BitVec.ofNat 6 k) = be64 buf' (BitVec.ofNat 6 k) := fun k hk hle hlt =>
    be64_congr k hlt fun a hlo ha => h a (by omega) (by omega)
  have hnew : (if buf 0 == itchMsgOrderReplace then be64 buf 19 else 0) =
      if buf 0 == itchMsgOrderReplace then be64 buf' 19 else 0 := by
    split
    · rename_i hc
      exact h64 19 (by omega) (by rw [extent_of_replace hc]; omega) (by omega)
    · rfl
  have hprice : priceOf buf = priceOf buf' := by
    rw [priceOf, priceOf, ← htype]
    split
    · rename_i hc
      exact h32 32 (by omega) (by rw [extent_of_price hc]) (by omega)
    · split
      · rename_i hc
        exact h32 31 (by omega) (by rw [extent_of_replace hc]) (by omega)
      · rfl
  have hshares : sharesOf buf = sharesOf buf' := by
    rw [sharesOf, sharesOf, ← htype]
    split
    · rename_i hc
      exact h32 20 (by omega) (by rw [hstock hc]; omega) (by omega)
    · split
      · rename_i hc
        refine h32 19 (by omega) ?_ (by omega)
        simp only [Bool.or_eq_true, beq_iff_eq] at hc
        rcases hc with (hc | hc) | hc <;> rw [hc] <;> decide
      · split
        · rename_i hc
          exact h32 27 (by omega) (by rw [extent_of_replace hc]; omega) (by omega)
        · rfl
  have hside : sideOf buf = sideOf buf' := by
    rw [sideOf, sideOf, ← htype]
    cases hc : carriesStock (buf 0) with
    | false => rfl
    | true => rw [h 19 (by decide) (by rw [hstock hc]; decide)]
  have hticker : stockOf buf = stockOf buf' := by
    rw [stockOf, stockOf, ← htype]
    split
    · rename_i hc
      exact h64 24 (by omega) (by rw [hstock hc]; omega) (by omega)
    · rfl
  rw [fieldsOf, fieldsOf, ← htype, hnew, hprice, hshares, hside, hticker,
    show be64 buf 11 = be64 buf' 11 from h64 11 (by omega) (by omega) (by omega)]

/-- The fields depend on the bytes in the extent of the type only. -/
theorem fieldsOf_congr (h : ∀ a : BitVec 6, a.toNat < extent (buf 0) → buf a = buf' a) :
    fieldsOf buf = fieldsOf buf' :=
  fieldsOf_congr_of (h 0 (lt_of_lt_of_le (by decide) le_extent)) fun a _ ha => h a ha

/-- The buffer holds the first `c` bytes of a body. -/
def Agrees (buf : BitVec 6 → BitVec 8) (body : List Byte) (c : Nat) : Prop :=
  ∀ a : BitVec 6, a.toNat < c → buf a = body.getD a.toNat 0

/-- What is registered of a complete body. -/
theorem Agrees.emitted (h : Agrees s.msgBuf m.body m.body.length) (hst : s.state = .sEmit) :
    s.emitted = m.pulse := by
  have htype : s.msgBuf 0 = m.type := h 0 m.nonempty
  rw [ItchParserV2.emitted, ItchMsg.pulse, htype]
  cases hs : supported m.type with
  | false => simp
  | true =>
      have hfields : fieldsOf s.msgBuf = m.fields := by
        refine fieldsOf_congr fun a ha => h a (lt_of_lt_of_le ha ?_)
        rw [htype]
        exact m.complete hs
      simp [hst, hfields]

end Fields

/-! ## beats -/

/-- The bytes of a beat, in the order in which the parser reads them. -/
def ItchBeat.lanes (b : ItchBeat) : List Byte := (List.range 8).map (beatByte b.tdata)

/-- The beats that bring the bytes of a packet; the last one may have more lanes. -/
inductive Words : List ItchBeat → List Byte → Prop where
  | last (b : ItchBeat) (x : List Byte) (hne : x ≠ []) (hlanes : x <+: b.lanes)
      (hlast : b.tlast = true) : Words [b] x
  | cons (b : ItchBeat) (bs : List ItchBeat) (d : List Byte) (hlast : b.tlast = false)
      (h : Words bs d) : Words (b :: bs) (b.lanes ++ d)

theorem Words.ne_nil {bs : List ItchBeat} {x : List Byte} (h : Words bs x) : x ≠ [] := by
  cases h with
  | last b x hne hlanes hlast => exact hne
  | cons b bs d hlast h => simp [ItchBeat.lanes]

/-! ### storing a beat -/

section Store

variable {buf : BitVec 6 → BitVec 8} {body x : List Byte} {b : ItchBeat} {m : ItchMsg}

theorem length_lanes (b : ItchBeat) : b.lanes.length = 8 := by simp [ItchBeat.lanes]

theorem beatByte_eq (hx : x <+: b.lanes) {k : Nat} (hk : k < x.length) :
    beatByte b.tdata k = x.getD k 0 := by
  obtain ⟨y, hy⟩ := hx
  have hlt : k < 8 := by
    have := congrArg List.length hy
    rw [List.length_append, length_lanes] at this
    omega
  have hlane : b.lanes.getD k 0 = beatByte b.tdata k := by
    simp [ItchBeat.lanes, List.getD_eq_getElem?_getD, hlt]
  rw [← hlane, ← hy, List.getD_append _ _ _ _ hk]

/-- A later beat. -/
theorem Agrees.storeBeat {base : BitVec 6} {c : Nat} (h : Agrees buf body c) (hbase : base.toNat = c)
    (hc : c + 8 ≤ 64) (hx : x <+: b.lanes) (hbody : x <+: body.drop c) :
    Agrees (storeBeat buf base b.tdata) body (c + x.length) := by
  intro a ha
  have hx8 : x.length ≤ 8 := by
    rw [← length_lanes b]
    exact hx.length_le
  rw [ItchParserV2.storeBeat]
  by_cases hac : a.toNat < c
  · have hsub : ¬ (a - base).toNat < 8 := by
      rw [BitVec.toNat_sub, hbase]
      omega
    rw [if_neg hsub]
    exact h a hac
  · have hsub : (a - base).toNat = a.toNat - c := by
      have := a.isLt
      rw [BitVec.toNat_sub, hbase]
      omega
    obtain ⟨y, hy⟩ := hbody
    rw [hsub, if_pos (by omega), beatByte_eq hx (by omega), ← List.getD_append x y _ _ (by omega), hy,
      List.getD_eq_getElem?_getD, List.getElem?_drop, List.getD_eq_getElem?_getD,
      Nat.add_sub_cancel' (by omega)]

/-- A first beat. -/
theorem agrees_storeFirst (buf : BitVec 6 → BitVec 8) {hi lo : Byte}
    (hx : hi :: lo :: x <+: b.lanes) (hbody : x <+: body) :
    Agrees (storeFirst buf b.tdata) body x.length ∧ beatLen b.tdata = hi ++ lo := by
  refine ⟨fun a ha => ?_, ?_⟩
  · have hx6 : x.length ≤ 6 := by
      have := hx.length_le
      simp only [length_lanes, List.length_cons] at this
      omega
    obtain ⟨y, hy⟩ := hbody
    rw [storeFirst, if_pos (by omega), beatByte_eq hx (by simpa using ha), ← hy,
      List.getD_append x y _ _ ha]
    rfl
  · have hhi : beatByte b.tdata 0 = hi := beatByte_eq hx (by simp)
    have hlo : beatByte b.tdata 1 = lo := beatByte_eq hx (by simp)
    rw [beatLen, hhi, hlo]

end Store

/-! ## reading a message -/

/-- In `S_ACCUMULATE`, with the first `c` body bytes of `m` stored. -/
structure Collecting (s : ItchParserV2) (m : ItchMsg) (c : Nat) : Prop where
  state : s.state = .sAccumulate
  len : s.msgLen.toNat = m.body.length
  cnt : s.byteCnt.toNat = c
  lt : c < m.body.length
  beat : c % 8 = 6
  agrees : Agrees s.msgBuf m.body c

/-- The bytes `r` are what is missing of the message `m`. -/
inductive Reading (s : ItchParserV2) (m : ItchMsg) : List Byte → Prop where
  | start (h : s.state = .sIdle) : Reading s m m.encode
  | body (c : Nat) (h : Collecting s m c) : Reading s m (m.body.drop c)

section Reading

variable {s : ItchParserV2} {m : ItchMsg} {b : ItchBeat} {r d x : List Byte} {bs : List ItchBeat}

/-- A message that is complete is emitted. -/
theorem take_emit (hst : (s.step (ready b)).state = .sEmit)
    (h : Agrees (s.step (ready b)).msgBuf m.body m.body.length) :
    (take s b).1.state = .sIdle ∧ (take s b).2 = m.pulse := by
  rw [take]
  exact ⟨by simp [settled, hst, stepEmit], h.emitted hst⟩

/-- One that is not is not. -/
theorem take_more (hst : (s.step (ready b)).state ≠ .sEmit) :
    (take s b).1 = { s.step (ready b) with fieldsValid := false } ∧ (take s b).2 = [] := by
  rw [take, settled, emitted, if_neg hst, if_neg fun h => hst h.1]
  exact ⟨rfl, rfl⟩

theorem step_idle (hst : s.state = .sIdle) : s.step (ready b) =
    { s with
      fieldsValid := false
      msgLen := beatLen b.tdata
      msgBuf := storeFirst s.msgBuf b.tdata
      byteCnt := 6
      state :=
        if beatLen b.tdata ≤ 6 then .sEmit else if b.tlast then .sIdle else .sAccumulate } := by
  rw [step, hst]
  simp only [stepIdle, beat_ready (by simp [hst] : s.state ≠ .sEmit), if_true]
  rfl

theorem step_accumulate (hst : s.state = .sAccumulate) : s.step (ready b) =
    { s with
      msgBuf := storeBeat s.msgBuf s.byteCnt b.tdata
      byteCnt := s.byteCnt + 8
      state :=
        if s.msgLen ≤ s.byteCnt.setWidth 16 + 8 then .sEmit
        else if b.tlast then .sIdle
        else .sAccumulate } := by
  rw [step, hst]
  simp only [stepAccumulate, beat_ready (by simp [hst] : s.state ≠ .sEmit), if_true]
  rfl

/-- The length prefix of a message. -/
theorem toNat_len (m : ItchMsg) : ((BitVec.ofNat 16 m.body.length).extractLsb' 8 8 ++
    (BitVec.ofNat 16 m.body.length).extractLsb' 0 8 : BitVec 16).toNat = m.body.length := by
  have hsplit : (BitVec.ofNat 16 m.body.length).extractLsb' 8 8 ++
      (BitVec.ofNat 16 m.body.length).extractLsb' 0 8 = BitVec.ofNat 16 m.body.length :=
    BitVec.extractLsb'_append_extractLsb'
  have := m.fits
  rw [hsplit, BitVec.toNat_ofNat, Nat.mod_eq_of_lt (by omega)]

theorem Collecting.lt_iff {c : Nat} (h : Collecting s m c) :
    s.msgLen ≤ s.byteCnt.setWidth 16 + 8 ↔ m.body.length ≤ c + 8 := by
  have hcnt := h.cnt
  have := m.fits
  have := h.lt
  rw [BitVec.le_def, h.len, BitVec.toNat_add, BitVec.toNat_setWidth, hcnt,
    show (8 : BitVec 16).toNat = 8 from rfl, Nat.mod_eq_of_lt (by omega), Nat.mod_eq_of_lt (by omega)]

/-- **The last beat of a message** completes it. -/
theorem Reading.complete (h : Reading s m r) (hx : r <+: b.lanes) :
    (take s b).1.state = .sIdle ∧ (take s b).2 = m.pulse := by
  have hlen := hx.length_le
  rw [length_lanes] at hlen
  cases h with
  | start hst =>
      obtain ⟨hagree, hpre⟩ := agrees_storeFirst s.msgBuf hx (List.prefix_refl m.body)
      rw [m.length_encode] at hlen
      have hle : beatLen b.tdata ≤ 6 := by
        rw [BitVec.le_def, hpre, toNat_len]
        change m.body.length ≤ 6
        omega
      refine take_emit ?_ ?_ <;> rw [step_idle hst]
      · exact if_pos hle
      · exact hagree
  | body c h =>
      have hlt := h.lt
      rw [List.length_drop] at hlen
      have hagree := h.agrees.storeBeat h.cnt
        (by have := m.fits; have := h.beat; omega) hx (List.prefix_refl _)
      rw [List.length_drop, Nat.add_sub_cancel' (le_of_lt hlt)] at hagree
      refine take_emit ?_ ?_ <;> rw [step_accumulate h.state]
      · exact if_pos (h.lt_iff.mpr (by omega))
      · exact hagree

/-- **Another beat of a message** is stored, and if it is the last of the packet
the message is dropped. -/
theorem Reading.more (h : Reading s m (b.lanes ++ d)) (hd : d ≠ []) :
    (take s b).2 = [] ∧ (b.tlast = true → (take s b).1.state = .sIdle) ∧
    (b.tlast = false → Reading (take s b).1 m d) := by
  have hpos := List.length_pos_of_ne_nil hd
  generalize hr : b.lanes ++ d = r at h
  have hlen := congrArg List.length hr
  rw [List.length_append, length_lanes] at hlen
  have htake : r.take 8 = b.lanes := by rw [← hr, List.take_left' (length_lanes b)]
  have hdrop : r.drop 8 = d := by rw [← hr, List.drop_left' (length_lanes b)]
  cases h with
  | start hst =>
      rw [m.length_encode] at hlen
      have hx : m.encode.take 8 <+: b.lanes := by rw [htake]
      obtain ⟨hagree, hpre⟩ := agrees_storeFirst s.msgBuf hx (List.take_prefix 6 m.body)
      rw [List.length_take, Nat.min_eq_left (show 6 ≤ m.body.length by omega)] at hagree
      have hgt : ¬ beatLen b.tdata ≤ 6 := by
        rw [BitVec.le_def, hpre, toNat_len]
        change ¬ m.body.length ≤ 6
        omega
      have hstate : (s.step (ready b)).state = if b.tlast then .sIdle else .sAccumulate := by
        rw [step_idle hst]
        exact if_neg hgt
      obtain ⟨hs', hout⟩ := take_more (s := s) (b := b) (by rw [hstate]; split <;> simp)
      rw [hs', ← hdrop]
      refine ⟨hout, fun hl => by simp [hstate, hl], fun hl =>
        .body 6 ⟨by simp [hstate, hl], ?_, ?_, by omega, rfl, ?_⟩⟩
      · rw [step_idle hst]
        change (beatLen b.tdata).toNat = _
        rw [hpre, toNat_len]
      · rw [step_idle hst]
        rfl
      · rw [step_idle hst]
        exact hagree
  | body c h =>
      rw [List.length_drop] at hlen
      have hlt := h.lt
      have hfits := m.fits
      have hbeat := h.beat
      have hagree := h.agrees.storeBeat (x := b.lanes) h.cnt (by omega) (List.prefix_refl _)
        (by rw [← htake]; exact List.take_prefix 8 _)
      rw [length_lanes] at hagree
      have hgt : ¬ s.msgLen ≤ s.byteCnt.setWidth 16 + 8 := by
        rw [h.lt_iff]
        omega
      have hstate : (s.step (ready b)).state = if b.tlast then .sIdle else .sAccumulate := by
        rw [step_accumulate h.state]
        exact if_neg hgt
      obtain ⟨hs', hout⟩ := take_more (s := s) (b := b) (by rw [hstate]; split <;> simp)
      rw [hs', ← hdrop, List.drop_drop]
      refine ⟨hout, fun hl => by simp [hstate, hl], fun hl =>
        .body (c + 8) ⟨by simp [hstate, hl], ?_, ?_, by omega, by omega, ?_⟩⟩
      · rw [step_accumulate h.state]
        exact h.len
      · rw [step_accumulate h.state]
        change (s.byteCnt + 8).toNat = _
        rw [BitVec.toNat_add, h.cnt]
        change (c + 8) % 64 = _
        omega
      · rw [step_accumulate h.state]
        exact hagree

theorem Reading.ne_nil (h : Reading s m r) : r ≠ [] := by
  cases h with
  | start hst => simp [ItchMsg.encode]
  | body c h =>
      refine List.ne_nil_of_length_pos ?_
      have := h.lt
      rw [List.length_drop]
      omega

/-- **The last message of a packet** is emitted if all of it is there, and dropped
if it ends early with a beat. -/
theorem Reading.feed_last (h : Reading s m r) (hw : Words bs x) (hx : x <+: r)
    (hend : x = r ∨ x.length % 8 = 0) : (feed take s bs).1.state = .sIdle ∧
    (feed take s bs).2 = if x = r then m.pulse else [] := by
  induction hw generalizing s r with
  | last b x hne hlanes hlast =>
      rw [feed_cons, feed_nil, List.append_nil]
      by_cases hxr : x = r
      · subst hxr
        rw [if_pos rfl]
        exact h.complete hlanes
      · have hpos := List.length_pos_of_ne_nil hne
        have hlen := hlanes.length_le
        rw [length_lanes] at hlen
        have hx8 := hend.resolve_left hxr
        have hfull : x = b.lanes := hlanes.eq_of_length (by rw [length_lanes]; omega)
        obtain ⟨d, rfl⟩ := hx
        subst hfull
        have hd : d ≠ [] := fun hd => hxr (by rw [hd, List.append_nil])
        obtain ⟨hout, hidle, -⟩ := h.more hd
        rw [if_neg hxr]
        exact ⟨hidle hlast, hout⟩
  | cons b bs d hlast hw ih =>
      obtain ⟨r', hr'⟩ := hx
      rw [List.append_assoc] at hr'
      subst hr'
      have hd : d ++ r' ≠ [] := List.append_ne_nil_of_left_ne_nil hw.ne_nil _
      obtain ⟨hout, -, hread⟩ := h.more hd
      have hend' : d = d ++ r' ∨ d.length % 8 = 0 := by
        refine hend.imp (fun he => ?_) fun he => ?_
        · rwa [List.append_cancel_left_eq] at he
        · rw [List.length_append, length_lanes] at he
          omega
      obtain ⟨hst, hfed⟩ := ih (hread hlast) (List.prefix_append d r') hend'
      rw [feed_cons, hout, List.nil_append, hfed]
      exact ⟨hst, by simp only [List.append_cancel_left_eq]⟩

/-- **A message that ends with a beat** is emitted, and the next one starts with
the next beat. -/
theorem Reading.feed_aligned (h : Reading s m r) (halign : r.length % 8 = 0) {y : List Byte}
    (hy : y ≠ []) (hw : Words bs (r ++ y)) : ∃ bs₁ bs₂, bs = bs₁ ++ bs₂ ∧ Words bs₂ y ∧
    (feed take s bs₁).1.state = .sIdle ∧ (feed take s bs₁).2 = m.pulse := by
  generalize hx : r ++ y = x at hw
  have hpos := List.length_pos_of_ne_nil h.ne_nil
  have hpos' := List.length_pos_of_ne_nil hy
  induction hw generalizing s r with
  | last b x hne hlanes hlast =>
      have hlen := hlanes.length_le
      rw [length_lanes, ← hx, List.length_append] at hlen
      omega
  | cons b bs d hlast hw ih =>
      have htake : r.take 8 = b.lanes := by
        have := congrArg (List.take 8) hx
        rwa [List.take_append_of_le_length (by omega), List.take_left' (length_lanes b)] at this
      have hdrop : r.drop 8 ++ y = d := by
        have := congrArg (List.drop 8) hx
        rwa [List.drop_append_of_le_length (by omega), List.drop_left' (length_lanes b)] at this
      by_cases hr : r.drop 8 = []
      · have hfull : r = b.lanes := by
          rw [← htake, List.take_of_length_le (List.drop_eq_nil_iff.mp hr)]
        obtain ⟨hst, hout⟩ := h.complete (by rw [hfull])
        rw [hr, List.nil_append] at hdrop
        subst hdrop
        refine ⟨[b], bs, rfl, hw, ?_⟩
        rw [feed_cons, feed_nil, List.append_nil]
        exact ⟨hst, hout⟩
      · have hsplit : r = b.lanes ++ r.drop 8 := by rw [← htake, List.take_append_drop]
        rw [hsplit] at h
        obtain ⟨hout, -, hread⟩ := h.more hr
        obtain ⟨bs₁, bs₂, rfl, hw₂, hst, hfed⟩ := ih (hread hlast)
          (by rw [List.length_drop]; omega) hdrop (List.length_pos_of_ne_nil hr)
        refine ⟨b :: bs₁, bs₂, rfl, hw₂, ?_⟩
        rw [feed_cons, hout, List.nil_append]
        exact ⟨hst, hfed⟩

/-- **Messages that end with a beat** are read one after the other. -/
theorem feed_messages {ms : List ItchMsg} (halign : ∀ m ∈ ms, m.encode.length % 8 = 0)
    (hst : s.state = .sIdle) (hx : x ≠ []) (hw : Words bs (ms.flatMap ItchMsg.encode ++ x)) :
    ∃ bs₁ bs₂, bs = bs₁ ++ bs₂ ∧ Words bs₂ x ∧
      (feed take s bs₁).1.state = .sIdle ∧ (feed take s bs₁).2 = ms.flatMap ItchMsg.pulse := by
  induction ms generalizing s bs with
  | nil => exact ⟨[], bs, rfl, hw, hst, rfl⟩
  | cons m ms ih =>
      rw [List.flatMap_cons, List.append_assoc] at hw
      obtain ⟨bs₁, bs₂, rfl, hw₂, hst₁, hout₁⟩ := (Reading.start (m := m) hst).feed_aligned
        (halign m List.mem_cons_self) (by simp [hx]) hw
      obtain ⟨bs₃, bs₄, rfl, hw₄, hst₃, hout₃⟩ :=
        ih (fun m' hm' => halign m' (List.mem_cons_of_mem m hm')) hst₁ hw₂
      refine ⟨bs₁ ++ bs₃, bs₄, by rw [List.append_assoc], hw₄, ?_⟩
      rw [feed_append, hout₁, hout₃, List.flatMap_cons]
      exact ⟨hst₃, rfl⟩

/-- **A packet**: messages that end with a beat, and a last one that may end
anywhere or be cut off at the end of a beat. -/
theorem feed_packet {ms : List ItchMsg} (halign : ∀ m ∈ ms, m.encode.length % 8 = 0)
    (hst : s.state = .sIdle) (hne : x ≠ []) (hx : x <+: m.encode)
    (hend : x = m.encode ∨ x.length % 8 = 0) (hw : Words bs (ms.flatMap ItchMsg.encode ++ x)) :
    (feed take s bs).1.state = .sIdle ∧
    (feed take s bs).2 = ms.flatMap ItchMsg.pulse ++ if x = m.encode then m.pulse else [] := by
  obtain ⟨bs₁, bs₂, rfl, hw₂, hst₁, hout₁⟩ := feed_messages halign hst hne hw
  obtain ⟨hst₂, hout₂⟩ := (Reading.start (m := m) hst₁).feed_last hw₂ hx hend
  rw [feed_append, hout₁, hout₂]
  exact ⟨hst₂, rfl⟩

end Reading

end ItchParserV2

end Lliu
