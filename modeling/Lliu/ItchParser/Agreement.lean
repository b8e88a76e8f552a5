import Lliu.Hdl.Run
import Lliu.ItchParser

/-!
# Lliu.ItchParser.Agreement

The parsers of both versions on one input.  They are in lockstep, message by message, as
long as the first one completes none with a tenth beat: the buffer of `itch_parser_v2` has
64 bytes and its count six bits, so a ninth beat overwrites the type of the message, and a
length from 71 on is never reached (`agree_of_fits`).
-/

namespace Lliu

open Hdl
open ItchParserV2 (beatByte beatLen)

/-! ## agreement -/

/-- The inputs of `itch_parser_v2`. -/
def ItchParserIn.toV2 (i : ItchParserIn) : ItchParserV2In where
  sAxisTdata := i.sAxisTdata
  sAxisTvalid := i.sAxisTvalid
  sAxisTlast := i.sAxisTlast
  pipelineHold := i.pipelineHold

/-- Both parsers are ready or neither is, and pulse for the same Add Orders. -/
structure ParsersAgree (s : ItchParser) (t : ItchParserV2) (pipelineHold : Bool) : Prop where
  ready : s.sAxisTready pipelineHold = t.sAxisTready pipelineHold
  valid : s.uFieldExtract.fieldsValid = true ↔ t.fieldsValid = true ∧ t.msgType = itchMsgAddOrder
  fields : s.uFieldExtract.fieldsValid = true →
    s.uFieldExtract.orderRef = t.orderRef ∧ s.uFieldExtract.side = t.side ∧
    s.uFieldExtract.price = t.price ∧ s.uFieldExtract.stock = t.stock

/-- The bytes of an Add Order that make up its fields. -/
def FieldByte (a : Nat) : Prop := 11 ≤ a ∧ a < 20 ∨ 24 ≤ a ∧ a < 36

instance decidableFieldByte : DecidablePred FieldByte := fun a =>
  inferInstanceAs (Decidable (11 ≤ a ∧ a < 20 ∨ 24 ≤ a ∧ a < 36))

namespace ItchParser

/-- The bytes of the body after a beat. -/
def received (s : ItchParser) : Nat :=
  match s.state with
  | .sIdle => 6
  | _ => s.byteCnt.toNat + 8

/-- The beat of this cycle completes a message. -/
def completes (s : ItchParser) (i : ItchParserIn) : Bool :=
  s.beat i &&
    match s.state with
    | .sIdle => beatLen i.sAxisTdata ≤ 6
    | .sAccumulate => s.msgLen ≤ s.byteCnt.setWidth 16 + 8
    | .sEmit => false

/-- The type of the message. -/
def typeByte (s : ItchParser) (i : ItchParserIn) : BitVec 8 :=
  match s.state with
  | .sIdle => beatByte i.sAxisTdata 2
  | _ => s.msgBuf 0

end ItchParser

/-- What a message that is complete must be like: it has no tenth beat, a ninth one keeps
its type, and where an Add Order is too short for its fields the buffers have the same left
over. -/
structure ParsersFit (s : ItchParser) (t : ItchParserV2) (i : ItchParserIn) : Prop where
  beats : s.completes i = true → s.received ≤ 70
  ninth : s.completes i = true → s.received = 70 →
    (s.msgBuf 0 = itchMsgAddOrder ↔ beatByte i.sAxisTdata 2 = itchMsgAddOrder)
  stale : s.completes i = true → s.typeByte i = itchMsgAddOrder → ∀ a, FieldByte a →
    s.received ≤ a → s.msgBuf (BitVec.ofNat 7 a) = t.msgBuf (BitVec.ofNat 6 a)

/-! ## fields -/

section Field

variable {f : BitVec 7 → BitVec 8} {g : BitVec 6 → BitVec 8}

theorem be32_eq {k : Nat}
    (h : ∀ a, k ≤ a → a < k + 4 → f (BitVec.ofNat 7 a) = g (BitVec.ofNat 6 a)) :
    ItchFieldExtract.be32 f (BitVec.ofNat 7 k) = ItchParserV2.be32 g (BitVec.ofNat 6 k) := by
  have h0 := h k (by omega) (by omega)
  have h1 := h (k + 1) (by omega) (by omega)
  have h2 := h (k + 2) (by omega) (by omega)
  have h3 := h (k + 3) (by omega) (by omega)
  rw [BitVec.ofNat_add, BitVec.ofNat_add] at h1 h2 h3
  rw [ItchFieldExtract.be32, ItchParserV2.be32, h0]
  exact congrArg₂ _ (congrArg₂ _ (congrArg₂ _ rfl h1) h2) h3

theorem be64_eq {k : Nat}
    (h : ∀ a, k ≤ a → a < k + 8 → f (BitVec.ofNat 7 a) = g (BitVec.ofNat 6 a)) :
    ItchFieldExtract.be64 f (BitVec.ofNat 7 k) = ItchParserV2.be64 g (BitVec.ofNat 6 k) := by
  have h0 := @be32_eq f g k fun a hk hlt => h a hk (by omega)
  have h4 := @be32_eq f g (k + 4) fun a hk hlt => h a (by omega) (by omega)
  rw [BitVec.ofNat_add, BitVec.ofNat_add] at h4
  rw [ItchFieldExtract.be64, ItchParserV2.be64, h0]
  exact congrArg _ h4

/-! ### stores -/

variable {tdata : BitVec 64} {a : Nat}

/-- The first beat. -/
theorem storeFirst_eq (ha : a < 64)
    (h : 6 ≤ a → f (BitVec.ofNat 7 a) = g (BitVec.ofNat 6 a)) :
    ItchParser.storeFirst f tdata (BitVec.ofNat 7 a) =
      ItchParserV2.storeFirst g tdata (BitVec.ofNat 6 a) := by
  have h7 : (BitVec.ofNat 7 a).toNat = a := Nat.mod_eq_of_lt (by omega)
  have h6 : (BitVec.ofNat 6 a).toNat = a := Nat.mod_eq_of_lt (by omega)
  rw [ItchParser.storeFirst, ItchParserV2.storeFirst, h7, h6]
  split
  · rfl
  · next hlt => exact h (by omega)

/-- A later one, if it does not wrap around in the smaller buffer. -/
theorem storeBeat_eq {b : BitVec 7} {b' : BitVec 6} (hb : b'.toNat = b.toNat)
    (hle : b.toNat ≤ 62) (ha : a < 64) (hwrap : b.toNat < 57 ∨ 6 ≤ a)
    (h : a < b.toNat ∨ b.toNat + 8 ≤ a → f (BitVec.ofNat 7 a) = g (BitVec.ofNat 6 a)) :
    ItchParser.storeBeat f b tdata (BitVec.ofNat 7 a) =
      ItchParserV2.storeBeat g b' tdata (BitVec.ofNat 6 a) := by
  have h7 : (BitVec.ofNat 7 a - b).toNat = (128 - b.toNat + a) % 128 := by
    rw [BitVec.toNat_sub, BitVec.toNat_ofNat, Nat.mod_eq_of_lt (by omega : a < 2 ^ 7)]
  have h6 : (BitVec.ofNat 6 a - b').toNat = (64 - b.toNat + a) % 64 := by
    rw [BitVec.toNat_sub, BitVec.toNat_ofNat, Nat.mod_eq_of_lt (by omega : a < 2 ^ 6), hb]
  rw [ItchParser.storeBeat, ItchParserV2.storeBeat, h7, h6]
  by_cases hnew : b.toNat ≤ a ∧ a < b.toNat + 8
  · rw [if_pos (by omega), if_pos (by omega)]
    congr 1
    omega
  · rw [if_neg (by omega), if_neg (by omega)]
    exact h (by omega)

end Field

/-! ## lockstep -/

/-- In a message the counts agree in six bits, and up to a length of 70 so do the bytes
received. -/
structure Collecting (s : ItchParser) (t : ItchParserV2) : Prop where
  msgLen : s.msgLen = t.msgLen
  beats : s.byteCnt.toNat % 8 = 6
  byteCnt : t.byteCnt.toNat = s.byteCnt.toNat % 64
  short : s.msgLen.toNat ≤ 70 → s.byteCnt.toNat < s.msgLen.toNat
  bytes : s.msgLen.toNat ≤ 70 → ∀ a < s.byteCnt.toNat,
    s.msgBuf (BitVec.ofNat 7 a) = t.msgBuf (BitVec.ofNat 6 a)

/-- The two parsers in lockstep. -/
structure Lockstep (s : ItchParser) (t : ItchParserV2) : Prop where
  state : s.state = t.state
  validInIdle : t.ValidInIdle
  collecting : s.state = .sAccumulate → Collecting s t
  typ : s.state = .sEmit → (s.msgBuf 0 = itchMsgAddOrder ↔ t.msgBuf 0 = itchMsgAddOrder)
  bytes : s.state = .sEmit → s.msgBuf 0 = itchMsgAddOrder → ∀ a, FieldByte a →
    s.msgBuf (BitVec.ofNat 7 a) = t.msgBuf (BitVec.ofNat 6 a)
  valid : s.uFieldExtract.fieldsValid = true ↔ t.fieldsValid = true ∧ t.msgType = itchMsgAddOrder
  fields : s.uFieldExtract.fieldsValid = true →
    s.uFieldExtract.orderRef = t.orderRef ∧ s.uFieldExtract.side = t.side ∧
    s.uFieldExtract.price = t.price ∧ s.uFieldExtract.stock = t.stock

section Lockstep

variable {s : ItchParser} {t : ItchParserV2} {i : ItchParserIn}

theorem lockstep_reset (buf : BitVec 7 → BitVec 8) :
    Lockstep (ItchParser.reset buf) ItchParserV2.reset where
  state := rfl
  validInIdle := ItchParserV2.validInIdle_reset
  collecting h := by cases h
  typ h := by cases h
  bytes h := by cases h
  valid := iff_of_false Bool.false_ne_true fun h => Bool.false_ne_true h.1
  fields h := by cases h

theorem Lockstep.agree (h : Lockstep s t) (pipelineHold : Bool) : ParsersAgree s t pipelineHold where
  ready := by rw [ItchParser.sAxisTready, ItchParserV2.sAxisTready, h.state]
  valid := h.valid
  fields := h.fields

theorem Lockstep.beat (h : Lockstep s t) : t.beat i.toV2 = s.beat i := by
  rw [ItchParser.beat, ItchParserV2.beat, ItchParser.sAxisTready, ItchParserV2.sAxisTready, h.state]
  rfl

/-! ### what a cycle does -/

/-- The bytes after the next beat are counted with 16 bits, so the sum does not wrap. -/
theorem le_setWidth_add_iff {w : Nat} (len : BitVec 16) (cnt : BitVec w) (hw : w ≤ 7) :
    len ≤ cnt.setWidth 16 + 8 ↔ len.toNat ≤ cnt.toNat + 8 := by
  have hcnt : cnt.toNat < 128 := Nat.lt_of_lt_of_le cnt.isLt (Nat.pow_le_pow_right (by decide) hw)
  rw [BitVec.le_def, BitVec.toNat_add, BitVec.toNat_setWidth]
  change _ ≤ (_ % 65536 + 8) % 65536 ↔ _
  omega

/-- Without a beat. -/
theorem ItchParser.step_wait (hs : s.state ≠ .sEmit) (hbeat : s.beat i = false) :
    s.step i = { s with uFieldExtract := .step s.msgBuf false } := by
  have hv : s.msgValid = false := beq_eq_false_iff_ne.mpr hs
  cases h : s.state with
  | sEmit => exact absurd h hs
  | _ => simp [ItchParser.step, ItchParser.stepIdle, ItchParser.stepAccumulate, hv, h, hbeat]

theorem ItchParserV2.step_wait {j : ItchParserV2In} (h : t.ValidInIdle) (ht : t.state ≠ .sEmit)
    (hbeat : t.beat j = false) : t.step j = { t with fieldsValid := false } := by
  cases hs : t.state with
  | sEmit => exact absurd hs ht
  | sIdle => simp [ItchParserV2.step, ItchParserV2.stepIdle, hs, hbeat]
  | sAccumulate =>
      have hv := h.of_ne (by simp [hs])
      have hstep : t.step j = t := by
        simp [ItchParserV2.step, ItchParserV2.stepAccumulate, hs, hbeat]
      rw [hstep, ← hv, ← hs]

/-- What the first beat does to the first parser. -/
theorem ItchParser.step_firstBeat (hs : s.state = .sIdle) (hbeat : s.beat i = true) :
    s.step i =
      { s with
        uFieldExtract := .step s.msgBuf false
        msgLen := beatLen i.sAxisTdata
        msgBuf := ItchParser.storeFirst s.msgBuf i.sAxisTdata
        byteCnt := 6
        state := if beatLen i.sAxisTdata ≤ 6 then .sEmit
          else if i.sAxisTlast then .sIdle else .sAccumulate } := by
  have hv : s.msgValid = false := by rw [ItchParser.msgValid, hs]; rfl
  simp only [ItchParser.step, hs, ItchParser.stepIdle, hbeat, hv, if_true]

/-- And to the second one. -/
theorem ItchParserV2.step_firstBeat {j : ItchParserV2In} (ht : t.state = .sIdle)
    (hbeat : t.beat j = true) : t.step j =
      { t with
        fieldsValid := false
        msgLen := beatLen j.sAxisTdata
        msgBuf := ItchParserV2.storeFirst t.msgBuf j.sAxisTdata
        byteCnt := 6
        state := if beatLen j.sAxisTdata ≤ 6 then .sEmit
          else if j.sAxisTlast then .sIdle else .sAccumulate } := by
  simp only [ItchParserV2.step, ht, ItchParserV2.stepIdle, hbeat, if_true]

/-- What a later beat does to the first parser. -/
theorem ItchParser.step_laterBeat (hs : s.state = .sAccumulate) (hbeat : s.beat i = true) :
    s.step i =
      { s with
        uFieldExtract := .step s.msgBuf false
        msgBuf := ItchParser.storeBeat s.msgBuf s.byteCnt i.sAxisTdata
        byteCnt := s.byteCnt + 8
        state := if s.msgLen.toNat ≤ s.byteCnt.toNat + 8 then .sEmit
          else if i.sAxisTlast then .sIdle else .sAccumulate } := by
  have hv : s.msgValid = false := by rw [ItchParser.msgValid, hs]; rfl
  have hlast := le_setWidth_add_iff s.msgLen s.byteCnt (by decide)
  simp only [ItchParser.step, hs, ItchParser.stepAccumulate, hbeat, hv, if_true, hlast]

/-- And to the second one. -/
theorem ItchParserV2.step_laterBeat {j : ItchParserV2In} (ht : t.state = .sAccumulate)
    (hbeat : t.beat j = true) : t.step j =
      { t with
        msgBuf := ItchParserV2.storeBeat t.msgBuf t.byteCnt j.sAxisTdata
        byteCnt := t.byteCnt + 8
        state := if t.msgLen.toNat ≤ t.byteCnt.toNat + 8 then .sEmit
          else if j.sAxisTlast then .sIdle else .sAccumulate } := by
  have hlast := le_setWidth_add_iff t.msgLen t.byteCnt (by decide)
  simp only [ItchParserV2.step, ht, ItchParserV2.stepAccumulate, hbeat, if_true, hlast]

theorem ItchParser.completes_accumulate (hs : s.state = .sAccumulate) (hbeat : s.beat i = true) :
    s.completes i = true ↔ s.msgLen.toNat ≤ s.byteCnt.toNat + 8 := by
  simp only [ItchParser.completes, hbeat, hs, Bool.true_and, decide_eq_true_eq]
  exact le_setWidth_add_iff s.msgLen s.byteCnt (by decide)

/-! ### a step of both -/

/-- The fields of an Add Order. -/
theorem fields_eq (ht : t.msgBuf 0 = itchMsgAddOrder)
    (hbytes : ∀ a, FieldByte a → s.msgBuf (BitVec.ofNat 7 a) = t.msgBuf (BitVec.ofNat 6 a)) :
    ItchFieldExtract.be64 s.msgBuf 11 = ItchParserV2.be64 t.msgBuf 11 ∧
    (s.msgBuf 19 == 0x42#8) = ItchParserV2.sideOf t.msgBuf ∧
    ItchFieldExtract.be32 s.msgBuf 32 = ItchParserV2.priceOf t.msgBuf ∧
    ItchFieldExtract.be64 s.msgBuf 24 = ItchParserV2.stockOf t.msgBuf := by
  have hstock : ItchParserV2.carriesStock (t.msgBuf 0) = true := by rw [ht]; decide
  refine ⟨be64_eq (k := 11) fun a hk hlt => hbytes a (.inl (by omega)), ?_, ?_, ?_⟩
  · rw [ItchParserV2.sideOf, hstock, Bool.true_and]
    exact congrArg (· == 0x42#8) (hbytes 19 (by decide))
  · rw [ItchParserV2.priceOf, hstock, Bool.true_or, if_pos rfl]
    exact be32_eq (k := 32) fun a hk hlt => hbytes a (.inr (by omega))
  · rw [ItchParserV2.stockOf, if_pos hstock]
    exact be64_eq (k := 24) fun a hk hlt => hbytes a (.inr (by omega))

/-- `S_EMIT`: the fields are registered. -/
theorem Lockstep.step_emit (h : Lockstep s t) (hs : s.state = .sEmit) :
    Lockstep (s.step i) (t.step i.toV2) := by
  have ht : t.state = .sEmit := h.state ▸ hs
  have hv : s.msgValid = true := by rw [ItchParser.msgValid, hs]; rfl
  have hidle := h.validInIdle.step i.toV2
  have hstep : s.step i = { s with uFieldExtract := .step s.msgBuf true, state := .sIdle } := by
    simp only [ItchParser.step, hs, hv]
  have hstep' : t.step i.toV2 = t.stepEmit := by rw [ItchParserV2.step, ht]
  have hadd : (true && s.msgBuf 0 == itchMsgAddOrder) = true ↔ s.msgBuf 0 = itchMsgAddOrder := by
    rw [Bool.true_and, beq_iff_eq]
  rw [hstep'] at hidle
  rw [hstep, hstep']
  exact {
    state := rfl
    validInIdle := hidle
    collecting := fun h => by cases h
    typ := fun h => by cases h
    bytes := fun h => by cases h
    valid := by
      refine hadd.trans ((h.typ hs).trans ⟨fun ha => ⟨?_, ha⟩, And.right⟩)
      change ItchParserV2.supported (t.msgBuf 0) = true
      rw [ha]
      decide
    fields := fun hf => by
      have ha := hadd.mp hf
      exact fields_eq ((h.typ hs).mp ha) (h.bytes hs ha) }

/-- Without a message nothing is registered. -/
theorem Lockstep.of_quiet {s' : ItchParser} {t' : ItchParserV2}
    (hs : s'.uFieldExtract.fieldsValid = false) (ht : t'.fieldsValid = false)
    (hstate : s'.state = t'.state)
    (hcollect : s'.state = .sAccumulate → Collecting s' t')
    (htyp : s'.state = .sEmit → (s'.msgBuf 0 = itchMsgAddOrder ↔ t'.msgBuf 0 = itchMsgAddOrder))
    (hbytes : s'.state = .sEmit → s'.msgBuf 0 = itchMsgAddOrder → ∀ a, FieldByte a →
      s'.msgBuf (BitVec.ofNat 7 a) = t'.msgBuf (BitVec.ofNat 6 a)) : Lockstep s' t' where
  state := hstate
  validInIdle h := by rw [ht] at h; cases h
  collecting := hcollect
  typ := htyp
  bytes := hbytes
  valid := iff_of_false (by rw [hs]; decide) fun h => by rw [ht] at h; cases h.1
  fields h := by rw [hs] at h; cases h

/-- Nothing happens without a beat. -/
theorem Lockstep.step_wait (h : Lockstep s t) (hs : s.state ≠ .sEmit) (hbeat : s.beat i = false) :
    Lockstep (s.step i) (t.step i.toV2) := by
  rw [ItchParser.step_wait hs hbeat,
    ItchParserV2.step_wait h.validInIdle (h.state ▸ hs) (h.beat.trans hbeat)]
  refine .of_quiet rfl rfl h.state (fun h' => ?_) (fun h => absurd h hs) fun h => absurd h hs
  obtain ⟨hlen, hbeats, hcnt, hshort, hbytes⟩ := h.collecting h'
  exact ⟨hlen, hbeats, hcnt, hshort, hbytes⟩

/-- `S_IDLE`: the first six bytes are the same. -/
theorem Lockstep.step_idle (h : Lockstep s t) (hs : s.state = .sIdle) (hbeat : s.beat i = true)
    (hfit : ParsersFit s t i) : Lockstep (s.step i) (t.step i.toV2) := by
  have ht : t.state = .sIdle := h.state ▸ hs
  have hsel : s.received = 6 ∧ s.typeByte i = beatByte i.sAxisTdata 2 := by
    simp only [ItchParser.received, ItchParser.typeByte, hs, and_self]
  have hcomplete : s.completes i = true ↔ beatLen i.sAxisTdata ≤ 6 := by
    simp only [ItchParser.completes, hbeat, hs, Bool.true_and, decide_eq_true_eq]
  rw [ItchParser.step_firstBeat hs hbeat, ItchParserV2.step_firstBeat ht (h.beat.trans hbeat)]
  by_cases hlen : beatLen i.sAxisTdata ≤ 6
  · have hdone := hcomplete.mpr hlen
    refine .of_quiet rfl rfl rfl (fun h => ?_) (fun _ => Iff.rfl) fun _ hadd a hfield => ?_
    · rw [if_pos hlen] at h
      cases h
    · obtain ⟨hge, hlt⟩ : 11 ≤ a ∧ a < 64 := by
        rw [FieldByte] at hfield
        omega
      exact storeFirst_eq hlt fun _ =>
        hfit.stale hdone (hsel.2.trans hadd) a hfield (by omega)
  · have hlong : 6 < (beatLen i.sAxisTdata).toNat := by
      rw [BitVec.le_def] at hlen
      exact Nat.lt_of_not_le hlen
    have hstate : (if beatLen i.sAxisTdata ≤ 6 then ParserState.sEmit
        else if i.sAxisTlast then .sIdle else .sAccumulate) ≠ .sEmit := by
      rw [if_neg hlen]
      cases i.sAxisTlast <;> decide
    refine .of_quiet rfl rfl rfl (fun _ => ?_) (fun h => absurd h hstate)
      fun h => absurd h hstate
    exact {
      msgLen := rfl
      beats := rfl
      byteCnt := rfl
      short := fun _ => hlong
      bytes := fun _ a (ha : a < 6) => storeFirst_eq (by omega) fun h => by omega }

/-! ### a message -/

section Collecting

variable {d : BitVec 64}

/-- Unless there was a tenth beat the same beat is the last one. -/
theorem Collecting.done_iff (h : Collecting s t)
    (hfit : s.msgLen.toNat ≤ s.byteCnt.toNat + 8 → s.byteCnt.toNat + 8 ≤ 70) :
    t.msgLen.toNat ≤ t.byteCnt.toNat + 8 ↔ s.msgLen.toNat ≤ s.byteCnt.toNat + 8 := by
  have hbeats := h.beats
  have hshort := h.short
  rw [← h.msgLen, h.byteCnt]
  omega

/-- The message goes on. -/
theorem Collecting.next (h : Collecting s t) (hmore : s.byteCnt.toNat + 8 < s.msgLen.toNat)
    {s' : ItchParser} {t' : ItchParserV2} (hlen : s'.msgLen = s.msgLen) (hlen' : t'.msgLen = t.msgLen)
    (hcnt : s'.byteCnt = s.byteCnt + 8) (hcnt' : t'.byteCnt = t.byteCnt + 8)
    (hbuf : s'.msgBuf = ItchParser.storeBeat s.msgBuf s.byteCnt d)
    (hbuf' : t'.msgBuf = ItchParserV2.storeBeat t.msgBuf t.byteCnt d) : Collecting s' t' := by
  have hbeats := h.beats
  have hnat : s'.byteCnt.toNat = (s.byteCnt.toNat + 8) % 128 := by
    rw [hcnt, BitVec.toNat_add]
    rfl
  have hnat' : t'.byteCnt.toNat = (s.byteCnt.toNat % 64 + 8) % 64 := by
    rw [hcnt', BitVec.toNat_add, h.byteCnt]
    rfl
  refine ⟨?_, by omega, by omega, fun hle => ?_, fun hle a ha => ?_⟩
  · rw [hlen, hlen', h.msgLen]
  · rw [hlen] at hle ⊢
    have := h.short hle
    omega
  · rw [hlen] at hle
    have hshort := h.short hle
    have hsame : t.byteCnt.toNat = s.byteCnt.toNat := by
      rw [h.byteCnt]
      omega
    rw [hbuf, hbuf']
    exact storeBeat_eq hsame (by omega) (by omega) (.inl (by omega)) fun _ =>
      h.bytes hle a (by omega)

/-- The type after the last beat. -/
theorem Collecting.typ (h : Collecting s t) (hdone : s.byteCnt.toNat + 8 ≤ 70)
    (hlen : s.msgLen.toNat ≤ 70)
    (hninth : s.byteCnt.toNat + 8 = 70 →
      (s.msgBuf 0 = itchMsgAddOrder ↔ beatByte d 2 = itchMsgAddOrder)) :
    ItchParser.storeBeat s.msgBuf s.byteCnt d 0 = s.msgBuf 0 ∧
    (s.msgBuf 0 = itchMsgAddOrder ↔
      ItchParserV2.storeBeat t.msgBuf t.byteCnt d 0 = itchMsgAddOrder) := by
  have hbeats := h.beats
  have hsame : t.byteCnt.toNat = s.byteCnt.toNat := by
    rw [h.byteCnt]
    omega
  have hkeep : ItchParser.storeBeat s.msgBuf s.byteCnt d 0 = s.msgBuf 0 := by
    have hoff : (0 - s.byteCnt).toNat = 128 - s.byteCnt.toNat := by
      rw [BitVec.toNat_sub]
      change (128 - _ + 0) % 128 = _
      omega
    rw [ItchParser.storeBeat, hoff, if_neg (by omega)]
  refine ⟨hkeep, ?_⟩
  by_cases h62 : s.byteCnt.toNat = 62
  · -- the third byte of the ninth beat is at address 0
    have hoff : (0 - t.byteCnt).toNat = 2 := by
      rw [BitVec.toNat_sub, hsame, h62]
      rfl
    rw [hninth (by omega), ItchParserV2.storeBeat, hoff, if_pos (by omega)]
  · have hstore := @storeBeat_eq s.msgBuf t.msgBuf d 0 _ _ hsame (by omega) (by omega)
      (.inl (by omega)) fun _ => h.bytes hlen 0 (by omega)
    rw [← hkeep]
    exact iff_of_eq (congrArg (· = itchMsgAddOrder) hstore)

end Collecting

/-- `S_ACCUMULATE`: the same beats complete a message. -/
theorem Lockstep.step_accumulate (h : Lockstep s t) (hs : s.state = .sAccumulate)
    (hbeat : s.beat i = true) (hfit : ParsersFit s t i) : Lockstep (s.step i) (t.step i.toV2) := by
  have ht : t.state = .sAccumulate := h.state ▸ hs
  have hv' := h.validInIdle.of_ne (by simp [ht])
  have hsel : s.received = s.byteCnt.toNat + 8 ∧ s.typeByte i = s.msgBuf 0 := by
    simp only [ItchParser.received, ItchParser.typeByte, hs, and_self]
  have hcollect := h.collecting hs
  have hcomplete := ItchParser.completes_accumulate hs hbeat
  rw [ItchParser.step_laterBeat hs hbeat,
    ItchParserV2.step_laterBeat ht (h.beat.trans hbeat)]
  have hsame := hcollect.done_iff fun hdone => hsel.1 ▸ hfit.beats (hcomplete.mpr hdone)
  by_cases hdone : s.msgLen.toNat ≤ s.byteCnt.toNat + 8
  · have hfin := hcomplete.mpr hdone
    have hle : s.byteCnt.toNat + 8 ≤ 70 := hsel.1 ▸ hfit.beats hfin
    have htyp := hcollect.typ (d := i.sAxisTdata) hle (by omega) fun h70 =>
      hfit.ninth hfin (hsel.1.trans h70)
    rw [if_pos hdone, if_pos (hsame.mpr hdone)]
    refine .of_quiet rfl hv' rfl (fun h => by cases h) (fun _ => ?_) fun _ hadd a hfield => ?_
    · exact (iff_of_eq (congrArg (· = itchMsgAddOrder) htyp.1)).trans htyp.2
    · have hadd : s.msgBuf 0 = itchMsgAddOrder := htyp.1.symm.trans hadd
      obtain ⟨hge, hlt⟩ : 11 ≤ a ∧ a < 36 := by
        rw [FieldByte] at hfield
        omega
      have hcnt : t.byteCnt.toNat = s.byteCnt.toNat := by
        rw [hcollect.byteCnt]
        omega
      refine storeBeat_eq hcnt (by omega) (by omega) (.inr (by omega)) fun hold => ?_
      obtain hold | hold := hold
      · exact hcollect.bytes (by omega) a hold
      · exact hfit.stale hfin (hsel.2.trans hadd) a hfield (hsel.1 ▸ hold)
  · have hstate : ∀ b : Bool, (if b then ParserState.sIdle else .sAccumulate) ≠ .sEmit := by
      decide
    rw [if_neg hdone, if_neg (mt hsame.mp hdone)]
    refine .of_quiet rfl hv' rfl (fun _ => ?_) (fun h => absurd h (hstate _))
      fun h => absurd h (hstate _)
    exact hcollect.next (d := i.sAxisTdata) (Nat.lt_of_not_le hdone) rfl rfl rfl rfl rfl rfl

/-- One cycle. -/
theorem Lockstep.step (h : Lockstep s t) (hfit : ParsersFit s t i) :
    Lockstep (s.step i) (t.step i.toV2) := by
  cases hs : s.state with
  | sEmit => exact h.step_emit hs
  | _ =>
      cases hbeat : s.beat i with
      | false => exact h.step_wait (by simp [hs]) hbeat
      | true => first | exact h.step_idle hs hbeat hfit | exact h.step_accumulate hs hbeat hfit

end Lockstep

/-! ## runs -/

section Run

variable {i : Nat → ItchParserIn}

/-- The parser of the first version from reset, with a zeroed buffer. -/
def itchParserRun (i : Nat → ItchParserIn) : Nat → ItchParser :=
  run ItchParser.step (ItchParser.reset fun _ => 0) i

/-- That of the second version on the same inputs. -/
def itchParserV2Run (i : Nat → ItchParserIn) : Nat → ItchParserV2 :=
  run ItchParserV2.step ItchParserV2.reset fun n => (i n).toV2

theorem lockstep_run {n : Nat}
    (hfit : ∀ k < n, ParsersFit (itchParserRun i k) (itchParserV2Run i k) (i k)) :
    Lockstep (itchParserRun i n) (itchParserV2Run i n) := by
  induction n with
  | zero => exact lockstep_reset _
  | succ n ih =>
      have h := ih fun k hk => hfit k (Nat.lt_succ_of_lt hk)
      exact h.step (hfit n (Nat.lt_succ_self n))

/-- With lengths of at most 62 the buffers are the same. -/
structure SameBytes (s : ItchParser) (t : ItchParserV2) : Prop where
  bytes : ∀ a < 64, s.msgBuf (BitVec.ofNat 7 a) = t.msgBuf (BitVec.ofNat 6 a)
  short : s.state = .sAccumulate → s.msgLen.toNat ≤ 62

theorem Lockstep.fits {s : ItchParser} {t : ItchParserV2} (h : Lockstep s t) (hb : SameBytes s t)
    (i : ItchParserIn) : ParsersFit s t i := by
  have hle : s.completes i = true → s.received ≤ 62 := fun hfin => by
    cases hs : s.state with
    | sIdle => simp [ItchParser.received, hs]
    | sAccumulate =>
        have hbeats := (h.collecting hs).beats
        have hshort := (h.collecting hs).short
        have := hb.short hs
        simp only [ItchParser.received, hs]
        omega
    | sEmit => simp [ItchParser.completes, hs] at hfin
  refine ⟨fun hfin => ?_, fun hfin h70 => ?_, fun _ _ a hfield _ => hb.bytes a ?_⟩
  · have := hle hfin
    omega
  · have := hle hfin
    omega
  · rw [FieldByte] at hfield
    omega

theorem Lockstep.sameBytes_step {s : ItchParser} {t : ItchParserV2} (h : Lockstep s t)
    (hb : SameBytes s t) {i : ItchParserIn}
    (hlen : s.state = .sIdle → s.beat i = true → (beatLen i.sAxisTdata).toNat ≤ 62) :
    SameBytes (s.step i) (t.step i.toV2) := by
  by_cases hs : s.state = .sEmit
  · have hstep : t.step i.toV2 = t.stepEmit := by rw [ItchParserV2.step, ← h.state, hs]
    rw [hstep, ItchParser.step, hs]
    exact ⟨hb.bytes, fun h => by cases h⟩
  cases hbeat : s.beat i with
  | false =>
      rw [ItchParser.step_wait hs hbeat,
        ItchParserV2.step_wait h.validInIdle (h.state ▸ hs) (h.beat.trans hbeat)]
      exact ⟨hb.bytes, hb.short⟩
  | true =>
      cases hstate : s.state with
      | sEmit => exact absurd hstate hs
      | sIdle =>
          rw [ItchParser.step_firstBeat hstate hbeat,
            ItchParserV2.step_firstBeat (h.state ▸ hstate) (h.beat.trans hbeat)]
          exact ⟨fun a ha => storeFirst_eq ha fun _ => hb.bytes a ha, fun _ => hlen hstate hbeat⟩
      | sAccumulate =>
          have hshort := hb.short hstate
          have hbeats := (h.collecting hstate).beats
          have hlt := (h.collecting hstate).short (by omega)
          have hcnt : t.byteCnt.toNat = s.byteCnt.toNat := by
            rw [(h.collecting hstate).byteCnt]
            omega
          rw [ItchParser.step_laterBeat hstate hbeat,
            ItchParserV2.step_laterBeat (h.state ▸ hstate) (h.beat.trans hbeat)]
          exact ⟨fun a ha => storeBeat_eq hcnt (by omega) ha (.inl (by omega)) fun _ =>
            hb.bytes a ha, fun _ => hshort⟩

/-- **Agreement**: if all messages that are completed fit, the parsers agree in every cycle. -/
theorem agree_of_fits (i : Nat → ItchParserIn)
    (hfit : ∀ n, ParsersFit (itchParserRun i n) (itchParserV2Run i n) (i n)) (n : Nat) :
    ParsersAgree (itchParserRun i n) (itchParserV2Run i n) (i n).pipelineHold :=
  (lockstep_run fun k _ => hfit k).agree _

/-- No frame that begins before cycle `n` is declared to be longer than 62 bytes. -/
def ShortFrames (i : Nat → ItchParserIn) (n : Nat) : Prop :=
  ∀ k < n, (itchParserRun i k).state = .sIdle → (itchParserRun i k).beat (i k) = true →
    (beatLen (i k).sAxisTdata).toNat ≤ 62

theorem ShortFrames.mono {m n : Nat} (h : ShortFrames i n) (hle : m ≤ n) : ShortFrames i m :=
  fun k hk => h k (Nat.lt_of_lt_of_le hk hle)

/-- Then the parsers are in lockstep, with the same bytes. -/
theorem ShortFrames.lockstep {n : Nat} (h : ShortFrames i n) :
    Lockstep (itchParserRun i n) (itchParserV2Run i n) ∧
      SameBytes (itchParserRun i n) (itchParserV2Run i n) := by
  induction n with
  | zero => exact ⟨lockstep_reset _, fun _ _ => rfl, fun h => by cases h⟩
  | succ n ih =>
      obtain ⟨hlock, hsame⟩ := ih (h.mono (Nat.le_succ n))
      exact ⟨hlock.step (hlock.fits hsame _), hlock.sameBytes_step hsame (h n (Nat.lt_succ_self n))⟩

/-- All messages fit, of whatever type and however they end. -/
theorem ShortFrames.fits {n : Nat} (h : ShortFrames i n) :
    ParsersFit (itchParserRun i n) (itchParserV2Run i n) (i n) :=
  h.lockstep.1.fits h.lockstep.2 _

/-! ## an Add Order, and a long message -/

/-- Beats one after the other, the last one with `tlast`. -/
def beatStream (ds : List (BitVec 64)) : Nat → ItchParserIn := fun n =>
  { sAxisTdata := ds.getD n 0
    sAxisTvalid := n < ds.length
    sAxisTlast := n + 1 = ds.length
    pipelineHold := false }

/-- An Add Order: buy 100 `"AAPL    "` at 1000. -/
def addOrderBeats : List (BitVec 64) :=
  [0x0024410001000000#64, 0x0000000000000000#64, 0x000000002A420000#64, 0x00644141504C2020#64,
    0x2020000003E80000#64]

theorem shortFrames_addOrder (n : Nat) : ShortFrames (beatStream addOrderBeats) n := by
  have hframe : ∀ n < 5, (itchParserRun (beatStream addOrderBeats) n).state = .sIdle →
      (beatLen (beatStream addOrderBeats n).sAxisTdata).toNat ≤ 62 := by decide +kernel
  intro k _ hs hbeat
  by_cases hk : k < 5
  · exact hframe k hk hs
  · have hvalid : (beatStream addOrderBeats k).sAxisTvalid = false := decide_eq_false hk
    rw [ItchParser.beat, hvalid, Bool.false_and] at hbeat
    cases hbeat

/-- Both parsers pulse with its fields. -/
theorem agree_addOrder : (itchParserRun (beatStream addOrderBeats) 6).uFieldExtract.fieldsValid = true ∧
    ParsersAgree (itchParserRun (beatStream addOrderBeats) 6) (itchParserV2Run (beatStream addOrderBeats) 6)
      false :=
  ⟨by decide +kernel, agree_of_fits _ (fun n => (shortFrames_addOrder n).fits) 6⟩

/-- A message of 70 bytes with the type of an Add Order, and zeros. -/
def longBeats : List (BitVec 64) := 0x0046410000000000#64 :: List.replicate 8 0

/-- Only the first parser pulses. -/
theorem not_agree_long :
    ¬ ParsersAgree (itchParserRun (beatStream longBeats) 10) (itchParserV2Run (beatStream longBeats) 10)
      (beatStream longBeats 10).pipelineHold := fun h => by
  have hpulse : (itchParserRun (beatStream longBeats) 10).uFieldExtract.fieldsValid = true := by
    decide +kernel
  have hnone : (itchParserV2Run (beatStream longBeats) 10).fieldsValid = false := by
    decide +kernel
  rw [(h.valid.mp hpulse).1] at hnone
  cases hnone

end Run

end Lliu
