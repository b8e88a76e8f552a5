import Lliu.MoldUdp64Strip.Resync

/-!
# Lliu.MoldUdp64Strip.Payload

The payload bytes that the strip forwards.  Gaps and backpressure do not matter:
what has been sent is what a strip with a ready receiver sends for the beats
taken (`refines`), so the datagrams can be followed one after the other
(`feed_datagrams`).

After the last beat of a datagram of more than three beats the strip is back at
`S_HEADER_B0`, and the upper half of that beat stays in the staging register:
its bytes are not sent (`payload_preserved_iff`).
-/

namespace Lliu

open Hdl

/-! ## datagrams -/

/-- A datagram with a complete MoldUDP64 header. -/
structure Datagram where
  bytes : List Byte
  long : 20 ≤ bytes.length

namespace Datagram

def byte (d : Datagram) (k : Nat) : Byte := d.bytes.getD k 0

/-- The sequence number of the first message. -/
def seqNum (d : Datagram) : BitVec 64 :=
  (d.byte 10 ++ d.byte 11 ++ d.byte 12 ++ d.byte 13 ++ d.byte 14 ++ d.byte 15) ++
    (d.byte 16 ++ d.byte 17)

/-- The number of messages. -/
def msgCount (d : Datagram) : BitVec 16 := d.byte 18 ++ d.byte 19

def payload (d : Datagram) : List Byte := d.bytes.drop 20

/-- The datagrams that continue the sequence from `e` on; the others are dropped. -/
def inOrder (e : BitVec 64) : List Datagram → List Datagram
  | [] => []
  | d :: ds =>
      if d.seqNum = e then d :: inOrder (e + d.msgCount.setWidth 64) ds else inOrder e ds

end Datagram

namespace MoldUdp64Strip

/-! ## the strip as a transducer -/

/-- A beat offered to a strip whose receiver is ready. -/
def ready (b : Beat) : MoldUdp64StripIn := ⟨b.tdata, b.tkeep, true, b.tlast, true⟩

@[simp] theorem ready_sTvalid (b : Beat) : (ready b).sTvalid = true := rfl

@[simp] theorem ready_mTready (b : Beat) : (ready b).mTready = true := rfl

@[simp] theorem ready_sTdata (b : Beat) : (ready b).sTdata = b.tdata := rfl

@[simp] theorem ready_sTkeep (b : Beat) : (ready b).sTkeep = b.tkeep := rfl

@[simp] theorem ready_sTlast (b : Beat) : (ready b).sTlast = b.tlast := rfl

/-- The state once the beat held back has been sent. -/
def flushed (s : MoldUdp64Strip) : MoldUdp64Strip :=
  if s.state = .sFlushShort then { s with stageHiValid := false, state := .sHeaderB0 } else s

/-- The beat held back in `S_FLUSH_SHORT`. -/
def held (s : MoldUdp64Strip) : List Beat := if s.state = .sFlushShort then [s.flushBeat] else []

/-- Take a beat and send what it leads to. -/
def take (s : MoldUdp64Strip) (b : Beat) : MoldUdp64Strip × List Beat :=
  ((s.step (ready b)).flushed, (s.gave (ready b)).toList ++ (s.step (ready b)).held)

section Refines

variable {s : MoldUdp64Strip} {i : MoldUdp64StripIn} {b : Beat}

theorem flushed_of_ne (h : s.state ≠ .sFlushShort) : s.flushed = s := if_neg h

theorem held_of_ne (h : s.state ≠ .sFlushShort) : s.held = [] := if_neg h

/-- Only `S_PAYLOAD` and `S_FLUSH_SHORT` look at the receiver. -/
theorem step_ready (hp : s.state ≠ .sPayload) (hf : s.state ≠ .sFlushShort) (hv : i.sTvalid = true) :
    s.step i = s.step (ready i.beat) ∧ s.gave i = none ∧ s.gave (ready i.beat) = none := by
  obtain ⟨d, k, v, l, m⟩ := i
  obtain rfl : v = true := hv
  cases hst : s.state with
  | sPayload => exact absurd hst hp
  | sFlushShort => exact absurd hst hf
  | sHeaderB0 | sHeaderB1 | sHeaderB2 | sDrop =>
      refine ⟨?_, by simp [gave, mTvalid, hst], by simp [gave, mTvalid, hst]⟩
      simp only [step, next, hst]
      rfl

/-- In `S_FLUSH_SHORT` the beat held back is sent once the receiver is ready. -/
theorem flush_step (hf : s.state = .sFlushShort) : (s.step i).flushed = s.flushed ∧
    (s.gave i).toList ++ (s.step i).held = s.held := by
  have hacc : s.headerAcceptB2 i = false := headerAcceptB2_of_ne (by simp [hf])
  cases hm : i.mTready <;>
    simp [step, next, hf, hm, hacc, flushed, held, gave, mTvalid, mBeat, flushBeat]

/-- **Refinement**: gaps and backpressure do not change what is sent. -/
theorem refines : Refines step got gave take Staged flushed held where
  inv _ _ h := h.step
  idle s i hs hg := by
    by_cases hf : s.state = .sFlushShort
    · exact flush_step hf
    · have hnone : s.gave i = none := by
        by_cases hp : s.state = .sPayload
        · have hstall : (i.sTvalid && i.mTready) = false := by simpa [got, sTready, hp] using hg
          simp only [gave, mTvalid, hp, hs hp, Bool.and_true, hstall, Bool.false_eq_true, if_false]
        · cases hst : s.state <;> simp_all [gave, mTvalid]
      rw [step_of_got_eq_none hs hf hg, hnone]
      exact ⟨rfl, rfl⟩
  took s i b hs hg := by
    obtain ⟨hv, hr, rfl⟩ := of_got_eq_some hg
    have hf : s.state ≠ .sFlushShort := fun hf => by simp [sTready, hf] at hr
    rw [flushed_of_ne hf, held_of_ne hf, List.nil_append, take]
    by_cases hp : s.state = .sPayload
    · have hm : i.mTready = true := by simpa [sTready, hp] using hr
      have hi : i = ready i.beat := by
        obtain ⟨d, k, v, l, m⟩ := i
        obtain rfl : v = true := hv
        obtain rfl : m = true := hm
        rfl
      rw [← hi]
      exact ⟨rfl, rfl⟩
    · obtain ⟨hstep, hgave, hgave'⟩ := step_ready hp hf hv
      rw [hstep, hgave, hgave']
      exact ⟨rfl, rfl⟩

end Refines

/-! ## beat by beat -/

section Take

variable {s : MoldUdp64Strip} {i : MoldUdp64StripIn} {b : Beat} {bs : List Beat} {d : List Byte}

/-- The FSM leaves the accounting registers alone. -/
theorem next_accounting (s : MoldUdp64Strip) (i : MoldUdp64StripIn) :
    (s.next i).expectedSeqNum = s.expectedSeqNum ∧
    (s.next i).droppedDatagrams = s.droppedDatagrams := by
  rw [next]
  cases s.state with
  | sHeaderB0 | sHeaderB1 | sHeaderB2 | sPayload =>
      simp only [stepHeaderB0, stepHeaderB1, stepHeaderB2, stepPayload]
      split_ifs <;> exact ⟨rfl, rfl⟩
  | sDrop | sFlushShort =>
      dsimp only
      split_ifs <;> exact ⟨rfl, rfl⟩

/-- They move with beat 2 only. -/
theorem step_eq_next (h : s.state ≠ .sHeaderB2) : s.step i = s.next i := by
  obtain ⟨hexp, hdrop⟩ := next_accounting s i
  simp only [step, headerAcceptB2_of_ne h, Bool.false_and, Bool.false_eq_true, if_false]
  rw [← hexp, ← hdrop]

theorem take_headerB0 (hst : s.state = .sHeaderB0) (hk : b.tkeep = 0xFF#8) (hl : b.tlast = false) :
    take s b = ({ s with state := .sHeaderB1 }, []) := by
  have hstep : s.step (ready b) = { s with state := .sHeaderB1 } := by
    rw [step_eq_next (by simp [hst])]
    simp [next, hst, stepHeaderB0, headerB0Valid, hk, hl]
  rw [take, hstep]
  simp [flushed, held, gave, mTvalid, hst]

theorem take_headerB1 (hst : s.state = .sHeaderB1) (hk : b.tkeep = 0xFF#8) (hl : b.tlast = false) :
    take s b = ({ s with
      seqNumR := seqNumHi b.tdata ++ s.seqNumR.extractLsb' 0 16, state := .sHeaderB2 }, []) := by
  have hstep : s.step (ready b) = { s with
      seqNumR := seqNumHi b.tdata ++ s.seqNumR.extractLsb' 0 16, state := .sHeaderB2 } := by
    rw [step_eq_next (by simp [hst])]
    simp [next, hst, stepHeaderB1, headerB1Valid, hk, hl]
  rw [take, hstep]
  simp [flushed, held, gave, mTvalid, hst]

theorem take_drop (hst : s.state = .sDrop) :
    take s b = ({ s with state := if b.tlast then .sHeaderB0 else .sDrop }, []) := by
  have hstep : s.step (ready b) = { s with state := if b.tlast then .sHeaderB0 else .sDrop } := by
    rw [step_eq_next (by simp [hst])]
    cases hl : b.tlast with
    | true => simp [next, hst, hl]
    | false =>
        have hsame : s = { s with state := .sDrop } := by rw [← hst]
        simpa [next, hst, hl] using hsame
  rw [take, hstep]
  cases hl : b.tlast <;> simp [flushed, held, gave, mTvalid, hst]

/-- In `S_DROP` the rest of a datagram is consumed. -/
theorem feed_drop (h : Packs bs d) (hst : s.state = .sDrop) :
    (feed take s bs).1.state = .sHeaderB0 ∧
    (feed take s bs).1.expectedSeqNum = s.expectedSeqNum ∧ (feed take s bs).2 = [] := by
  induction h generalizing s with
  | last b n hpos hle hkeep hlast =>
      rw [feed_cons, take_drop hst, if_pos hlast]
      exact ⟨rfl, rfl, rfl⟩
  | cons b bs d hkeep hlast h ih =>
      rw [feed_cons, take_drop hst]
      exact ih (s := { s with state := if b.tlast then .sHeaderB0 else .sDrop }) (by simp [hlast])

/-- The number of bytes in the upper half of the last beat of `n` bytes. -/
def lastHalf (n : Nat) : Nat := (n + 7) % 8 + 1 - 4

theorem lastHalf_add (n : Nat) : lastHalf (8 + n) = lastHalf n := by
  simp only [lastHalf]
  omega

theorem lastHalf_le (hpos : 0 < n) : lastHalf n ≤ n := by
  simp only [lastHalf]
  omega

theorem lastHalf_of_le (hpos : 0 < n) (hle : n ≤ 8) : lastHalf n = n - 4 := by
  simp only [lastHalf]
  omega

/-- The bytes staged in `S_PAYLOAD`. -/
def staged (s : MoldUdp64Strip) : List Byte := keptBytes 4 s.stageHi s.stageHiKeep

theorem payloadBeat_bytes (s : MoldUdp64Strip) (b : Beat) :
    (s.payloadBeat b).bytes = s.staged ++ b.loBytes := keptBytes_append _ _ _ _

theorem take_payload (hst : s.state = .sPayload) (hv : s.stageHiValid = true) : take s b =
    ({ s with
      stageHi := b.tdata.extractLsb' 32 32
      stageHiKeep := b.tkeep.extractLsb' 4 4
      stageHiValid := !b.tlast || b.tkeep.extractLsb' 4 4 != 0#4
      state := if b.tlast then .sHeaderB0 else .sPayload }, [s.payloadBeat b]) := by
  rw [take, step_eq_next (by simp [hst])]
  cases hl : b.tlast <;>
    simp [next, hst, stepPayload, hv, hl, flushed, held, gave, mTvalid, mBeat,
      MoldUdp64StripIn.beat, payloadBeat]

/-- **The payload**: what `S_PAYLOAD` sends are the staged bytes and those that
follow, but for the upper half of the last beat. -/
theorem feed_payload (h : Packs bs d) (hst : s.state = .sPayload) (hv : s.stageHiValid = true)
    (hk : s.stageHiKeep = 0xF#4) :
    (feed take s bs).1.state = .sHeaderB0 ∧
    (feed take s bs).1.expectedSeqNum = s.expectedSeqNum ∧
    Packs (feed take s bs).2 (s.staged ++ d.take (d.length - lastHalf d.length)) := by
  induction h generalizing s with
  | last b n hpos hle hkeep hlast =>
      obtain ⟨hlen, hlo, hhi⟩ := Beat.length_of_lowKeep hkeep hle
      have htake : b.bytes.take (b.bytes.length - lastHalf b.bytes.length) = b.loBytes := by
        rw [hlen, lastHalf_of_le hpos hle, b.bytes_eq, List.take_left']
        omega
      have hbeat : (s.payloadBeat b).tkeep = lowKeep (4 + min n 4) := by
        rw [payloadBeat, hkeep, hk]
        clear hlen hlo hhi htake hkeep
        interval_cases n <;> rfl
      rw [feed_cons, take_payload hst hv, feed_nil, htake, ← payloadBeat_bytes]
      exact ⟨by simp [hlast], rfl, .last _ _ (by omega) (by omega) hbeat hlast⟩
  | cons b bs d hkeep hlast h ih =>
      obtain ⟨hlen, -, -⟩ := Beat.length_of_full hkeep
      have htake := take_payload (b := b) hst hv
      obtain ⟨hst', hseq, hpack⟩ := ih (s := (take s b).1)
        (by simp [htake, hlast]) (by simp [htake, hlast]) (by simp [htake, hkeep])
      rw [htake] at hst' hseq hpack
      rw [feed_cons, htake]
      refine ⟨hst', hseq, ?_⟩
      have hle := lastHalf_le (List.length_pos_of_ne_nil h.ne_nil)
      have hbytes : s.staged ++
          (b.bytes ++ d).take ((b.bytes ++ d).length - lastHalf (b.bytes ++ d).length) =
          (s.payloadBeat b).bytes ++ (b.hiBytes ++ d.take (d.length - lastHalf d.length)) := by
        rw [List.length_append, hlen, lastHalf_add, List.take_append, hlen,
          List.take_of_length_le (by omega), show 8 + d.length - lastHalf d.length - 8 =
            d.length - lastHalf d.length by omega, payloadBeat_bytes, b.bytes_eq]
        simp only [List.append_assoc]
      rw [hbytes]
      exact .cons _ _ _ (by simp [payloadBeat, hkeep, hk]) hlast hpack

/-- The upper half of beat 2, as `S_FLUSH_SHORT` sends it. -/
def shortBeat (b : Beat) : Beat :=
  ⟨0#32 ++ b.tdata.extractLsb' 32 32, 0#4 ++ b.tkeep.extractLsb' 4 4, true⟩

theorem shortBeat_bytes (b : Beat) : (shortBeat b).bytes = b.hiBytes := by
  have hnone : keptBytes 4 0#32 0#4 = [] := rfl
  rw [Beat.bytes, shortBeat, keptBytes_append, hnone, List.append_nil, Beat.hiBytes]

theorem take_inOrder (hst : s.state = .sHeaderB2) (hk : b.tkeep.extractLsb' 0 4 = 0xF#4)
    (hin : s.headerSeqNumB2 (ready b) = s.expectedSeqNum) : take s b =
    ({ s with
      seqNumR := s.headerSeqNumB2 (ready b)
      msgCountR := headerMsgCountB2 (ready b)
      stageHi := b.tdata.extractLsb' 32 32
      stageHiKeep := b.tkeep.extractLsb' 4 4
      stageHiValid := !b.tlast
      expectedSeqNum := s.expectedSeqNum + (headerMsgCountB2 (ready b)).setWidth 64
      state := if b.tlast then .sHeaderB0 else .sPayload }, if b.tlast then [shortBeat b] else []) := by
  have hvalid : headerB2Valid (ready b) = true := by simp [headerB2Valid, hk]
  have hacc : s.headerAcceptB2 (ready b) = true := by simp [headerAcceptB2, hst, hvalid]
  have horder : s.headerInOrderB2 (ready b) = true := by simp [headerInOrderB2, hin]
  have hnone : s.gave (ready b) = none := by simp [gave, mTvalid, hst]
  rw [take, hnone]
  cases hl : b.tlast <;>
    simp [step, next, hst, stepHeaderB2, hacc, horder, hvalid, hin, hl, flushed, held,
      flushBeat, shortBeat]

theorem take_outOfOrder (hst : s.state = .sHeaderB2) (hk : b.tkeep.extractLsb' 0 4 = 0xF#4)
    (hout : s.headerSeqNumB2 (ready b) ≠ s.expectedSeqNum) :
    (take s b).1.state = (if b.tlast then .sHeaderB0 else .sDrop) ∧
    (take s b).1.expectedSeqNum = s.expectedSeqNum ∧ (take s b).2 = [] := by
  have hvalid : headerB2Valid (ready b) = true := by simp [headerB2Valid, hk]
  have horder : s.headerInOrderB2 (ready b) = false := by simp [headerInOrderB2, hout]
  have hnone : s.gave (ready b) = none := by simp [gave, mTvalid, hst]
  rw [take, hnone]
  cases hl : b.tlast <;>
    simp [step, next, hst, stepHeaderB2, horder, hvalid, hl, flushed, held]

end Take

/-! ## datagram by datagram -/

/-- The number of payload bytes that are not sent of a datagram in order. -/
def cut (d : Datagram) : Nat := if d.bytes.length ≤ 24 then 0 else lastHalf d.bytes.length

/-- The bytes sent of a datagram in order. -/
def forwarded (d : Datagram) : List Byte := d.payload.take (d.payload.length - cut d)

/-- The beats that carry the bytes `p`: a packet, or an empty beat if there are none. -/
inductive Carries : List Beat → List Byte → Prop where
  | packet (bs : List Beat) (p : List Byte) (h : Packs bs p) : Carries bs p
  | empty (b : Beat) (hbytes : b.bytes = []) (hlast : b.tlast = true) : Carries [b] []

section Datagrams

variable {s : MoldUdp64Strip} {bs : List Beat} {d : List Byte}

/-- The first three beats of a datagram with a complete header. -/
theorem packs_header (h : Packs bs d) (hlen : 20 ≤ d.length) : ∃ b₀ b₁ bs' d',
    bs = b₀ :: b₁ :: bs' ∧ d = b₀.bytes ++ (b₁.bytes ++ d') ∧ Packs bs' d' ∧ 4 ≤ d'.length ∧
    (b₀.tkeep = 0xFF#8 ∧ b₀.tlast = false) ∧ (b₁.tkeep = 0xFF#8 ∧ b₁.tlast = false) := by
  cases h with
  | last b n hpos hle hkeep hlast =>
      rw [(Beat.length_of_lowKeep hkeep hle).1] at hlen
      omega
  | cons b₀ bs d hkeep hlast h =>
      rw [List.length_append, (Beat.length_of_full hkeep).1] at hlen
      cases h with
      | last b n hpos hle hkeep' hlast' =>
          rw [(Beat.length_of_lowKeep hkeep' hle).1] at hlen
          omega
      | cons b₁ bs d hkeep' hlast' h =>
          rw [List.length_append, (Beat.length_of_full hkeep').1] at hlen
          exact ⟨b₀, b₁, bs, d, rfl, rfl, h, by omega, ⟨hkeep, hlast⟩, hkeep', hlast'⟩

/-- The header bytes of beat 2. -/
theorem headerB2_eq {b : Beat} {rest : List Byte} (hk : b.tkeep.extractLsb' 0 4 = 0xF#4)
    (hd : d = b.loBytes ++ rest) :
    s.headerSeqNumB2 (ready b) = s.seqNumR.extractLsb' 16 48 ++ (d.getD 0 0 ++ d.getD 1 0) ∧
    headerMsgCountB2 (ready b) = d.getD 2 0 ++ d.getD 3 0 ∧ d.drop 4 = rest := by
  rw [Beat.loBytes_of_full hk] at hd
  subst hd
  exact ⟨rfl, rfl, rfl⟩

theorem carries_shortBeat {b : Beat} {n : Nat} (hkeep : b.tkeep = lowKeep n) (hlo : 4 ≤ n)
    (hhi : n ≤ 8) : Carries [shortBeat b] b.hiBytes := by
  have hlen := (Beat.length_of_lowKeep hkeep hhi).2.2
  rw [← shortBeat_bytes]
  by_cases hn : n = 4
  · have hnil : (shortBeat b).bytes = [] :=
      List.eq_nil_of_length_eq_zero (by rw [shortBeat_bytes, hlen, hn])
    rw [hnil]
    exact .empty _ hnil rfl
  · have hshort : (shortBeat b).tkeep = lowKeep (n - 4) := by
      rw [shortBeat, hkeep]
      clear hlen hkeep
      interval_cases n <;> rfl
    exact .packet _ _ (.last _ (n - 4) (by omega) (by omega) hshort rfl)

/-- **Beat 2 and the rest**: `d` are the bytes of the datagram from beat 2 on. -/
theorem feed_headerB2 (h : Packs bs d) (hlen : 4 ≤ d.length) (hst : s.state = .sHeaderB2)
    {q : BitVec 64} (hq : q = s.seqNumR.extractLsb' 16 48 ++ (d.getD 0 0 ++ d.getD 1 0)) :
    (feed take s bs).1.state = .sHeaderB0 ∧
    (q = s.expectedSeqNum →
      (feed take s bs).1.expectedSeqNum =
        s.expectedSeqNum + (d.getD 2 0 ++ d.getD 3 0).setWidth 64 ∧
      Carries (feed take s bs).2 ((d.drop 4).take
        (d.length - 4 - if d.length ≤ 8 then 0 else lastHalf d.length))) ∧
    (q ≠ s.expectedSeqNum →
      (feed take s bs).1.expectedSeqNum = s.expectedSeqNum ∧ (feed take s bs).2 = []) := by
  cases h with
  | last b n hpos hle hkeep hlast =>
      obtain ⟨hn, hnlo, hnhi⟩ := Beat.length_of_lowKeep hkeep hle
      rw [hn] at hlen
      have hk : b.tkeep.extractLsb' 0 4 = 0xF#4 := by
        rw [hkeep]
        clear hn hnlo hnhi hkeep
        interval_cases n <;> rfl
      obtain ⟨hseq, hcount, hrest⟩ := headerB2_eq (s := s) hk b.bytes_eq
      rw [← hseq] at hq
      rw [feed_cons, feed_nil, List.append_nil, hn, if_pos hle, hrest, ← hcount,
        List.take_of_length_le (by omega)]
      by_cases hin : q = s.expectedSeqNum
      · rw [take_inOrder hst hk (hq ▸ hin), if_pos hlast]
        refine ⟨rfl, fun _ => ⟨rfl, ?_⟩, fun hne => absurd hin hne⟩
        rw [if_pos hlast]
        exact carries_shortBeat hkeep hlen hle
      · obtain ⟨hst', hexp, hout⟩ := take_outOfOrder hst hk (hq ▸ hin)
        rw [if_pos hlast] at hst'
        exact ⟨hst', fun he => absurd he hin, fun _ => ⟨hexp, hout⟩⟩
  | cons b bs d' hkeep hlast h =>
      have hk : b.tkeep.extractLsb' 0 4 = 0xF#4 := by rw [hkeep]; rfl
      obtain ⟨hseq, hcount, hrest⟩ := headerB2_eq (s := s) hk
        (show b.bytes ++ d' = b.loBytes ++ (b.hiBytes ++ d') by rw [b.bytes_eq, List.append_assoc])
      rw [← hseq] at hq
      have hpos := List.length_pos_of_ne_nil h.ne_nil
      have hlen' : (b.bytes ++ d').length = 8 + d'.length := by
        rw [List.length_append, (Beat.length_of_full hkeep).1]
      rw [feed_cons, hlen', if_neg (by omega), hrest, ← hcount, lastHalf_add]
      by_cases hin : q = s.expectedSeqNum
      · have htake := take_inOrder hst hk (hq ▸ hin)
        rw [hlast] at htake
        simp only [Bool.false_eq_true, if_false, Bool.not_false] at htake
        obtain ⟨hst', hexp, hpack⟩ := feed_payload (s := (take s b).1) h
          (by rw [htake]) (by rw [htake]) (by rw [htake, hkeep]; rfl)
        rw [htake] at hst' hexp hpack ⊢
        refine ⟨hst', fun _ => ⟨hexp, ?_⟩, fun hne => absurd hin hne⟩
        have hbytes : (b.hiBytes ++ d').take (8 + d'.length - 4 - lastHalf d'.length) =
            b.hiBytes ++ d'.take (d'.length - lastHalf d'.length) := by
          have hle := lastHalf_le hpos
          rw [List.take_append, (Beat.length_of_full hkeep).2.2,
            List.take_of_length_le (by rw [(Beat.length_of_full hkeep).2.2]; omega),
            show 8 + d'.length - 4 - lastHalf d'.length - 4 = d'.length - lastHalf d'.length by omega]
        rw [hbytes]
        exact .packet _ _ hpack
      · obtain ⟨hst', hexp, hout⟩ := take_outOfOrder hst hk (hq ▸ hin)
        rw [hlast, if_neg Bool.false_ne_true] at hst'
        obtain ⟨hst'', hexp', hout'⟩ := feed_drop h hst'
        refine ⟨hst'', fun he => absurd he hin, fun _ => ⟨hexp'.trans hexp, ?_⟩⟩
        rw [hout, hout', List.append_nil]

/-- **One datagram**: it is taken to its end, and its payload sent if it is in
order, but for the bytes cut off. -/
theorem feed_datagram {d : Datagram} (h : Packs bs d.bytes) (hst : s.state = .sHeaderB0) :
    (feed take s bs).1.state = .sHeaderB0 ∧
    (d.seqNum = s.expectedSeqNum →
      (feed take s bs).1.expectedSeqNum = s.expectedSeqNum + d.msgCount.setWidth 64 ∧
      Carries (feed take s bs).2 (forwarded d)) ∧
    (d.seqNum ≠ s.expectedSeqNum →
      (feed take s bs).1.expectedSeqNum = s.expectedSeqNum ∧ (feed take s bs).2 = []) := by
  obtain ⟨b₀, b₁, bs', d', rfl, hd, h', hlen, ⟨hk₀, hl₀⟩, hk₁, hl₁⟩ := packs_header h d.long
  rw [feed_cons, take_headerB0 hst hk₀ hl₀, feed_cons, take_headerB1 rfl hk₁ hl₁]
  have hbyte : ∀ k, d.byte (16 + k) = d'.getD k 0 := fun k => by
    rw [Datagram.byte, hd, Beat.bytes_of_full hk₀, Beat.bytes_of_full hk₁]
    simp [List.getD_eq_getElem?_getD, Nat.add_comm 16 k]
  have hseq : d.seqNum = (seqNumHi b₁.tdata ++ s.seqNumR.extractLsb' 0 16).extractLsb' 16 48 ++
      (d'.getD 0 0 ++ d'.getD 1 0) := by
    rw [extractLsb'_hi, ← hbyte 0, ← hbyte 1, Datagram.seqNum]
    simp only [Datagram.byte, hd, Beat.bytes_of_full hk₀, Beat.bytes_of_full hk₁]
    rfl
  have hcount : d.msgCount = d'.getD 2 0 ++ d'.getD 3 0 := by
    rw [← hbyte 2, ← hbyte 3, Datagram.msgCount]
  have hpay : d.payload = d'.drop 4 := by
    rw [Datagram.payload, hd, Beat.bytes_of_full hk₀, Beat.bytes_of_full hk₁]
    rfl
  have hforw : forwarded d = (d'.drop 4).take
      (d'.length - 4 - if d'.length ≤ 8 then 0 else lastHalf d'.length) := by
    have hdlen : d.bytes.length = 8 + (8 + d'.length) := by
      rw [hd, List.length_append, List.length_append, (Beat.length_of_full hk₀).1,
        (Beat.length_of_full hk₁).1]
    have hle : 8 + (8 + d'.length) ≤ 24 ↔ d'.length ≤ 8 := by omega
    rw [forwarded, hpay, List.length_drop, cut, hdlen, lastHalf_add, lastHalf_add]
    simp only [hle]
  obtain ⟨hst', hin, hout⟩ := feed_headerB2 (s := { s with
    seqNumR := seqNumHi b₁.tdata ++ s.seqNumR.extractLsb' 0 16, state := .sHeaderB2 }) h' hlen rfl hseq
  rw [hcount, hforw]
  exact ⟨hst', hin, hout⟩

/-- **A sequence of datagrams**: each one in order is answered by its frame. -/
theorem feed_datagrams {ds : List Datagram} (h : PacksAll bs (ds.map Datagram.bytes))
    (hst : s.state = .sHeaderB0) : (feed take s bs).1.state = .sHeaderB0 ∧
    ∃ fs, (feed take s bs).2 = fs.flatten ∧
      List.Forall₂ Carries fs ((Datagram.inOrder s.expectedSeqNum ds).map forwarded) := by
  induction ds generalizing bs s with
  | nil =>
      cases h
      exact ⟨hst, [], rfl, .nil⟩
  | cons d ds ih =>
      cases h with
      | cons bs bs' _ _ h h' =>
          obtain ⟨hst', hin, hout⟩ := feed_datagram h hst
          obtain ⟨hst'', fs, hfs, hall⟩ := ih h' hst'
          rw [feed_append, hfs, Datagram.inOrder]
          refine ⟨hst'', ?_⟩
          by_cases hseq : d.seqNum = s.expectedSeqNum
          · obtain ⟨hexp, hcar⟩ := hin hseq
            rw [hexp] at hall
            rw [if_pos hseq]
            exact ⟨(feed take s bs).2 :: fs, rfl, .cons hcar hall⟩
          · obtain ⟨hexp, hnil⟩ := hout hseq
            rw [hexp] at hall
            rw [if_neg hseq, hnil]
            exact ⟨fs, rfl, hall⟩

end Datagrams

/-! ## payload preservation -/

/-- The beats carry the bytes `p`, and if there are any, the last beat and no
other is marked as the last. -/
structure Frame (bs : List Beat) (p : List Byte) : Prop where
  bytes : bs.flatMap Beat.bytes = p
  tlast : p ≠ [] → ∃ fs b, bs = fs ++ [b] ∧ b.tlast = true ∧ ∀ f ∈ fs, f.tlast = false

/-- The beats are frames of the given payloads, in this order. -/
def Preserved (bs : List Beat) (ps : List (List Byte)) : Prop :=
  ∃ fs : List (List Beat), bs = fs.flatten ∧ List.Forall₂ Frame fs ps

theorem Carries.frame {bs : List Beat} {p : List Byte} (h : Carries bs p) : Frame bs p := by
  cases h with
  | packet bs p h => exact ⟨h.bytes_eq, fun _ => h.tlast⟩
  | empty b hbytes hlast => exact ⟨by simp [hbytes], fun hne => absurd rfl hne⟩

theorem Carries.packs {bs : List Beat} {p : List Byte} (h : Carries bs p) (hp : p ≠ []) :
    Packs bs p := by
  cases h with
  | packet bs p h => exact h
  | empty b hbytes hlast => exact absurd rfl hp

theorem preserved_of_carries {bs : List Beat} {fs : List (List Beat)} {ps : List (List Byte)}
    (hbs : bs = fs.flatten) (h : List.Forall₂ Carries fs ps) : Preserved bs ps :=
  ⟨fs, hbs, h.imp fun _ _ => Carries.frame⟩

theorem Preserved.bytes_eq {bs : List Beat} {ps : List (List Byte)} (h : Preserved bs ps) :
    bs.flatMap Beat.bytes = ps.flatten := by
  obtain ⟨fs, rfl, hall⟩ := h
  induction hall with
  | nil => rfl
  | cons hframe _ ih => rw [List.flatten_cons, List.flatMap_append, ih, hframe.bytes, List.flatten_cons]

theorem forwarded_isPrefix (d : Datagram) : forwarded d <+: d.payload := List.take_prefix _ _

theorem forwarded_eq_iff (d : Datagram) : forwarded d = d.payload ↔ cut d = 0 := by
  have hle : cut d ≤ d.payload.length := by
    have := d.long
    rw [cut, Datagram.payload, List.length_drop, lastHalf]
    split <;> omega
  rw [forwarded, List.take_eq_self_iff]
  omega

/-- Nothing is cut off a datagram whose last beat ends in its lower half, or that
has three beats. -/
theorem cut_eq_zero_iff (d : Datagram) : cut d = 0 ↔
    d.bytes.length ≤ 24 ∨ d.bytes.length % 8 ∈ [1, 2, 3, 4] := by
  rw [cut]
  split
  · rename_i h
    exact ⟨fun _ => Or.inl h, fun _ => rfl⟩
  · rename_i h
    simp only [lastHalf, h, false_or, List.mem_cons, List.not_mem_nil, or_false]
    omega

/-- What a run from reset has sent when it has taken whole datagrams and offers
no beat. -/
theorem sent_eq {i : Nat → MoldUdp64StripIn} {n : Nat} {ds : List Datagram}
    (htaken : PacksAll (taken reset i n) (ds.map Datagram.bytes))
    (hidle : (trace i n).mTvalid (i n) = false) : ∃ fs, sent reset i n = fs.flatten ∧
      List.Forall₂ Carries fs ((Datagram.inOrder 1 ds).map forwarded) := by
  obtain ⟨-, -, hout⟩ := refines.collect (s := reset) (i := i) (fun h => absurd h (by decide)) n
  have hnone : held (run step reset i n) = [] := held_of_ne fun hf => by
    rw [mTvalid, show (trace i n).state = _ from hf] at hidle
    cases hidle
  rw [hnone, List.append_nil, held_of_ne (by decide), List.nil_append,
    flushed_of_ne (by decide)] at hout
  obtain ⟨-, fs, hfs, hall⟩ := feed_datagrams (s := reset) htaken rfl
  exact ⟨fs, hout.trans hfs, hall⟩

/-- **Payload preservation**: once a run has taken some datagrams and has no beat
to send, it has sent exactly the payloads of those in order if and only if each
of these has at most 24 bytes or ends in the lower half of a beat. -/
theorem payload_preserved_iff (i : Nat → MoldUdp64StripIn) (n : Nat) (ds : List Datagram)
    (htaken : PacksAll (taken reset i n) (ds.map Datagram.bytes))
    (hidle : (trace i n).mTvalid (i n) = false) :
    Preserved (sent reset i n) ((Datagram.inOrder 1 ds).map Datagram.payload) ↔
      ∀ d ∈ Datagram.inOrder 1 ds, d.bytes.length ≤ 24 ∨ d.bytes.length % 8 ∈ [1, 2, 3, 4] := by
  obtain ⟨fs, hsent, hall⟩ := sent_eq htaken hidle
  have hforw := preserved_of_carries hsent hall
  simp only [← cut_eq_zero_iff, ← forwarded_eq_iff]
  constructor
  · intro h
    exact (flatten_eq_iff_of_isPrefix forwarded_isPrefix).mp (hforw.bytes_eq.symm.trans h.bytes_eq)
  · intro h
    rw [← List.map_congr_left h]
    exact hforw

/-- The first datagram as a sequence of bytes. -/
def firstBytes : Datagram := ⟨firstDatagram.flatMap Beat.bytes, by decide⟩

/-- Four payload bytes after the header. -/
theorem payload_preserved_iff_short :
    PacksAll (taken reset (offered firstDatagram) 4) ([firstBytes].map Datagram.bytes) ∧
    (trace (offered firstDatagram) 4).mTvalid (offered firstDatagram 4) = false ∧
    (Preserved (sent reset (offered firstDatagram) 4)
        ((Datagram.inOrder 1 [firstBytes]).map Datagram.payload) ↔
      ∀ d ∈ Datagram.inOrder 1 [firstBytes],
        d.bytes.length ≤ 24 ∨ d.bytes.length % 8 ∈ [1, 2, 3, 4]) := by
  have hpack : Packs firstDatagram _ :=
    .cons _ _ _ rfl rfl (.cons _ _ _ rfl rfl (.last _ 8 (by decide) (by decide) rfl rfl))
  have htaken : taken reset (offered firstDatagram) 4 = firstDatagram := by decide +kernel
  have hall : PacksAll (taken reset (offered firstDatagram) 4) ([firstBytes].map Datagram.bytes) := by
    rw [htaken]
    exact hpack.flatMap.packsAll
  have hidle : (trace (offered firstDatagram) 4).mTvalid (offered firstDatagram 4) = false := by
    decide +kernel
  exact ⟨hall, hidle, payload_preserved_iff _ _ _ hall hidle⟩

/-- A datagram with sequence number 1 and twelve payload bytes. -/
def twelveBytes : List Beat :=
  [⟨0x2020202020202020#64, 0xFF#8, false⟩, ⟨0x0000000000002020#64, 0xFF#8, false⟩,
    ⟨0x0403020101000100#64, 0xFF#8, false⟩, ⟨0x0C0B0A0908070605#64, 0xFF#8, true⟩]

def twelve : Datagram := ⟨twelveBytes.flatMap Beat.bytes, by decide⟩

/-- Of the twelve bytes the last four are not sent. -/
theorem last_half_lost :
    PacksAll (taken reset (offered twelveBytes) 5) ([twelve].map Datagram.bytes) ∧
    (trace (offered twelveBytes) 5).mTvalid (offered twelveBytes 5) = false ∧
    Datagram.inOrder 1 [twelve] = [twelve] ∧
    twelve.payload = [1, 2, 3, 4, 5, 6, 7, 8, 9, 10, 11, 12] ∧
    (sent reset (offered twelveBytes) 5).flatMap Beat.bytes = [1, 2, 3, 4, 5, 6, 7, 8] ∧
    ¬ Preserved (sent reset (offered twelveBytes) 5)
      ((Datagram.inOrder 1 [twelve]).map Datagram.payload) := by
  have hpack : Packs twelveBytes _ :=
    .cons _ _ _ rfl rfl (.cons _ _ _ rfl rfl
      (.cons _ _ _ rfl rfl (.last _ 8 (by decide) (by decide) rfl rfl)))
  have htaken : taken reset (offered twelveBytes) 5 = twelveBytes := by decide +kernel
  have hpay : twelve.payload = [1, 2, 3, 4, 5, 6, 7, 8, 9, 10, 11, 12] := by decide +kernel
  have horder : Datagram.inOrder 1 [twelve] = [twelve] :=
    if_pos (show twelve.seqNum = 1 by decide +kernel)
  have hsent : (sent reset (offered twelveBytes) 5).flatMap Beat.bytes = [1, 2, 3, 4, 5, 6, 7, 8] := by
    decide +kernel
  refine ⟨?_, by decide +kernel, horder, hpay, hsent, fun h => ?_⟩
  · rw [htaken]
    exact hpack.flatMap.packsAll
  · have hbytes := h.bytes_eq
    rw [horder, hsent] at hbytes
    simp only [List.map_cons, List.map_nil, hpay] at hbytes
    exact absurd hbytes (by decide)

end MoldUdp64Strip

end Lliu
