import Lliu.EthAxisRxWrap
import Lliu.MoldUdp64Strip.Payload

/-!
# Lliu.MoldUdp64Strip.Loss

What a lost datagram does to the rest of a session.  The strip waits for the number it expects,
and nothing brings it back into step: of a session whose datagrams are numbered on, it forwards
those that arrive before the first lost one with messages, and drops all that come later
(`forwarded_before_loss`).
-/

namespace Lliu

open Hdl EthAxisRxWrap

namespace Datagram

/-! ## sessions -/

/-- Datagrams that are numbered on from `q`. -/
def Numbered (q : BitVec 64) : List Datagram → Prop
  | [] => True
  | d :: ds => d.seqNum = q ∧ Numbered (q + d.msgCount.setWidth 64) ds

/-- The messages announced by datagrams. -/
def messages (ds : List Datagram) : Nat := (ds.map fun d => d.msgCount.toNat).sum

/-- The datagrams of a session that are not lost. -/
def arrived (session : List (Datagram × Bool)) : List Datagram :=
  (session.filter fun x => !x.2).map Prod.fst

/-- Those before the first lost one with messages. -/
def beforeLoss (session : List (Datagram × Bool)) : List Datagram :=
  arrived (session.takeWhile fun x => !x.2 || x.1.msgCount == 0)

section Sessions

variable {q e : BitVec 64} {d : Datagram} {ds : List Datagram} {session : List (Datagram × Bool)}

theorem messages_cons (d : Datagram) (ds : List Datagram) : messages (d :: ds) = d.msgCount.toNat + messages ds :=
  List.sum_cons

/-- The numbers run from `q` to the number of messages later. -/
theorem seqNum_of_numbered (h : Numbered q ds) (hd : d ∈ ds) :
    ∃ k, k ≤ messages ds ∧ d.seqNum = q + BitVec.ofNat 64 k := by
  induction ds generalizing q with
  | nil => cases hd
  | cons d' ds ih =>
      obtain ⟨hq, hrest⟩ := h
      rw [messages_cons]
      obtain rfl | hd := List.mem_cons.mp hd
      · exact ⟨0, Nat.zero_le _, by rw [hq, BitVec.add_zero]⟩
      · obtain ⟨k, hk, hseq⟩ := ih hrest hd
        refine ⟨d'.msgCount.toNat + k, by omega, ?_⟩
        rw [hseq, BitVec.ofNat_add, BitVec.add_assoc, BitVec.ofNat_toNat]

theorem length_inOrder_le (e : BitVec 64) (ds : List Datagram) : (inOrder e ds).length ≤ ds.length := by
  induction ds generalizing e with
  | nil => exact Nat.le_refl 0
  | cons d ds ih =>
      rw [inOrder]
      split
      · exact Nat.succ_le_succ (ih _)
      · exact Nat.le_succ_of_le (ih _)

/-- Without the number expected nothing goes on. -/
theorem inOrder_eq_nil (h : ∀ d ∈ ds, d.seqNum ≠ e) : inOrder e ds = [] := by
  induction ds with
  | nil => rfl
  | cons d ds ih =>
      rw [inOrder, if_neg (h d List.mem_cons_self)]
      exact ih fun d' hd' => h d' (List.mem_cons_of_mem d hd')

theorem mem_of_mem_arrived (h : d ∈ arrived session) : d ∈ session.map Prod.fst := by
  obtain ⟨x, hx, rfl⟩ := List.mem_map.mp h
  exact List.mem_map_of_mem (List.mem_of_mem_filter hx)

/-- **Loss**: the datagrams in order of those that arrive. -/
theorem inOrder_arrived (h : Numbered q (session.map Prod.fst))
    (hlt : messages (session.map Prod.fst) < 2 ^ 64) : inOrder q (arrived session) = beforeLoss session := by
  induction session generalizing q with
  | nil => rfl
  | cons x session ih =>
      obtain ⟨d, lost⟩ := x
      rw [List.map_cons] at h hlt
      rw [messages_cons] at hlt
      dsimp only at h hlt
      obtain ⟨hq, hrest⟩ := h
      cases lost with
      | false =>
          have harrive : arrived ((d, false) :: session) = d :: arrived session := rfl
          have hbefore : beforeLoss ((d, false) :: session) = d :: beforeLoss session := rfl
          rw [harrive, hbefore, inOrder, if_pos hq, ih hrest (by omega)]
      | true =>
          have harrive : arrived ((d, true) :: session) = arrived session := rfl
          rw [harrive, beforeLoss, List.takeWhile_cons, Bool.not_true, Bool.false_or]
          by_cases hcount : d.msgCount = 0
          · have hzero : q + d.msgCount.setWidth 64 = q := by
              rw [hcount]
              exact BitVec.add_zero q
            rw [hzero] at hrest
            rw [if_pos (by rw [hcount]; rfl), ih hrest (by omega)]
            rfl
          · rw [if_neg (by simpa using hcount)]
            refine inOrder_eq_nil fun d' hd' he => ?_
            obtain ⟨k, hk, hseq⟩ := seqNum_of_numbered hrest (mem_of_mem_arrived hd')
            have hpos : d.msgCount.toNat ≠ 0 := fun h0 => hcount (BitVec.eq_of_toNat_eq h0)
            -- a later number is not `q` again
            rw [hseq] at he
            have hnat := congrArg BitVec.toNat he
            rw [BitVec.toNat_add, BitVec.toNat_add, BitVec.toNat_setWidth, BitVec.toNat_ofNat] at hnat
            have hsmall := d.msgCount.isLt
            omega

end Sessions

end Datagram

namespace MoldUdp64Strip

/-! ## accounting of datagrams -/

section Accounting

variable {s : MoldUdp64Strip} {b : Beat} {bs : List Beat} {d : List Byte}

theorem droppedDatagrams_take : (take s b).1.droppedDatagrams = (s.step (ready b)).droppedDatagrams := by
  rw [take, flushed]
  split <;> rfl

/-- A header that is out of order counts. -/
theorem droppedDatagrams_take_headerB2 (hst : s.state = .sHeaderB2) (hk : b.tkeep.extractLsb' 0 4 = 0xF#4) :
    (take s b).1.droppedDatagrams =
      if s.headerSeqNumB2 (ready b) = s.expectedSeqNum then s.droppedDatagrams else countDrop s.droppedDatagrams := by
  have hvalid : headerB2Valid (ready b) = true := by simp [headerB2Valid, hk]
  have hacc : s.headerAcceptB2 (ready b) = true := by simp [headerAcceptB2, hst, hvalid]
  rw [droppedDatagrams_take]
  by_cases hin : s.headerSeqNumB2 (ready b) = s.expectedSeqNum
  · simp [step, hacc, headerInOrderB2, hin]
  · rw [if_neg hin, countDrop]
    by_cases htop : s.droppedDatagrams = 0xFFFFFFFF#32
    · simp [step, hacc, headerInOrderB2, hin, htop]
    · simp [step, hacc, headerInOrderB2, hin, htop]

theorem droppedDatagrams_drop (h : Packs bs d) (hst : s.state = .sDrop) :
    (feed take s bs).1.droppedDatagrams = s.droppedDatagrams := by
  induction h generalizing s with
  | last b n hpos hle hkeep hlast => rw [feed_cons, take_drop hst, feed_nil]
  | cons b bs d hkeep hlast h ih =>
      rw [feed_cons, take_drop hst]
      exact ih (s := { s with state := if b.tlast then .sHeaderB0 else .sDrop }) (by simp [hlast])

theorem droppedDatagrams_payload (h : Packs bs d) (hst : s.state = .sPayload) (hv : s.stageHiValid = true) :
    (feed take s bs).1.droppedDatagrams = s.droppedDatagrams := by
  induction h generalizing s with
  | last b n hpos hle hkeep hlast => rw [feed_cons, take_payload hst hv, feed_nil]
  | cons b bs d hkeep hlast h ih =>
      have htake := take_payload (b := b) hst hv
      have hrest := ih (s := (take s b).1) (by simp [htake, hlast]) (by simp [htake, hlast])
      rw [htake] at hrest
      rw [feed_cons, htake]
      exact hrest

theorem droppedDatagrams_headerB2 (h : Packs bs d) (hlen : 4 ≤ d.length) (hst : s.state = .sHeaderB2)
    {q : BitVec 64} (hq : q = s.seqNumR.extractLsb' 16 48 ++ (d.getD 0 0 ++ d.getD 1 0)) :
    (feed take s bs).1.droppedDatagrams =
      if q = s.expectedSeqNum then s.droppedDatagrams else countDrop s.droppedDatagrams := by
  cases h with
  | last b n hpos hle hkeep hlast =>
      rw [(Beat.length_of_lowKeep hkeep hle).1] at hlen
      have hk : b.tkeep.extractLsb' 0 4 = 0xF#4 := by
        rw [hkeep]
        interval_cases n <;> rfl
      obtain ⟨hseq, -, -⟩ := headerB2_eq (s := s) hk b.bytes_eq
      rw [feed_cons, feed_nil, droppedDatagrams_take_headerB2 hst hk, hseq, ← hq]
  | cons b bs d' hkeep hlast h =>
      have hk : b.tkeep.extractLsb' 0 4 = 0xF#4 := by rw [hkeep]; rfl
      obtain ⟨hseq, -, -⟩ := headerB2_eq (s := s) hk
        (show b.bytes ++ d' = b.loBytes ++ (b.hiBytes ++ d') by rw [b.bytes_eq, List.append_assoc])
      rw [← hseq] at hq
      have hfirst := droppedDatagrams_take_headerB2 (b := b) hst hk
      rw [← hq] at hfirst
      rw [feed_cons, ← hfirst]
      by_cases hin : q = s.expectedSeqNum
      · have htake := take_inOrder hst hk (hq ▸ hin)
        exact droppedDatagrams_payload h (by rw [htake, hlast]; rfl) (by rw [htake, hlast]; rfl)
      · obtain ⟨hst', -, -⟩ := take_outOfOrder hst hk (hq ▸ hin)
        exact droppedDatagrams_drop h (by rw [hst', hlast]; rfl)

/-- **One datagram**. -/
theorem droppedDatagrams_datagram {d : Datagram} (h : Packs bs d.bytes) (hst : s.state = .sHeaderB0) :
    (feed take s bs).1.droppedDatagrams =
      if d.seqNum = s.expectedSeqNum then s.droppedDatagrams else countDrop s.droppedDatagrams := by
  obtain ⟨b₀, b₁, bs', d', rfl, hd, h', hlen, ⟨hk₀, hl₀⟩, hk₁, hl₁⟩ := packs_header h d.long
  rw [feed_cons, take_headerB0 hst hk₀ hl₀, feed_cons, take_headerB1 rfl hk₁ hl₁]
  have hbyte : ∀ k, d.byte (16 + k) = d'.getD k 0 := fun k => by
    rw [Datagram.byte, hd, Beat.bytes_of_full hk₀, Beat.bytes_of_full hk₁]
    simp [List.getD_eq_getElem?_getD, Nat.add_comm 16 k]
  have hseq : d.seqNum = (seqNumHi b₁.tdata ++ s.seqNumR.extractLsb' 0 16).extractLsb' 16 48 ++
      (d'.getD 0 0 ++ d'.getD 1 0) := by
    rw [extractLsb'_hi, ← hbyte 0, ← hbyte 1, Datagram.seqNum]
    simp only [Datagram.byte, hd, Beat.bytes_of_full hk₀, Beat.bytes_of_full hk₁]
    rfl
  exact droppedDatagrams_headerB2 (s := { s with
    seqNumR := seqNumHi b₁.tdata ++ s.seqNumR.extractLsb' 0 16, state := .sHeaderB2 }) h' hlen rfl hseq

/-- What is expected after datagrams. -/
def expectedAfter (e : BitVec 64) (ds : List Datagram) : BitVec 64 := e + BitVec.ofNat 64 (Datagram.messages ds)

/-- **A sequence of datagrams** moves the number expected by the messages in order, and counts
the others. -/
theorem accounting_datagrams {ds : List Datagram} {k : Nat} (h : PacksAll bs (ds.map Datagram.bytes))
    (hst : s.state = .sHeaderB0) (hk : s.droppedDatagrams = BitVec.ofNat 32 (min k 0xFFFFFFFF)) :
    (feed take s bs).1.expectedSeqNum =
      expectedAfter s.expectedSeqNum (Datagram.inOrder s.expectedSeqNum ds) ∧
    (feed take s bs).1.droppedDatagrams = BitVec.ofNat 32
      (min (k + (ds.length - (Datagram.inOrder s.expectedSeqNum ds).length)) 0xFFFFFFFF) := by
  induction ds generalizing bs s k with
  | nil =>
      cases h
      exact ⟨(BitVec.add_zero _).symm, hk⟩
  | cons d ds ih =>
      cases h with
      | cons bs bs' _ _ h h' =>
          obtain ⟨hst', hin, hout⟩ := feed_datagram h hst
          have hdrop := droppedDatagrams_datagram h hst
          rw [feed_append, Datagram.inOrder]
          by_cases hseq : d.seqNum = s.expectedSeqNum
          · obtain ⟨hexp, -⟩ := hin hseq
            rw [if_pos hseq, hk] at hdrop
            obtain ⟨hexp', hdrop'⟩ := ih h' hst' hdrop
            rw [hexp] at hexp' hdrop'
            rw [if_pos hseq, List.length_cons, List.length_cons, Nat.add_sub_add_right]
            refine ⟨?_, hdrop'⟩
            rw [hexp', expectedAfter, expectedAfter, Datagram.messages_cons, BitVec.ofNat_add, BitVec.add_assoc,
              BitVec.ofNat_toNat]
          · obtain ⟨hexp, -⟩ := hout hseq
            rw [if_neg hseq, hk, countDrop_ofNat] at hdrop
            obtain ⟨hexp', hdrop'⟩ := ih h' hst' hdrop
            rw [hexp] at hexp' hdrop'
            have hle := Datagram.length_inOrder_le s.expectedSeqNum ds
            have hcount : k + 1 + (ds.length - (Datagram.inOrder s.expectedSeqNum ds).length) =
                k + (ds.length + 1 - (Datagram.inOrder s.expectedSeqNum ds).length) := by omega
            rw [if_neg hseq, List.length_cons, ← hcount]
            exact ⟨hexp', hdrop'⟩

end Accounting

/-! ## sessions with losses -/

/-- **After a loss**: of a session of fewer than `2 ^ 64` messages, in any run that has taken the
datagrams that arrive, those before the first lost one with messages have been forwarded and no
others, the next number is still that of the lost one, and all others have been counted. -/
theorem forwarded_before_loss (i : Nat → MoldUdp64StripIn) (n : Nat) (session : List (Datagram × Bool))
    (hnum : Datagram.Numbered 1 (session.map Prod.fst))
    (hlt : Datagram.messages (session.map Prod.fst) < 2 ^ 64)
    (htaken : PacksAll (taken reset i n) ((Datagram.arrived session).map Datagram.bytes))
    (hidle : (trace i n).mTvalid (i n) = false) :
    (∃ fs, sent reset i n = fs.flatten ∧
      List.Forall₂ Carries fs ((Datagram.beforeLoss session).map forwarded)) ∧
    (trace i n).expectedSeqNum = expectedAfter 1 (Datagram.beforeLoss session) ∧
    (trace i n).droppedDatagrams = BitVec.ofNat 32
      (min ((Datagram.arrived session).length - (Datagram.beforeLoss session).length) 0xFFFFFFFF) := by
  have horder := Datagram.inOrder_arrived hnum hlt
  obtain ⟨-, hview, -⟩ := refines.collect (s := reset) (i := i) (fun h => absurd h (by decide)) n
  have hsame : ∀ s : MoldUdp64Strip, s.flushed.expectedSeqNum = s.expectedSeqNum ∧
      s.flushed.droppedDatagrams = s.droppedDatagrams := fun s => by
    rw [flushed]
    split <;> exact ⟨rfl, rfl⟩
  obtain ⟨hexp, hdrop⟩ := accounting_datagrams (s := reset) (k := 0) htaken rfl rfl
  rw [show reset.expectedSeqNum = 1 from rfl, horder] at hexp hdrop
  rw [Nat.zero_add] at hdrop
  rw [flushed_of_ne (s := reset) (by decide)] at hview
  refine ⟨horder ▸ sent_eq htaken hidle, ?_, ?_⟩
  · rw [← (hsame (trace i n)).1]
    exact (congrArg MoldUdp64Strip.expectedSeqNum hview).trans hexp
  · rw [← (hsame (trace i n)).2]
    exact (congrArg MoldUdp64Strip.droppedDatagrams hview).trans hdrop

/-- A datagram with one message and six payload bytes. -/
def numberedDatagram (k : Byte) : Datagram where
  bytes := List.replicate 10 0x20 ++ List.replicate 7 0 ++ [k, 0, 1] ++ List.replicate 6 k
  long := by simp

/-- Three datagrams, the second of which is lost. -/
def lostSecond : List (Datagram × Bool) :=
  [(numberedDatagram 1, false), (numberedDatagram 2, true), (numberedDatagram 3, false)]

/-- The beats that arrive. -/
def lostSecondIn : Nat → MoldUdp64StripIn :=
  offered (toBeats 3 (numberedDatagram 1).bytes ++ toBeats 3 (numberedDatagram 3).bytes)

/-- The third is dropped. -/
theorem lostSecond_forwarded : (sent reset lostSecondIn 8).flatMap Beat.bytes = [1, 1, 1, 1, 1, 1] ∧
    (∃ fs, sent reset lostSecondIn 8 = fs.flatten ∧
      List.Forall₂ Carries fs ((Datagram.beforeLoss lostSecond).map forwarded)) ∧
    (trace lostSecondIn 8).expectedSeqNum = expectedAfter 1 (Datagram.beforeLoss lostSecond) ∧
    (trace lostSecondIn 8).droppedDatagrams = BitVec.ofNat 32
      (min ((Datagram.arrived lostSecond).length - (Datagram.beforeLoss lostSecond).length) 0xFFFFFFFF) := by
  have htaken : taken reset lostSecondIn 8 =
      toBeats 3 (numberedDatagram 1).bytes ++ (toBeats 3 (numberedDatagram 3).bytes ++ []) := by
    decide +kernel
  have hpacks : ∀ k, Packs (toBeats 3 (numberedDatagram k).bytes) (numberedDatagram k).bytes :=
    fun k => packs_toBeats 3 _ (by simp [numberedDatagram]) (by simp [numberedDatagram])
  refine ⟨by decide +kernel, forwarded_before_loss lostSecondIn 8 lostSecond ?_ (by decide) ?_ (by decide +kernel)⟩
  · exact ⟨by decide, by decide, by decide, trivial⟩
  · rw [htaken]
    exact .cons _ _ _ _ (hpacks 1) (.cons _ _ _ _ (hpacks 3) .nil)

end MoldUdp64Strip

end Lliu
