import Lliu.ItchParserV2.RoundTrip

/-!
# Lliu.ItchParserV2.Packets

Packets of messages that follow each other: whatever the gaps and the backpressure, the parser
pulses for the supported messages of all of them, in order (`pulsed_packets`).  It begins no
frame in them that is declared longer than a message can be (`feedAll_brings`).
-/

namespace Lliu

namespace ItchParserV2

open Hdl

/-- The messages of a packet: all but the last one end with a beat. -/
structure Packet where
  messages : List ItchMsg
  last : ItchMsg
  aligned : ∀ m ∈ messages, m.encode.length % 8 = 0

namespace Packet

/-- All messages. -/
def all (p : Packet) : List ItchMsg := p.messages ++ [p.last]

/-- The bytes of the packet. -/
def encode (p : Packet) : List Byte := p.all.flatMap ItchMsg.encode

end Packet

/-- Beats that bring packets one after the other. -/
inductive Brings : List ItchBeat → List Packet → Prop where
  | nil : Brings [] []
  | cons (bs bs' : List ItchBeat) (p : Packet) (ps : List Packet)
      (h : Words bs p.encode) (hs : Brings bs' ps) : Brings (bs ++ bs') (p :: ps)

section Feed

variable {s : ItchParserV2} {bs : List ItchBeat}

theorem feed_whole_packet (hst : s.state = .sIdle) (p : Packet) (h : Words bs p.encode) :
    (feed take s bs).1.state = .sIdle ∧ (feed take s bs).2 = p.all.flatMap ItchMsg.pulse := by
  have hwords : Words bs (p.messages.flatMap ItchMsg.encode ++ p.last.encode) := by
    rwa [Packet.encode, Packet.all, List.flatMap_append, List.flatMap_singleton] at h
  obtain ⟨hidle, hout⟩ := feed_packet p.aligned hst (by simp [ItchMsg.encode]) (List.prefix_refl _)
    (.inl rfl) hwords
  refine ⟨hidle, ?_⟩
  rw [hout, if_pos rfl, Packet.all, List.flatMap_append, List.flatMap_singleton]

theorem feed_packets {ps : List Packet} (hst : s.state = .sIdle) (h : Brings bs ps) :
    (feed take s bs).2 = (ps.flatMap Packet.all).flatMap ItchMsg.pulse := by
  induction h generalizing s with
  | nil => rfl
  | cons bs bs' p ps hw hs ih =>
      obtain ⟨hidle, hout⟩ := feed_whole_packet hst p hw
      rw [feed_append, hout, ih hidle, List.flatMap_cons, List.flatMap_append]

/-! ### lengths -/

/-- A beat that begins a frame declares at most 62 bytes. -/
def ShortAt (s : ItchParserV2) (b : ItchBeat) : Prop :=
  s.state = .sIdle → (beatLen b.tdata).toNat ≤ 62

/-- What holds of all but the last, of the first one and of those after it. -/
theorem forall_mem_dropLast_cons {P : α → Prop} {a : α} {l : List α} (h : ∀ x ∈ (a :: l).dropLast, P x) :
    (l ≠ [] → P a) ∧ ∀ x ∈ l.dropLast, P x := by
  cases l with
  | nil => exact ⟨fun hne => absurd rfl hne, fun x hx => absurd hx List.not_mem_nil⟩
  | cons b l =>
      rw [List.dropLast_cons_of_ne_nil (List.cons_ne_nil b l), List.forall_mem_cons] at h
      exact ⟨fun _ => h.1, h.2⟩

section Reading

variable {m : ItchMsg} {ms : List ItchMsg} {r : List Byte} {b : ItchBeat}

/-- The first beat of a message declares its length. -/
theorem Reading.shortAt (h : Reading s m r) (hr : r.take 8 <+: b.lanes) : ShortAt s b := by
  intro hst
  cases h with
  | start =>
      obtain ⟨-, hpre⟩ := agrees_storeFirst s.msgBuf hr (List.take_prefix 6 m.body)
      rw [hpre, toNat_len]
      exact m.fits
  | body c h =>
      rw [h.state] at hst
      cases hst

/-- What is missing of a message, and those after it. -/
theorem Reading.feedAll (h : Reading s m r) (hr : ms ≠ [] → r.length % 8 = 0)
    (halign : ∀ m ∈ ms.dropLast, m.encode.length % 8 = 0)
    (hw : Words bs (r ++ ms.flatMap ItchMsg.encode)) : FeedAll take ShortAt s bs := by
  generalize hx : r ++ ms.flatMap ItchMsg.encode = x at hw
  induction hw generalizing s m r ms with
  | last b x hne hlanes hlast =>
      have hpre : r <+: x := hx ▸ List.prefix_append r _
      exact ⟨h.shortAt ((List.take_prefix 8 r).trans (hpre.trans hlanes)), trivial⟩
  | cons b bs d hlast hw ih =>
      have hpos := List.length_pos_of_ne_nil h.ne_nil
      have hbeat : (r ++ ms.flatMap ItchMsg.encode).take 8 = b.lanes := by
        rw [hx, List.take_left' (length_lanes b)]
      have hrest : (r ++ ms.flatMap ItchMsg.encode).drop 8 = d := by
        rw [hx, List.drop_left' (length_lanes b)]
      refine ⟨h.shortAt (hbeat ▸ (List.prefix_append r _).take 8), ?_⟩
      by_cases hend : r.length ≤ 8
      · -- the message ends with this beat, and the next one begins
        cases ms with
        | nil =>
            rw [List.flatMap_nil, List.append_nil, List.drop_eq_nil_of_le hend] at hrest
            exact absurd hrest.symm hw.ne_nil
        | cons m' ms =>
            have hlen : r.length = 8 := by
              have := hr (List.cons_ne_nil m' ms)
              omega
            rw [List.take_left' hlen] at hbeat
            rw [List.drop_left' hlen] at hrest
            obtain ⟨hst, -⟩ := h.complete (by rw [hbeat])
            obtain ⟨hfirst, hothers⟩ := forall_mem_dropLast_cons halign
            exact ih (Reading.start hst) hfirst hothers hrest
      · rw [List.take_append_of_le_length (by omega)] at hbeat
        rw [List.drop_append_of_le_length (by omega)] at hrest
        rw [← List.take_append_drop 8 r, hbeat] at h
        have hne : r.drop 8 ≠ [] := List.ne_nil_of_length_pos (by rw [List.length_drop]; omega)
        obtain ⟨-, -, hread⟩ := h.more hne
        refine ih (hread hlast) (fun hms => ?_) halign hrest
        have := hr hms
        rw [List.length_drop]
        omega

end Reading

/-- No frame in packets is declared longer than a message can be. -/
theorem feedAll_brings {ps : List Packet} (hst : s.state = .sIdle) (h : Brings bs ps) :
    FeedAll take ShortAt s bs := by
  induction h generalizing s with
  | nil => trivial
  | cons bs bs' p ps hw hs ih =>
      refine feedAll_append.mpr ⟨?_, ih (feed_whole_packet hst p hw).1⟩
      obtain ⟨m, ms, hall⟩ : ∃ m ms, p.all = m :: ms := List.exists_cons_of_ne_nil (by simp [Packet.all])
      have hinit : p.messages = (m :: ms).dropLast := by rw [← hall, Packet.all, List.dropLast_concat]
      obtain ⟨hfirst, hothers⟩ := forall_mem_dropLast_cons fun m hm => p.aligned m (hinit ▸ hm)
      rw [Packet.encode, hall, List.flatMap_cons] at hw
      exact (Reading.start hst).feedAll hfirst hothers hw

end Feed

/-- In `S_IDLE` the parser is where the beats taken have left it. -/
theorem feed_taken_idle (buf : BitVec 6 → BitVec 8) (i : Nat → ItchParserV2In) {n : Nat}
    (h : (run step (started buf) i n).state = .sIdle) :
    (feed take (started buf) (taken (started buf) i n)).1.state = .sIdle := by
  have hvalid : (started buf).ValidInIdle := fun h => absurd h Bool.false_ne_true
  obtain ⟨-, hview, -⟩ := refines.collect (i := i) hvalid n
  have hstart : (started buf).settled = started buf := settled_of_quiet ParserState.noConfusion rfl
  rw [hstart] at hview
  rw [taken, ← hview, settled, if_neg (by rw [h]; decide)]
  exact h

/-- **Packets**: when the beats taken bring packets, the messages are given two cycles later. -/
theorem pulsed_packets (buf : BitVec 6 → BitVec 8) (i : Nat → ItchParserV2In) {n : Nat} {ps : List Packet}
    (h : Brings (taken (started buf) i n) ps) :
    pulsed (started buf) i (n + 2) = (ps.flatMap Packet.all).flatMap ItchMsg.pulse := by
  have hvalid : (started buf).ValidInIdle := fun h => absurd h Bool.false_ne_true
  rw [pulsed_add_two hvalid, pulsed_pending, feed_packets rfl h]

end ItchParserV2

end Lliu
