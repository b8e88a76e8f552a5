import Lliu.ItchParserV2.Messages
import Lliu.MoldUdp64Strip.Payload

/-!
# Lliu.Kc705Top

The ITCH ingress of `kc705_top.sv`: `moldupp64_strip`, the FIFO into the other
clock domain, the byte swap and `itch_parser_v2`.  The FIFO is a module of a
library; the beats the parser takes are those the strip has sent.

The parser looks for a message at the start of a beat only, and the strip cuts
off the last bytes of some datagrams.  Of a datagram whose messages but the last
end with a beat, the last one is lost if it ends in the lower half of one
(`messages_parsed_iff`).
-/

namespace Lliu

namespace Kc705Top

open Hdl

/-! ## the byte swap -/

/-- `itch_300_tdata_swapped`. -/
def itch300TdataSwapped (d : BitVec 64) : BitVec 64 :=
  d.extractLsb' 0 8 ++ d.extractLsb' 8 8 ++ d.extractLsb' 16 8 ++ d.extractLsb' 24 8 ++
    d.extractLsb' 32 8 ++ d.extractLsb' 40 8 ++ d.extractLsb' 48 8 ++ d.extractLsb' 56 8

/-- A beat of the FIFO, as the parser gets it. -/
def swapped (b : Beat) : ItchParserV2.ItchBeat := ⟨itch300TdataSwapped b.tdata, b.tlast⟩

section Swap

variable {b : Beat} {bs : List Beat} {d : List Byte}

theorem beatByte_swapped (d : BitVec 64) {k : Nat} (hk : k < 8) :
    ItchParserV2.beatByte (itch300TdataSwapped d) k = d.extractLsb' (8 * k) 8 := by
  rw [ItchParserV2.beatByte, itch300TdataSwapped]
  interval_cases k <;>
    simp (disch := decide) only [BitVec.extractLsb'_append_eq_of_le,
      BitVec.extractLsb'_append_eq_of_add_le, BitVec.extractLsb'_extractLsb'_of_le,
      BitVec.extractLsb'_eq_self, Nat.reduceMul, Nat.reduceSub]

/-- The parser reads the lanes in the order of the datagram. -/
theorem lanes_swapped (b : Beat) : (swapped b).lanes = (List.range 8).map b.lane :=
  List.map_congr_left fun _ hk => beatByte_swapped b.tdata (List.mem_range.mp hk)

theorem bytes_isPrefix {n : Nat} (hkeep : b.tkeep = lowKeep n) (hn : n ≤ 8) :
    b.bytes <+: (swapped b).lanes := by
  rw [lanes_swapped, Beat.bytes_of_lowKeep hkeep hn]
  exact List.take_prefix n _

theorem words_of_packs (h : Packs bs d) : ItchParserV2.Words (bs.map swapped) d := by
  induction h with
  | last b n hpos hle hkeep hlast =>
      refine .last _ _ (List.ne_nil_of_length_pos ?_) (bytes_isPrefix hkeep hle) hlast
      rw [(Beat.length_of_lowKeep hkeep hle).1]
      exact hpos
  | cons b bs d hkeep hlast h ih =>
      have hlanes : b.bytes = (swapped b).lanes := by rw [lanes_swapped, Beat.bytes_of_full hkeep]; rfl
      rw [hlanes]
      exact .cons _ _ _ hlast ih

end Swap

/-! ## one datagram -/

/-- The payload of a datagram are these messages. -/
structure Contains (d : Datagram) (ms : List ItchParserV2.ItchMsg) : Prop where
  nonempty : ms ≠ []
  payload : d.payload = ms.flatMap ItchParserV2.ItchMsg.encode

/-- The message ends in the lower half of a beat, if it starts with one. -/
def EndsLow (m : ItchParserV2.ItchMsg) : Prop := m.encode.length % 8 ∈ [1, 2, 3, 4]

instance (m : ItchParserV2.ItchMsg) : Decidable (EndsLow m) :=
  inferInstanceAs (Decidable (_ ∈ [1, 2, 3, 4]))

section Datagram

variable {s : ItchParserV2} {d : Datagram} {ms : List ItchParserV2.ItchMsg} {m : ItchParserV2.ItchMsg}
  {bs : List Beat}

/-- A message of a supported type has more than one beat. -/
theorem pulse_of_short (h : m.encode.length ≤ 8) : m.pulse = [] := by
  rw [ItchParserV2.ItchMsg.pulse, if_neg]
  intro hs
  have hext : 19 ≤ m.body.length := le_trans ItchParserV2.le_extent (m.complete hs)
  rw [m.length_encode] at h
  omega

theorem length_flatMap_encode (halign : ∀ m ∈ ms, m.encode.length % 8 = 0) :
    (ms.flatMap ItchParserV2.ItchMsg.encode).length % 8 = 0 := by
  induction ms with
  | nil => rfl
  | cons m ms ih =>
      have hm := halign m List.mem_cons_self
      have hms := ih fun m' hm' => halign m' (List.mem_cons_of_mem m hm')
      rw [List.flatMap_cons, List.length_append]
      omega

/-- What is cut off is the part of the last message in its last beat. -/
theorem cut_eq (hpay : d.payload = (ms ++ [m]).flatMap ItchParserV2.ItchMsg.encode)
    (halign : ∀ m ∈ ms, m.encode.length % 8 = 0) : MoldUdp64Strip.cut d =
      if EndsLow m ∧ 4 < (ms.flatMap ItchParserV2.ItchMsg.encode).length + m.encode.length then
        m.encode.length % 8 else 0 := by
  have hA := length_flatMap_encode halign
  have hlen := congrArg List.length hpay
  have hlong := d.long
  rw [Datagram.payload, List.length_drop, List.flatMap_append, List.flatMap_singleton,
    List.length_append] at hlen
  simp only [MoldUdp64Strip.cut, MoldUdp64Strip.lastHalf, EndsLow, List.mem_cons, List.not_mem_nil,
    or_false]
  split_ifs <;> omega

/-- **One datagram**: the messages that the parser reads of it. -/
theorem feed_forwarded (hpay : d.payload = (ms ++ [m]).flatMap ItchParserV2.ItchMsg.encode)
    (halign : ∀ m ∈ ms, m.encode.length % 8 = 0)
    (hc : MoldUdp64Strip.Carries bs (MoldUdp64Strip.forwarded d)) (hst : s.state = .sIdle) :
    (feed ItchParserV2.take s (bs.map swapped)).1.state = .sIdle ∧
    (feed ItchParserV2.take s (bs.map swapped)).2 =
      ms.flatMap ItchParserV2.ItchMsg.pulse ++ if EndsLow m then [] else m.pulse := by
  have hE : 3 ≤ m.encode.length := Nat.add_le_add_right m.nonempty 2
  have hcut := cut_eq hpay halign
  have hforw : MoldUdp64Strip.forwarded d = ms.flatMap ItchParserV2.ItchMsg.encode ++
      m.encode.take (m.encode.length - MoldUdp64Strip.cut d) := by
    have hle : MoldUdp64Strip.cut d ≤ m.encode.length := by
      rw [hcut]
      split_ifs <;> omega
    rw [MoldUdp64Strip.forwarded, hpay, List.flatMap_append, List.flatMap_singleton,
      List.length_append, Nat.add_sub_assoc hle, List.take_length_add_append]
  have hne : MoldUdp64Strip.forwarded d ≠ [] := by
    refine List.ne_nil_of_length_pos ?_
    rw [hforw, List.length_append, List.length_take, hcut]
    split_ifs with h
    · simp only [EndsLow, List.mem_cons, List.not_mem_nil, or_false] at h
      omega
    · omega
  have hw := words_of_packs (hc.packs hne)
  rw [hforw] at hw hne
  by_cases hx : m.encode.take (m.encode.length - MoldUdp64Strip.cut d) = []
  · -- nothing is left of the last message, so the one before it is the last
    have hshort : EndsLow m ∧ m.encode.length ≤ 8 := by
      have hlen := congrArg List.length hx
      rw [List.length_take, List.length_nil, hcut] at hlen
      split_ifs at hlen with h
      · exact ⟨h.1, by omega⟩
      · omega
    rw [hx, List.append_nil] at hw hne
    obtain rfl | ⟨ms', m', rfl⟩ := List.eq_nil_or_concat ms
    · exact absurd rfl hne
    · rw [List.concat_eq_append] at hw halign ⊢
      rw [List.flatMap_append, List.flatMap_singleton] at hw
      obtain ⟨hst', hout⟩ := ItchParserV2.feed_packet (m := m')
        (fun a ha => halign a (List.mem_append_left _ ha)) hst
        (by simp [ItchParserV2.ItchMsg.encode]) (List.prefix_refl _) (Or.inl rfl) hw
      rw [hout, if_pos rfl, if_pos hshort.1, List.flatMap_append, List.flatMap_singleton,
        List.append_nil]
      exact ⟨hst', rfl⟩
  · have hend : m.encode.take (m.encode.length - MoldUdp64Strip.cut d) = m.encode ∨
        (m.encode.take (m.encode.length - MoldUdp64Strip.cut d)).length % 8 = 0 := by
      rw [List.take_eq_self_iff, List.length_take, hcut]
      simp only [EndsLow, List.mem_cons, List.not_mem_nil, or_false]
      split_ifs <;> omega
    obtain ⟨hst', hout⟩ := ItchParserV2.feed_packet halign hst hx (List.take_prefix _ _) hend hw
    have hself : m.encode.take (m.encode.length - MoldUdp64Strip.cut d) = m.encode ↔
        MoldUdp64Strip.cut d = 0 := by
      rw [List.take_eq_self_iff]
      omega
    rw [hout]
    refine ⟨hst', ?_⟩
    by_cases hzero : MoldUdp64Strip.cut d = 0
    · rw [if_pos (hself.mpr hzero)]
      by_cases hlow : EndsLow m
      · rw [if_pos hlow, pulse_of_short]
        rw [hcut] at hzero
        simp only [EndsLow, List.mem_cons, List.not_mem_nil, or_false] at hlow hzero
        split_ifs at hzero <;> omega
      · rw [if_neg hlow]
    · have hlow : EndsLow m := by
        by_contra hlow
        exact hzero (hcut.trans (if_neg fun h => hlow h.1))
      rw [if_neg fun h => hzero (hself.mp h), if_pos hlow]

end Datagram

/-! ## a run -/

/-- The pulses that the messages of a datagram shall lead to. -/
def wanted (ms : List ItchParserV2.ItchMsg) : List ItchParserV2.Fields :=
  ms.flatMap ItchParserV2.ItchMsg.pulse

/-- The pulses that they lead to. -/
def read (ms : List ItchParserV2.ItchMsg) : List ItchParserV2.Fields :=
  wanted ms.dropLast ++ ms.getLast?.toList.flatMap fun m => if EndsLow m then [] else m.pulse

section Run

variable {ms ms' : List ItchParserV2.ItchMsg} {m : ItchParserV2.ItchMsg} {s : ItchParserV2}

theorem read_concat : read (ms ++ [m]) = wanted ms ++ if EndsLow m then [] else m.pulse := by
  simp [read]

theorem wanted_concat : wanted (ms ++ [m]) = wanted ms ++ m.pulse := by simp [wanted]

theorem read_isPrefix (ms : List ItchParserV2.ItchMsg) : read ms <+: wanted ms := by
  obtain rfl | ⟨ms, m, rfl⟩ := List.eq_nil_or_concat ms
  · exact List.prefix_refl _
  · rw [List.concat_eq_append, read_concat, wanted_concat, List.prefix_append_right_inj]
    split
    · exact List.nil_prefix
    · exact List.prefix_refl _

/-- Only a message of a supported type is missed. -/
theorem read_eq_iff (ms : List ItchParserV2.ItchMsg) : read ms = wanted ms ↔
    ∀ m ∈ ms.getLast?, ItchParserV2.supported m.type = true → ¬ EndsLow m := by
  obtain rfl | ⟨ms, m, rfl⟩ := List.eq_nil_or_concat ms
  · simp [read, wanted]
  · rw [List.concat_eq_append, read_concat, wanted_concat, List.append_right_inj]
    simp only [List.getLast?_concat, Option.mem_some_iff, forall_eq', ItchParserV2.ItchMsg.pulse]
    by_cases hlow : EndsLow m <;> by_cases hs : ItchParserV2.supported m.type = true <;>
      simp [hlow, hs]

/-- **Datagram after datagram**: the parser starts each one afresh. -/
theorem feed_frames {fs : List (List Beat)} {ds : List Datagram}
    {mss : List (List ItchParserV2.ItchMsg)}
    (hc : List.Forall₂ MoldUdp64Strip.Carries fs (ds.map MoldUdp64Strip.forwarded))
    (hm : List.Forall₂ Contains ds mss)
    (halign : ∀ ms ∈ mss, ∀ m ∈ ms.dropLast, m.encode.length % 8 = 0) (hst : s.state = .sIdle) :
    (feed ItchParserV2.take s (fs.flatten.map swapped)).2 = (mss.map read).flatten := by
  induction hm generalizing fs s with
  | nil =>
      cases hc
      rfl
  | @cons d ms ds mss hd hm ih =>
      cases hc with
      | @cons f _ fs _ hf hc =>
          obtain rfl | ⟨ms, m, rfl⟩ := List.eq_nil_or_concat ms
          · exact absurd rfl hd.nonempty
          · rw [List.concat_eq_append] at hd halign ⊢
            obtain ⟨hst', hout⟩ := feed_forwarded hd.payload
              (fun a ha => halign _ List.mem_cons_self a (by simpa using ha)) hf hst
            rw [List.flatten_cons, List.map_append, feed_append, hout,
              ih hc (fun ms' h' => halign ms' (List.mem_cons_of_mem _ h')) hst', List.map_cons,
              List.flatten_cons, read_concat, wanted]

/-- **Messages of a datagram**: once the strip has taken some datagrams and has
nothing more to send, and the parser has taken what it has sent and has nothing
more to give, and all messages but the last of each datagram in order end with a
beat, `fields_valid` has pulsed for exactly the supported messages of these
datagrams, in their order and with their fields, if and only if no last message
of a supported type ends in the lower half of a beat. -/
theorem messages_parsed_iff (i : Nat → MoldUdp64StripIn) (n : Nat) (j : Nat → ItchParserV2In) (k : Nat)
    (ds : List Datagram) (mss : List (List ItchParserV2.ItchMsg))
    (htaken : PacksAll (MoldUdp64Strip.taken .reset i n) (ds.map Datagram.bytes))
    (hidle : (MoldUdp64Strip.trace i n).mTvalid (i n) = false)
    (hfifo : ItchParserV2.taken .reset j k = (MoldUdp64Strip.sent .reset i n).map swapped)
    (hgiven : (run ItchParserV2.step .reset j k).pending = [])
    (hm : List.Forall₂ Contains (Datagram.inOrder 1 ds) mss)
    (halign : ∀ ms ∈ mss, ∀ m ∈ ms.dropLast, m.encode.length % 8 = 0) :
    ItchParserV2.pulsed .reset j k = (mss.map wanted).flatten ↔
      ∀ ms ∈ mss, ∀ m ∈ ms.getLast?, ItchParserV2.supported m.type = true → ¬ EndsLow m := by
  obtain ⟨fs, hsent, hc⟩ := MoldUdp64Strip.sent_eq htaken hidle
  obtain ⟨-, -, hout⟩ :=
    ItchParserV2.refines.collect (s := .reset) (i := j) ItchParserV2.validInIdle_reset k
  have hpulsed : ItchParserV2.pulsed .reset j k = (mss.map read).flatten := by
    rw [hgiven, List.append_nil] at hout
    rw [← feed_frames (s := .reset) hc hm halign rfl, ← hsent, ← hfifo]
    exact hout
  rw [hpulsed, flatten_eq_iff_of_isPrefix read_isPrefix]
  simp only [read_eq_iff]

end Run

/-! ## Add Orders in one datagram -/

/-- An Add Order for ten shares at the given price. -/
def addOrder (ref price : Byte) : ItchParserV2.ItchMsg where
  body := [0x41, 0, 0, 0, 0, 0, 0, 0, 0, 0, 0, 0, 0, 0, 0, 0, 0, 0, ref, 0x42, 0, 0, 0, 10,
    0x41, 0x41, 0x50, 0x4C, 0x20, 0x20, 0x20, 0x20, 0, 0, 0, price]
  nonempty := Nat.succ_pos _
  fits := show 36 ≤ 62 by decide
  complete := fun _ => le_refl 36

/-- The first datagram of a session, with these messages. -/
def sessionStart (count : Byte) (ms : List ItchParserV2.ItchMsg) : Datagram where
  bytes := [0x20, 0x20, 0x20, 0x20, 0x20, 0x20, 0x20, 0x20, 0x20, 0x20,
    0, 0, 0, 0, 0, 0, 0, 1, 0, count] ++ ms.flatMap ItchParserV2.ItchMsg.encode
  long := by rw [List.length_append]; exact Nat.le_add_right 20 _

/-- Beats offered to the parser in successive cycles, with gaps. -/
def offered (bs : List (Option ItchParserV2.ItchBeat)) (k : Nat) : ItchParserV2In :=
  match bs.getD k none with
  | none => ⟨0, false, false, false⟩
  | some b => ItchParserV2.ready b

/-- One Add Order: the six bytes in its last beat are sent. -/
def oneAdd : Datagram := sessionStart 1 [addOrder 1 100]

/-- Two Add Orders: the second starts in the last beat of the first. -/
def twoAdds : Datagram := sessionStart 2 [addOrder 1 100, addOrder 2 101]

theorem contains_sessionStart {count : Byte} {ms : List ItchParserV2.ItchMsg} (h : ms ≠ []) :
    Contains (sessionStart count ms) ms := ⟨h, rfl⟩

/-- The beats of a datagram offered to the strip. -/
def stripIn (n : Nat) (d : Datagram) : Nat → MoldUdp64StripIn :=
  MoldUdp64Strip.offered (toBeats n d.bytes)

/-- The beats that the strip sends, offered to the parser with a gap after the
first five. -/
def parserIn (n : Nat) (d : Datagram) : Nat → ItchParserV2In :=
  let bs := (MoldUdp64Strip.sent .reset (stripIn n d) (n + 2)).map swapped
  offered ((bs.take 5).map some ++ none :: (bs.drop 5).map some)

theorem messages_parsed_iff_oneAdd :
    PacksAll (MoldUdp64Strip.taken .reset (stripIn 7 oneAdd) 9) ([oneAdd].map Datagram.bytes) ∧
    (ItchParserV2.pulsed .reset (parserIn 7 oneAdd) 8 = ([[addOrder 1 100]].map wanted).flatten ↔
      ∀ ms ∈ [[addOrder 1 100]], ∀ m ∈ ms.getLast?,
        ItchParserV2.supported m.type = true → ¬ EndsLow m) := by
  have htaken : MoldUdp64Strip.taken .reset (stripIn 7 oneAdd) 9 = toBeats 7 oneAdd.bytes := by
    decide +kernel
  have hpacks : PacksAll (MoldUdp64Strip.taken .reset (stripIn 7 oneAdd) 9) [oneAdd.bytes] := by
    rw [htaken]
    exact (packs_toBeats 7 oneAdd.bytes (by decide +kernel) (by decide +kernel)).packsAll
  have horder : Datagram.inOrder 1 [oneAdd] = [oneAdd] :=
    if_pos (show oneAdd.seqNum = 1 by decide +kernel)
  exact ⟨hpacks, messages_parsed_iff (stripIn 7 oneAdd) 9 (parserIn 7 oneAdd) 8 [oneAdd]
    [[addOrder 1 100]] hpacks (by decide +kernel) (by decide +kernel) (by decide +kernel)
    (by rw [horder]; exact .cons (contains_sessionStart (List.cons_ne_nil _ _)) .nil) (by simp)⟩

/-- Of two Add Orders in one datagram the second is lost. -/
theorem second_message_lost :
    PacksAll (MoldUdp64Strip.taken .reset (stripIn 11 twoAdds) 13) ([twoAdds].map Datagram.bytes) ∧
    (MoldUdp64Strip.trace (stripIn 11 twoAdds) 13).mTvalid (stripIn 11 twoAdds 13) = false ∧
    ItchParserV2.taken .reset (parserIn 11 twoAdds) 14 =
      (MoldUdp64Strip.sent .reset (stripIn 11 twoAdds) 13).map swapped ∧
    (run ItchParserV2.step .reset (parserIn 11 twoAdds) 14).pending = [] ∧
    List.Forall₂ Contains (Datagram.inOrder 1 [twoAdds]) [[addOrder 1 100, addOrder 2 101]] ∧
    ItchParserV2.pulsed .reset (parserIn 11 twoAdds) 14 = [(addOrder 1 100).fields] ∧
    ItchParserV2.pulsed .reset (parserIn 11 twoAdds) 14 ≠
      ([[addOrder 1 100, addOrder 2 101]].map wanted).flatten := by
  have htaken : MoldUdp64Strip.taken .reset (stripIn 11 twoAdds) 13 = toBeats 11 twoAdds.bytes := by
    decide +kernel
  have horder : Datagram.inOrder 1 [twoAdds] = [twoAdds] :=
    if_pos (show twoAdds.seqNum = 1 by decide +kernel)
  have hpulsed : ItchParserV2.pulsed .reset (parserIn 11 twoAdds) 14 = [(addOrder 1 100).fields] := by
    decide +kernel
  refine ⟨?_, by decide +kernel, by decide +kernel, by decide +kernel, ?_, hpulsed, ?_⟩
  · rw [htaken]
    exact (packs_toBeats 11 twoAdds.bytes (by decide +kernel) (by decide +kernel)).packsAll
  · rw [horder]
    exact .cons (contains_sessionStart (List.cons_ne_nil _ _)) .nil
  · rw [hpulsed]
    decide +kernel

end Kc705Top

end Lliu
