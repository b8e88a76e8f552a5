import Lliu.ItchParserV2.Frames

/-!
# Lliu.ItchParserV2.RoundTrip

A message of any of the supported types, sent with gaps and under backpressure after
whatever ended with `tlast`, comes out as the fields that were encoded.

The lengths that the parser lists for `'E'`, `'C'` and `'P'` are a byte less than the
fields of these types take.  A frame may declare the one or the other: it has as many
beats as that takes, and the bytes of the message that these have room for.
-/

namespace Lliu

namespace ItchParserV2

open Hdl

/-! ## messages -/

/-- The bytes of a value, the most significant one first. -/
def bigEndian (n : Nat) (v : BitVec (8 * n)) : List Byte :=
  (List.range n).map fun k => v.extractLsb' (8 * (n - 1 - k)) 8

/-- The fields that all the messages have. -/
structure ItchHeader where
  stockLocate : BitVec 16
  trackingNumber : BitVec 16
  timestamp : BitVec 48

/-- The messages of the supported types. -/
inductive ItchMessage where
  | addOrder (h : ItchHeader) (orderRef : OrderRef) (side : Byte) (shares : BitVec 32)
      (stock : BitVec 64) (price : BitVec 32)
  | addOrderMpid (h : ItchHeader) (orderRef : OrderRef) (side : Byte) (shares : BitVec 32)
      (stock : BitVec 64) (price : BitVec 32) (attribution : BitVec 32)
  | orderCancel (h : ItchHeader) (orderRef : OrderRef) (shares : BitVec 32)
  | orderDelete (h : ItchHeader) (orderRef : OrderRef)
  | orderReplace (h : ItchHeader) (orderRef newOrderRef : OrderRef) (shares price : BitVec 32)
  | orderExec (h : ItchHeader) (orderRef : OrderRef) (shares : BitVec 32) (matchNumber : BitVec 64)
  | orderExecPx (h : ItchHeader) (orderRef : OrderRef) (shares : BitVec 32)
      (matchNumber : BitVec 64) (printable : Byte) (price : BitVec 32)
  | trade (h : ItchHeader) (orderRef : OrderRef) (side : Byte) (shares : BitVec 32)
      (stock : BitVec 64) (price : BitVec 32) (matchNumber : BitVec 64)

/-- The first 19 bytes. -/
def ItchHeader.layout (h : ItchHeader) (type : BitVec 8) (orderRef : OrderRef) : List Byte :=
  type :: (bigEndian 2 h.stockLocate ++ bigEndian 2 h.trackingNumber ++ bigEndian 6 h.timestamp ++
    bigEndian 8 orderRef)

namespace ItchMessage

/-- The bytes of a message. -/
def layout : ItchMessage → List Byte
  | addOrder h orderRef side shares stock price =>
      h.layout itchMsgAddOrder orderRef ++ [side] ++ bigEndian 4 shares ++ bigEndian 8 stock ++
        bigEndian 4 price
  | addOrderMpid h orderRef side shares stock price attribution =>
      h.layout itchMsgAddOrderMpid orderRef ++ [side] ++ bigEndian 4 shares ++ bigEndian 8 stock ++
        bigEndian 4 price ++ bigEndian 4 attribution
  | orderCancel h orderRef shares => h.layout itchMsgOrderCancel orderRef ++ bigEndian 4 shares
  | orderDelete h orderRef => h.layout itchMsgOrderDelete orderRef
  | orderReplace h orderRef newOrderRef shares price =>
      h.layout itchMsgOrderReplace orderRef ++ bigEndian 8 newOrderRef ++ bigEndian 4 shares ++
        bigEndian 4 price
  | orderExec h orderRef shares matchNumber =>
      h.layout itchMsgOrderExec orderRef ++ bigEndian 4 shares ++ bigEndian 8 matchNumber
  | orderExecPx h orderRef shares matchNumber printable price =>
      h.layout itchMsgOrderExecPx orderRef ++ bigEndian 4 shares ++ bigEndian 8 matchNumber ++
        [printable] ++ bigEndian 4 price
  | trade h orderRef side shares stock price matchNumber =>
      h.layout itchMsgTrade orderRef ++ [side] ++ bigEndian 4 shares ++ bigEndian 8 stock ++
        bigEndian 4 price ++ bigEndian 8 matchNumber

/-- The body lengths that the parser lists. -/
def listedLen : ItchMessage → Nat
  | addOrder .. => 36
  | addOrderMpid .. => 40
  | orderCancel .. => 23
  | orderDelete .. => 19
  | orderReplace .. => 35
  | orderExec .. => 30
  | orderExecPx .. => 35
  | trade .. => 43

/-- The outputs of a message, zero for what its type does not have. -/
def outputs : ItchMessage → Fields
  | addOrder _ orderRef side shares stock price =>
      ⟨itchMsgAddOrder, orderRef, 0, price, shares, side == 0x42#8, stock⟩
  | addOrderMpid _ orderRef side shares stock price _ =>
      ⟨itchMsgAddOrderMpid, orderRef, 0, price, shares, side == 0x42#8, stock⟩
  | orderCancel _ orderRef shares => ⟨itchMsgOrderCancel, orderRef, 0, 0, shares, false, 0⟩
  | orderDelete _ orderRef => ⟨itchMsgOrderDelete, orderRef, 0, 0, 0, false, 0⟩
  | orderReplace _ orderRef newOrderRef shares price =>
      ⟨itchMsgOrderReplace, orderRef, newOrderRef, price, shares, false, 0⟩
  | orderExec _ orderRef shares _ => ⟨itchMsgOrderExec, orderRef, 0, 0, shares, false, 0⟩
  | orderExecPx _ orderRef shares _ _ price =>
      ⟨itchMsgOrderExecPx, orderRef, 0, price, shares, false, 0⟩
  | trade _ orderRef side shares stock price _ =>
      ⟨itchMsgTrade, orderRef, 0, price, shares, side == 0x42#8, stock⟩

end ItchMessage

/-! ### decoding -/

section Decode

variable {m : ItchMessage} {buf : BitVec 6 → BitVec 8} {f : List ItchBeat}

theorem extract_append (v : BitVec w) (a n k : Nat) :
    v.extractLsb' (a + k) n ++ v.extractLsb' a k = v.extractLsb' a (n + k) := by
  ext i hi
  simp only [BitVec.getElem_append, BitVec.getElem_extractLsb']
  split
  · rfl
  · congr 1
    omega

/-- A 32-bit field is read from where its bytes are. -/
theorem be32_at {l : List Byte} {v : BitVec 32} (k : BitVec 6) (hk : k.toNat + 4 ≤ 64)
    (h : (l.drop k.toNat).take 4 = bigEndian 4 v) : be32 (fun a => l.getD a.toNat 0) k = v := by
  have hbyte : ∀ j, j < 4 → l.getD (k + BitVec.ofNat 6 j).toNat 0 = v.extractLsb' (8 * (3 - j)) 8 :=
    fun j hj => by
      have hget := congrArg (fun l => l.getD j 0) h
      have haddr : (k + BitVec.ofNat 6 j).toNat = k.toNat + j := by
        rw [BitVec.toNat_add, BitVec.toNat_ofNat]
        omega
      rw [haddr]
      simpa [List.getD_eq_getElem?_getD, List.getElem?_take_of_lt hj, bigEndian, hj] using hget
  have h0 : l.getD k.toNat 0 = v.extractLsb' 24 8 := by simpa using hbyte 0 (by omega)
  have h1 : l.getD (k + 1).toNat 0 = v.extractLsb' 16 8 := hbyte 1 (by omega)
  have h2 : l.getD (k + 2).toNat 0 = v.extractLsb' 8 8 := hbyte 2 (by omega)
  have h3 : l.getD (k + 3).toNat 0 = v.extractLsb' 0 8 := hbyte 3 (by omega)
  rw [be32, h0, h1, h2, h3, extract_append v 16 8 8, extract_append v 8 16 8, extract_append v 0 24 8]
  exact BitVec.extractLsb'_eq_self

/-- The two halves of eight bytes. -/
theorem bigEndian_halves (v : BitVec 64) :
    bigEndian 8 v = bigEndian 4 (v.extractLsb' 32 32) ++ bigEndian 4 (v.extractLsb' 0 32) := by
  have hsub : ∀ a k, k + 8 ≤ 32 → (v.extractLsb' a 32).extractLsb' k 8 = v.extractLsb' (a + k) 8 :=
    fun a k hk => by
      ext j hj
      simp only [BitVec.getElem_extractLsb', BitVec.getLsbD_extractLsb']
      rw [decide_eq_true (by omega), Bool.true_and, Nat.add_assoc]
  unfold bigEndian
  rw [show List.range 8 = List.range 4 ++ (List.range 4).map (4 + ·) from rfl, List.map_append,
    List.map_map]
  congr 1 <;> refine List.map_congr_left fun k hk => ?_ <;> rw [List.mem_range] at hk <;>
    rw [hsub _ _ (by omega)]
  · rw [show 32 + 8 * (4 - 1 - k) = 8 * (8 - 1 - k) by omega]
  · rw [Function.comp_apply, show 0 + 8 * (4 - 1 - k) = 8 * (8 - 1 - (4 + k)) by omega]

theorem be64_at {l : List Byte} {v : BitVec 64} (k : BitVec 6) (hk : k.toNat + 8 ≤ 64)
    (h : (l.drop k.toNat).take 8 = bigEndian 8 v) : be64 (fun a => l.getD a.toNat 0) k = v := by
  have haddr : (k + 4).toNat = k.toNat + 4 := by
    rw [BitVec.toNat_add, show (4 : BitVec 6).toNat = 4 from rfl]
    omega
  have hlen : ∀ w : BitVec 32, (bigEndian 4 w).length = 4 := fun w => by simp [bigEndian]
  rw [bigEndian_halves, show 8 = 4 + 4 from rfl, List.take_add, List.drop_drop, ← haddr] at h
  obtain ⟨hhi, hlo⟩ := List.append_inj' h (by
    have := congrArg List.length h
    simp only [List.length_append, hlen, List.length_take, List.length_drop] at this ⊢
    omega)
  rw [be64, be32_at k (by omega) hhi, be32_at (k + 4) (by omega) hlo, extract_append v 0 32 32]
  exact BitVec.extractLsb'_eq_self

/-! ### the outputs of each type -/

theorem fieldsOf_stock {t : BitVec 8} (ht : buf 0 = t) (hc : carriesStock t = true) : fieldsOf buf =
    ⟨t, be64 buf 11, 0, be32 buf 32, be32 buf 20, buf 19 == 0x42#8, be64 buf 24⟩ := by
  have hr : (t == itchMsgOrderReplace) = false := by
    by_contra h
    rw [Bool.not_eq_false, beq_iff_eq] at h
    subst h
    cases hc
  rw [fieldsOf, priceOf, sharesOf, sideOf, stockOf, ht, hc, hr]
  rfl

theorem fieldsOf_shares {t : BitVec 8} (ht : buf 0 = t)
    (h : t = itchMsgOrderCancel ∨ t = itchMsgOrderExec) :
    fieldsOf buf = ⟨t, be64 buf 11, 0, 0, be32 buf 19, false, 0⟩ := by
  rw [fieldsOf, priceOf, sharesOf, sideOf, stockOf, ht]
  obtain rfl | rfl := h <;> rfl

theorem fieldsOf_execPx (ht : buf 0 = itchMsgOrderExecPx) :
    fieldsOf buf = ⟨itchMsgOrderExecPx, be64 buf 11, 0, be32 buf 32, be32 buf 19, false, 0⟩ := by
  rw [fieldsOf, priceOf, sharesOf, sideOf, stockOf, ht]
  rfl

theorem fieldsOf_delete (ht : buf 0 = itchMsgOrderDelete) :
    fieldsOf buf = ⟨itchMsgOrderDelete, be64 buf 11, 0, 0, 0, false, 0⟩ := by
  rw [fieldsOf, priceOf, sharesOf, sideOf, stockOf, ht]
  rfl

theorem fieldsOf_replace (ht : buf 0 = itchMsgOrderReplace) : fieldsOf buf =
    ⟨itchMsgOrderReplace, be64 buf 11, be64 buf 19, be32 buf 31, be32 buf 27, false, 0⟩ := by
  rw [fieldsOf, priceOf, sharesOf, sideOf, stockOf, ht]
  rfl

/-- The messages with a stock differ in what follows the price only. -/
theorem fieldsOf_stock_layout (h : ItchHeader) {t : BitVec 8} (hc : carriesStock t = true)
    (orderRef : OrderRef) (side : Byte) (shares : BitVec 32) (stock : BitVec 64)
    (price : BitVec 32) (x : List Byte) :
    fieldsOf (fun a => (h.layout t orderRef ++ [side] ++ bigEndian 4 shares ++ bigEndian 8 stock ++
      bigEndian 4 price ++ x).getD a.toNat 0) =
      ⟨t, orderRef, 0, price, shares, side == 0x42#8, stock⟩ := by
  rw [fieldsOf_stock rfl hc, be64_at (v := orderRef) 11 (by decide) rfl,
    be32_at (v := price) 32 (by decide) rfl, be32_at (v := shares) 20 (by decide) rfl,
    be64_at (v := stock) 24 (by decide) rfl]
  rfl

/-- **Decoding**: the fields of the bytes of a message are those encoded. -/
theorem fieldsOf_layout (m : ItchMessage) :
    fieldsOf (fun a => m.layout.getD a.toNat 0) = m.outputs := by
  cases m with
  | addOrder h orderRef side shares stock price =>
      exact fieldsOf_stock_layout h rfl orderRef side shares stock price []
  | addOrderMpid h orderRef side shares stock price attribution =>
      exact fieldsOf_stock_layout h rfl orderRef side shares stock price (bigEndian 4 attribution)
  | orderCancel h orderRef shares =>
      rw [fieldsOf_shares rfl (Or.inl rfl), be64_at (v := orderRef) 11 (by decide) rfl,
        be32_at (v := shares) 19 (by decide) rfl]
      rfl
  | orderDelete h orderRef =>
      rw [fieldsOf_delete rfl, be64_at (v := orderRef) 11 (by decide) rfl]
      rfl
  | orderReplace h orderRef newOrderRef shares price =>
      rw [fieldsOf_replace rfl, be64_at (v := orderRef) 11 (by decide) rfl,
        be64_at (v := newOrderRef) 19 (by decide) rfl, be32_at (v := price) 31 (by decide) rfl,
        be32_at (v := shares) 27 (by decide) rfl]
      rfl
  | orderExec h orderRef shares matchNumber =>
      rw [fieldsOf_shares rfl (Or.inr rfl), be64_at (v := orderRef) 11 (by decide) rfl,
        be32_at (v := shares) 19 (by decide) rfl]
      rfl
  | orderExecPx h orderRef shares matchNumber printable price =>
      rw [fieldsOf_execPx rfl, be64_at (v := orderRef) 11 (by decide) rfl,
        be32_at (v := price) 32 (by decide) rfl, be32_at (v := shares) 19 (by decide) rfl]
      rfl
  | trade h orderRef side shares stock price matchNumber =>
      exact fieldsOf_stock_layout h rfl orderRef side shares stock price (bigEndian 8 matchNumber)

end Decode

/-! ## frames of messages -/

/-- `tlast` on the last beat of a frame only. -/
structure OnePacket (f : List ItchBeat) : Prop where
  last : ended f = true
  notLast : ∀ a ∈ f.dropLast, a.tlast = false

/-- A frame carries a message. -/
structure Encodes (m : ItchMessage) (f : List ItchBeat) : Prop where
  len : lenOf f = m.listedLen ∨ lenOf f = m.layout.length
  beats : f.length = (lenOf f + 2 + 7) / 8
  bytes : m.layout.take (body f).length <+: body f
  packet : OnePacket f

/-- A frame is cut off by an early `tlast`. -/
structure CutOff (f : List ItchBeat) : Prop where
  short : 8 * f.length < lenOf f + 2
  packet : OnePacket f

section Frames

variable {m : ItchMessage} {f g : List ItchBeat} {s : ItchParserV2} {out : List Fields} {b : ItchBeat}

theorem open_of_lt (hg : ∀ a ∈ g, a.tlast = false) (hlen : 8 * g.length < lenOf g + 2) :
    Open closes g := by
  induction g using List.reverseRecOn with
  | nil => exact .nil
  | append_singleton g b ih =>
      rw [List.length_append, List.length_singleton] at hlen
      refine .concat g b ?_ ?_
      · by_cases hne : g = []
        · rw [hne]
          exact .nil
        · rw [lenOf_concat hne] at hlen
          exact ih (fun a ha => hg a (List.mem_append_left _ ha)) (by omega)
      · have hb : b.tlast = false := hg b (by simp)
        simp [closes, ended_concat, hb, complete]
        omega

/-- A frame with `tlast` on its last beat, which does not go past its length, is whole. -/
theorem OnePacket.whole (h : OnePacket f) (hlen : 8 * f.length < lenOf f + 10) : Whole closes f := by
  obtain ⟨hlast, hnot⟩ := h
  cases f using List.reverseRecOn with
  | nil => cases hlast
  | append_singleton g b =>
      refine .concat g b ?_ (by rw [closes, hlast, Bool.or_true])
      rw [List.dropLast_concat] at hnot
      by_cases hne : g = []
      · rw [hne]
        exact .nil
      · rw [lenOf_concat hne, List.length_append, List.length_singleton] at hlen
        exact open_of_lt hnot (by omega)

theorem Encodes.whole (h : Encodes m f) : Whole closes f :=
  h.packet.whole (by have := h.beats; omega)

theorem CutOff.whole (h : CutOff f) : Whole closes f := h.packet.whole (by have := h.short; omega)

/-- Extent, length and listed length of a message. -/
theorem bounds_of {e n l : Nat} (he : extent (m.layout.getD 0 0) = e) (hn : m.layout.length = n)
    (hl : m.listedLen = l) (h : e ≤ n ∧ n ≤ 62 ∧ e + 2 ≤ 8 * ((l + 2 + 7) / 8) ∧ l ≤ 62) :
    extent (m.layout.getD 0 0) ≤ m.layout.length ∧ m.layout.length ≤ 62 ∧
    extent (m.layout.getD 0 0) + 2 ≤ 8 * ((m.listedLen + 2 + 7) / 8) ∧ m.listedLen ≤ 62 := by
  rw [he, hn, hl]
  exact h

/-- The beats for the listed length have room for the fields. -/
theorem layout_bounds (m : ItchMessage) :
    extent (m.layout.getD 0 0) ≤ m.layout.length ∧ m.layout.length ≤ 62 ∧
    extent (m.layout.getD 0 0) + 2 ≤ 8 * ((m.listedLen + 2 + 7) / 8) ∧ m.listedLen ≤ 62 := by
  cases m with
  | addOrder => exact bounds_of (e := 36) (n := 36) (l := 36) rfl rfl rfl (by decide)
  | addOrderMpid => exact bounds_of (e := 36) (n := 40) (l := 40) rfl rfl rfl (by decide)
  | orderCancel => exact bounds_of (e := 23) (n := 23) (l := 23) rfl rfl rfl (by decide)
  | orderDelete => exact bounds_of (e := 19) (n := 19) (l := 19) rfl rfl rfl (by decide)
  | orderReplace => exact bounds_of (e := 35) (n := 35) (l := 35) rfl rfl rfl (by decide)
  | orderExec => exact bounds_of (e := 23) (n := 31) (l := 30) rfl rfl rfl (by decide)
  | orderExecPx => exact bounds_of (e := 36) (n := 36) (l := 35) rfl rfl rfl (by decide)
  | trade => exact bounds_of (e := 36) (n := 44) (l := 43) rfl rfl rfl (by decide)

theorem Encodes.length_bounds (h : Encodes m f) :
    extent (m.layout.getD 0 0) + 2 ≤ 8 * f.length ∧ lenOf f ≤ 62 := by
  obtain ⟨hext, hfull, hroom, hlisted⟩ := layout_bounds m
  have hbeats := h.beats
  obtain hlen | hlen := h.len <;> rw [hlen] at hbeats ⊢ <;> omega

theorem supported_layout (m : ItchMessage) : supported (m.layout.getD 0 0) = true := by
  cases m <;> rfl

/-- The parser gives the encoded fields for a frame that carries a message. -/
theorem Gives.of_encodes (h : Gives f out) (he : Encodes m f) : out = [m.outputs] := by
  obtain ⟨hroom, hlen⟩ := he.length_bounds
  obtain ⟨hext, -⟩ := layout_bounds m
  have hbeats := he.beats
  have hbody := length_body f
  have hbytes : ∀ k, k < extent (m.layout.getD 0 0) → (body f).getD k 0 = m.layout.getD k 0 :=
    fun k hk => by
      obtain ⟨rest, hrest⟩ := he.bytes
      rw [← hrest, List.getD_append _ _ _ _ (by rw [List.length_take]; omega),
        List.getD_eq_getElem?_getD, List.getElem?_take_of_lt (by omega), List.getD_eq_getElem?_getD]
  have htype : typeRead f = m.layout.getD 0 0 := by
    rw [typeRead, if_pos hlen]
    exact hbytes 0 (lt_of_lt_of_le (by decide) le_extent)
  rw [Gives, if_pos ⟨by rw [complete, decide_eq_true_eq]; omega, by omega⟩] at h
  obtain ⟨buf, hleaves, rfl⟩ := h
  have hfields : fieldsOf buf = m.outputs := by
    rw [← fieldsOf_layout m]
    exact hleaves.fieldsOf_eq htype (by rw [htype]; exact hroom) fun k _ hk => hbytes k (by rwa [← htype])
  rw [hleaves.type, htype, supported_layout, if_pos rfl, hfields]

theorem Gives.of_cutOff (h : Gives f out) (hc : CutOff f) : out = [] := by
  have hshort := hc.short
  have hnot : complete f = false := by
    rw [complete, decide_eq_false_iff_not]
    omega
  rwa [Gives, if_neg (by simp [hnot])] at h

/-! ### after a packet -/

theorem take_ne_emit : (take s b).1.state ≠ .sEmit := by
  rw [take, settled]
  split
  · simp [stepEmit]
  · assumption

theorem feed_ne_emit (h : s.state ≠ .sEmit) (l : List ItchBeat) : (feed take s l).1.state ≠ .sEmit := by
  induction l using List.reverseRecOn with
  | nil => exact h
  | append_singleton l b ih =>
      rw [feed_concat]
      exact take_ne_emit

/-- After `tlast` the next frame begins. -/
theorem take_tlast (h : s.state ≠ .sEmit) (hb : b.tlast = true) : (take s b).1.state = .sIdle := by
  by_cases he : (s.step (ready b)).state = .sEmit
  · simp [take, settled, he, stepEmit]
  · rw [(take_more he).1]
    change (s.step (ready b)).state = .sIdle
    cases hst : s.state with
    | sEmit => exact absurd hst h
    | sIdle =>
        rw [step_idle hst] at he ⊢
        simp only [hb, if_true] at he ⊢
        split at he
        · exact absurd rfl he
        · rename_i hle
          rw [if_neg hle]
    | sAccumulate =>
        rw [step_accumulate hst] at he ⊢
        simp only [hb, if_true] at he ⊢
        split at he
        · exact absurd rfl he
        · rename_i hle
          rw [if_neg hle]

theorem feed_ended {l : List ItchBeat} (hst : s.state = .sIdle) (h : l = [] ∨ ended l = true) :
    (feed take s l).1.state = .sIdle := by
  cases l using List.reverseRecOn with
  | nil => exact hst
  | append_singleton l b =>
      have hb : b.tlast = true := by simpa [ended_concat] using h
      rw [feed_concat]
      exact take_tlast (feed_ne_emit (by simp [hst]) l) hb

end Frames

/-! ## runs -/

/-- The beats of a frame are taken from cycle `t` to cycle `u`. -/
structure TakenFrom (s : ItchParserV2) (i : Nat → ItchParserV2In) (t u : Nat) (f : List ItchBeat) :
    Prop where
  first : (run step s i t).got (i t) ≠ none
  last : (run step s i u).got (i u) ≠ none
  beats : taken s i (u + 1) = taken s i t ++ f

section Run

variable {s : ItchParserV2} {i : Nat → ItchParserV2In} {n : Nat}

theorem gave_step (h : s.ValidInIdle) (j k : ItchParserV2In) : ((s.step j).gave k).toList = s.emitted := by
  cases hst : s.state with
  | sIdle =>
      simp only [step, hst, stepIdle]
      split <;> simp [gave, emitted, hst]
  | sAccumulate =>
      have hfv := h.of_ne (by simp [hst])
      simp only [step, hst, stepAccumulate]
      split <;> simp [gave, emitted, hst, hfv]
  | sEmit =>
      simp only [step, hst, stepEmit, gave, emitted, true_and]
      split <;> rfl

theorem validInIdle_run (h : s.ValidInIdle) (n : Nat) : (run step s i n).ValidInIdle :=
  run_invariant (P := fun _ => ValidInIdle) h (fun _ h => h.step _) n

/-- What is pending is given within two cycles. -/
theorem pulsed_add_two (h : s.ValidInIdle) (n : Nat) :
    pulsed s i (n + 2) = pulsed s i n ++ (run step s i n).pending := by
  have hgave := gave_step (validInIdle_run (i := i) h n) (i n) (i (n + 1))
  unfold pulsed
  rw [collect_succ, collect_succ, run_succ, hgave, List.append_assoc]
  congr 1
  unfold pending gave
  split <;> rfl

/-- No more is pending in a cycle in which a beat is taken than what is given in it. -/
theorem pulsed_succ_of_got (hg : (run step s i n).got (i n) ≠ none) :
    pulsed s i (n + 1) = pulsed s i n ++ (run step s i n).pending := by
  obtain ⟨b, hb⟩ := Option.ne_none_iff_exists'.mp hg
  obtain ⟨-, -, hne⟩ := of_got_eq_some hb
  unfold pulsed
  rw [collect_succ]
  congr 1
  have hnone : (run step s i n).emitted = [] := if_neg fun h => hne h.1
  unfold pending gave
  rw [hnone]
  split <;> rfl

/-- Nothing is given in the cycle after a beat. -/
theorem pulsed_succ_of_quiet (h : s.ValidInIdle) (hg : (run step s i n).got (i n) ≠ none) :
    pulsed s i (n + 2) = pulsed s i (n + 1) := by
  obtain ⟨b, hb⟩ := Option.ne_none_iff_exists'.mp hg
  have hfv : (run step s i (n + 1)).fieldsValid = false := (step_of_got hb (validInIdle_run h n)).2
  unfold pulsed
  rw [collect_succ _ (n + 1), gave, hfv]
  simp

end Run

/-- **Round trip**: after whatever has ended with `tlast`, a frame that carries a message
leads to one pulse with the fields encoded, two cycles after its last beat, and one that
is cut off to none; whatever the gaps and the backpressure are. -/
theorem round_trip (buf : BitVec 6 → BitVec 8) (i : Nat → ItchParserV2In) {t u : Nat}
    {f : List ItchBeat} (hf : TakenFrom (started buf) i t u f)
    (hbefore : taken (started buf) i t = [] ∨ ended (taken (started buf) i t) = true) :
    (∀ m, Encodes m f → pulsed (started buf) i (u + 2) = pulsed (started buf) i (t + 1) ∧
      pulsed (started buf) i (u + 3) = pulsed (started buf) i (t + 1) ++ [m.outputs]) ∧
    (CutOff f → pulsed (started buf) i (u + 3) = pulsed (started buf) i (t + 1)) := by
  have hvalid : (started buf).ValidInIdle := fun h => absurd h Bool.false_ne_true
  have hidle : (feed take (started buf) (taken (started buf) i t)).1.state = .sIdle :=
    feed_ended rfl hbefore
  have hfirst : pulsed (started buf) i (t + 1) = (feed take (started buf) (taken (started buf) i t)).2 := by
    rw [pulsed_succ_of_got hf.first, pulsed_pending]
  have hthree : pulsed (started buf) i (u + 3) = pulsed (started buf) i (t + 1) ++
      (feed take (feed take (started buf) (taken (started buf) i t)).1 f).2 := by
    rw [pulsed_add_two hvalid (u + 1), pulsed_pending, hf.beats, feed_append, hfirst]
  constructor
  · intro m hm
    obtain ⟨hgives, -⟩ := feed_whole_idle hidle hm.whole
    refine ⟨?_, by rw [hthree, hgives.of_encodes hm]⟩
    rw [pulsed_succ_of_quiet hvalid hf.last, pulsed_succ_of_got hf.last, pulsed_pending, hfirst]
    obtain ⟨g, b, ho, -⟩ := hm.whole
    have hbeats := hf.beats
    obtain ⟨b', hb'⟩ := Option.ne_none_iff_exists'.mp hf.last
    have htaken : taken (started buf) i (u + 1) = taken (started buf) i u ++ [b'] := by
      rw [taken, collect_succ, hb']
      rfl
    rw [htaken, ← List.append_assoc] at hbeats
    rw [(List.append_inj' hbeats rfl).1, feed_append, (feed_open_idle hidle ho).1, List.append_nil]
  · intro hc
    obtain ⟨hgives, -⟩ := feed_whole_idle hidle hc.whole
    rw [hthree, hgives.of_cutOff hc, List.append_nil]

/-- An order delete. -/
def deleteMsg : ItchMessage := .orderDelete ⟨0, 0, 0⟩ 0x0102030405060708

/-- Its frame. -/
def deleteFrame : List ItchBeat :=
  [⟨0x0013440000000000, false⟩, ⟨0x0000000000010203, false⟩, ⟨0x0405060708FFFFFF, true⟩]

/-- The frame cut off after its first beat, in cycle 0; then all of it, with a gap before it
and `pipeline_hold` in cycle 3. -/
def cutThenDelete (n : Nat) : ItchParserV2In :=
  match n with
  | 0 => ready ⟨0x0013440000000000, true⟩
  | 2 => ready ⟨0x0013440000000000, false⟩
  | 3 => { ready ⟨0x0000000000010203, false⟩ with pipelineHold := true }
  | 4 => ready ⟨0x0000000000010203, false⟩
  | 5 => ready ⟨0x0405060708FFFFFF, true⟩
  | _ => ⟨0, false, false, false⟩

/-- No pulse for the first frame, one for the second, in cycle 7. -/
theorem cutThenDelete_pulsed :
    pulsed (started fun _ => 0xFF) cutThenDelete 3 = pulsed (started fun _ => 0xFF) cutThenDelete 1 ∧
    pulsed (started fun _ => 0xFF) cutThenDelete 8 =
      pulsed (started fun _ => 0xFF) cutThenDelete 3 ++
        [⟨0x44, 0x0102030405060708, 0, 0, 0, false, 0⟩] := by
  have hcut : TakenFrom (started fun _ => 0xFF) cutThenDelete 0 0 [⟨0x0013440000000000, true⟩] :=
    ⟨by decide, by decide, by decide +kernel⟩
  have hdelete : TakenFrom (started fun _ => 0xFF) cutThenDelete 2 5 deleteFrame :=
    ⟨by decide +kernel, by decide +kernel, by decide +kernel⟩
  have hencodes : Encodes deleteMsg deleteFrame :=
    ⟨Or.inl (by decide), by decide, by decide +kernel, ⟨by decide, by decide⟩⟩
  exact ⟨(round_trip _ _ hcut (Or.inl rfl)).2 ⟨by decide, ⟨by decide, by decide⟩⟩,
    ((round_trip _ _ hdelete (Or.inr (by decide +kernel))).1 deleteMsg hencodes).2⟩

end ItchParserV2

end Lliu
