import Lliu.ItchDecoder

/-!
# Lliu.ItchDecoder.RoundTrip

Encoding an Add Order succeeds exactly for arguments in range, and decoding gives them back, with
or without the length prefix; of the stock, the first eight characters without the white space at
the end (`decode_encode`).
-/

namespace Lliu

open Hdl

namespace ItchDecoder

/-! ## calls that succeed -/

section Calls

variable {n : Nat} {v : Int} {bs : List Byte}

theorem bind_eq_ok {x : Except PyError α} {f : α → Except PyError β} {b : β} :
    (x >>= f) = .ok b ↔ ∃ a, x = .ok a ∧ f a = .ok b := by
  cases x with
  | error e =>
      refine ⟨fun h => ?_, fun ⟨a, h, _⟩ => ?_⟩
      · cases h
      · cases h
  | ok a =>
      refine ⟨fun h => ⟨a, rfl, h⟩, fun ⟨a', h, hf⟩ => ?_⟩
      cases h
      exact hf

/-- What a call with a guard gives. -/
theorem guard_eq_ok {p : Prop} [Decidable p] {a b : α} {e : PyError} :
    (if p then Except.ok a else .error e) = .ok b ↔ p ∧ b = a := by
  by_cases h : p
  · rw [if_pos h, Except.ok.injEq, eq_comm]
    exact (and_iff_right h).symm
  · rw [if_neg h]
    exact iff_of_false (fun he => by cases he) fun he => h he.1

theorem pack_eq_ok : pack n v = .ok bs ↔ (0 ≤ v ∧ v < 256 ^ n) ∧ bs = toBytes n v.toNat := guard_eq_ok

theorem intToBytes_eq_ok : intToBytes n v = .ok bs ↔ (0 ≤ v ∧ v < 256 ^ n) ∧ bs = toBytes n v.toNat :=
  guard_eq_ok

theorem ordByte_eq_ok {c : Char} {b : Byte} : ordByte c = .ok b ↔ c.toNat < 256 ∧ b = BitVec.ofNat 8 c.toNat :=
  guard_eq_ok

theorem encodeAscii_eq_ok {s : List Char} : encodeAscii s = .ok bs ↔
    (∀ c ∈ s, c.toNat < 128) ∧ bs = s.map fun c => BitVec.ofNat 8 c.toNat := by
  rw [encodeAscii, guard_eq_ok, List.all_eq_true]
  simp only [decide_eq_true_eq]

/-- The next field goes where zeros are. -/
theorem setSlice_zeros {a : List Byte} {k r m : Nat} (ha : a.length = k) (hr : bs.length + m = r) :
    setSlice (a ++ List.replicate r 0) k bs = a ++ bs ++ List.replicate m 0 := by
  subst ha hr
  rw [setSlice, List.take_left, List.drop_append, List.drop_eq_nil_of_le (by omega), List.nil_append,
    List.drop_replicate]
  congr 2
  omega

end Calls

/-! ## the stock -/

/-- The characters that are sent. -/
def stockChars (s : List Char) : List Char := (ljust 8 s).take 8

theorem length_stockChars (s : List Char) : (stockChars s).length = 8 := by
  rw [stockChars, List.length_take, ljust, List.length_append, List.length_replicate]
  omega

/-- White space at the end does not count. -/
theorem rstrip_append_spaces (s : List Char) (n : Nat) : rstrip (s ++ List.replicate n ' ') = rstrip s := by
  induction n with
  | zero => rw [List.replicate_zero, List.append_nil]
  | succ n ih =>
      rw [List.replicate_succ', ← List.append_assoc, rstrip, List.rdropWhile_concat_pos _ _ _ (by decide)]
      exact ih

theorem rstrip_stockChars (s : List Char) : rstrip (stockChars s) = rstrip (s.take 8) := by
  rw [stockChars, ljust, List.take_append, List.take_replicate]
  exact rstrip_append_spaces _ _

theorem mem_stockChars {s : List Char} {c : Char} (h : c ∈ stockChars s) : c ∈ s.take 8 ∨ c = ' ' := by
  rw [stockChars, ljust, List.take_append, List.take_replicate, List.mem_append] at h
  exact h.imp id List.eq_of_mem_replicate

theorem ascii_stockChars (s : List Char) :
    (∀ c ∈ stockChars s, c.toNat < 128) ↔ ∀ c ∈ s.take 8, c.toNat < 128 := by
  constructor
  · intro h c hc
    refine h c ?_
    rw [stockChars, ljust, List.take_append]
    exact List.mem_append_left _ hc
  · intro h c hc
    obtain hc | rfl := mem_stockChars hc
    · exact h c hc
    · decide

/-- The bytes of ASCII characters are read as these. -/
theorem decodeAscii_map {s : List Char} (h : ∀ c ∈ s, c.toNat < 128) :
    decodeAscii (s.map fun c => BitVec.ofNat 8 c.toNat) = .ok s := by
  have hbyte : ∀ c ∈ s, (BitVec.ofNat 8 c.toNat).toNat = c.toNat := fun c hc => by
    have := h c hc
    rw [BitVec.toNat_ofNat]
    omega
  have hascii : (s.map fun c => BitVec.ofNat 8 c.toNat).all (·.toNat < 128) = true := by
    rw [List.all_map, List.all_eq_true]
    intro c hc
    rw [Function.comp, hbyte c hc]
    exact decide_eq_true (h c hc)
  rw [decodeAscii, if_pos hascii, List.map_map]
  congr 1
  conv_rhs => rw [← List.map_id s]
  refine List.map_congr_left fun c hc => ?_
  rw [Function.comp, hbyte c hc, Char.ofNat_toNat]
  rfl

/-! ## the bytes of an Add Order -/

/-- Arguments in range. -/
structure Encodable (x : AddOrderArgs) : Prop where
  stockLocate : 0 ≤ x.stockLocate ∧ x.stockLocate < 256 ^ 2
  trackingNumber : 0 ≤ x.trackingNumber ∧ x.trackingNumber < 256 ^ 2
  timestamp : 0 ≤ x.timestamp ∧ x.timestamp < 256 ^ 6
  orderRef : 0 ≤ x.orderRef ∧ x.orderRef < 256 ^ 8
  side : x.side.toNat < 256
  shares : 0 ≤ x.shares ∧ x.shares < 256 ^ 4
  stock : ∀ c ∈ x.stock.take 8, c.toNat < 128
  price : 0 ≤ x.price ∧ x.price < 256 ^ 4

/-- The body of the message. -/
def body (x : AddOrderArgs) : List Byte :=
  [itchMsgAddOrder] ++ toBytes 2 x.stockLocate.toNat ++ toBytes 2 x.trackingNumber.toNat ++
    toBytes 6 x.timestamp.toNat ++ toBytes 8 x.orderRef.toNat ++ [BitVec.ofNat 8 x.side.toNat] ++
    toBytes 4 x.shares.toNat ++ (stockChars x.stock).map (fun c => BitVec.ofNat 8 c.toNat) ++
    toBytes 4 x.price.toNat

theorem length_body (x : AddOrderArgs) : (body x).length = 36 := by
  simp [body, length_stockChars]

/-- Field by field the slices make up the body. -/
theorem setSlices_eq (x : AddOrderArgs) :
    setSlice (setSlice (setSlice (setSlice (setSlice (setSlice (setSlice (setSlice (setSlice
      (List.replicate addOrderLen 0) 0 [itchMsgAddOrder]) 1 (toBytes 2 x.stockLocate.toNat))
      3 (toBytes 2 x.trackingNumber.toNat)) 5 (toBytes 6 x.timestamp.toNat))
      11 (toBytes 8 x.orderRef.toNat)) 19 [BitVec.ofNat 8 x.side.toNat]) 20 (toBytes 4 x.shares.toNat))
      24 ((stockChars x.stock).map fun c => BitVec.ofNat 8 c.toNat)) 32 (toBytes 4 x.price.toNat) =
    body x := by
  rw [addOrderLen, ← List.nil_append (List.replicate 36 0),
    setSlice_zeros (m := 35) (by simp) (by simp), setSlice_zeros (m := 33) (by simp) (by simp),
    setSlice_zeros (m := 31) (by simp) (by simp), setSlice_zeros (m := 25) (by simp) (by simp),
    setSlice_zeros (m := 17) (by simp) (by simp), setSlice_zeros (m := 16) (by simp) (by simp),
    setSlice_zeros (m := 12) (by simp) (by simp),
    setSlice_zeros (m := 4) (by simp) (by simp [length_stockChars]),
    setSlice_zeros (m := 0) (by simp [length_stockChars]) (by simp), List.replicate_zero,
    List.append_nil, List.nil_append, body]

/-- **Encoding**: exactly arguments in range have an encoding. -/
theorem encodeAddOrder_eq_ok {x : AddOrderArgs} {bs : List Byte} :
    encodeAddOrder x = .ok bs ↔ Encodable x ∧ bs = toBytes 2 36 ++ body x := by
  rw [← setSlices_eq]
  simp only [encodeAddOrder, bind_eq_ok, pack_eq_ok, intToBytes_eq_ok, ordByte_eq_ok, encodeAscii_eq_ok,
    and_assoc]
  constructor
  · rintro ⟨_, hl0, hl, rfl, _, ht0, ht, rfl, _, hs0, hs, rfl, _, hr0, hr, rfl, _, hside, rfl, _, hq0, hq, rfl,
      _, hstock, rfl, _, hp0, hp, rfl, _, -, -, rfl, hbs⟩
    exact ⟨⟨⟨hl0, hl⟩, ⟨ht0, ht⟩, ⟨hs0, hs⟩, ⟨hr0, hr⟩, hside, ⟨hq0, hq⟩, (ascii_stockChars _).mp hstock,
      ⟨hp0, hp⟩⟩, (Except.ok.inj hbs).symm⟩
  · rintro ⟨h, rfl⟩
    exact ⟨_, h.stockLocate.1, h.stockLocate.2, rfl, _, h.trackingNumber.1, h.trackingNumber.2, rfl,
      _, h.timestamp.1, h.timestamp.2, rfl, _, h.orderRef.1, h.orderRef.2, rfl, _, h.side, rfl,
      _, h.shares.1, h.shares.2, rfl, _, (ascii_stockChars _).mpr h.stock, rfl, _, h.price.1, h.price.2, rfl,
      _, by decide, by decide, rfl, rfl⟩

/-! ## decoding -/

/-- What an encoding is read as. -/
def dict (x : AddOrderArgs) : AddOrderDict where
  messageType := itchMsgAddOrder.toNat
  stockLocate := x.stockLocate.toNat
  trackingNumber := x.trackingNumber.toNat
  timestamp := x.timestamp.toNat
  orderRef := x.orderRef.toNat
  side := x.side
  shares := x.shares.toNat
  stock := rstrip (x.stock.take 8)
  price := x.price.toNat

theorem slices_body (x : AddOrderArgs) : (body x).getD 0 0 = itchMsgAddOrder ∧
    (body x).getD 19 0 = BitVec.ofNat 8 x.side.toNat ∧
    ((body x).drop 1).take 2 = toBytes 2 x.stockLocate.toNat ∧
    ((body x).drop 3).take 2 = toBytes 2 x.trackingNumber.toNat ∧
    ((body x).drop 5).take 6 = toBytes 6 x.timestamp.toNat ∧
    ((body x).drop 11).take 8 = toBytes 8 x.orderRef.toNat ∧
    ((body x).drop 20).take 4 = toBytes 4 x.shares.toNat ∧
    ((body x).drop 24).take 8 = (stockChars x.stock).map (fun c => BitVec.ofNat 8 c.toNat) ∧
    ((body x).drop 32).take 4 = toBytes 4 x.price.toNat := by
  simp [body, List.drop_append, List.drop_eq_nil_of_le, List.take_of_length_le,
    length_stockChars, List.getD_eq_getElem?_getD]

/-- A field in range is read back. -/
theorem fromBytes_field {n : Nat} {v : Int} (h : 0 ≤ v ∧ v < 256 ^ n) : fromBytes (toBytes n v.toNat) = v.toNat := by
  refine fromBytes_toBytes ?_
  have hlt : (v.toNat : Int) < ((256 ^ n : Nat) : Int) := by
    rw [Int.toNat_of_nonneg h.1]
    exact_mod_cast h.2
  exact_mod_cast hlt

/-- What 36 bytes with the type of an Add Order are read as. -/
theorem decode_of_length {b : List Byte} (hlen : b.length = 36) (htype : b.getD 0 0 = itchMsgAddOrder)
    {s : List Char} (hs : decodeAscii ((b.drop 24).take 8) = .ok s) : decodeAddOrder b =
    .ok (some
      { messageType := itchMsgAddOrder.toNat
        stockLocate := fromBytes ((b.drop 1).take 2)
        trackingNumber := fromBytes ((b.drop 3).take 2)
        timestamp := fromBytes ((b.drop 5).take 6)
        orderRef := fromBytes ((b.drop 11).take 8)
        side := Char.ofNat (b.getD 19 0).toNat
        shares := fromBytes ((b.drop 20).take 4)
        stock := rstrip s
        price := fromBytes ((b.drop 32).take 4) }) := by
  have hnone : ¬ (38 ≤ b.length ∧ fromBytes (b.take 2) = addOrderLen) := by omega
  have hlong : ¬ b.length < addOrderLen := by
    rw [hlen]
    decide
  unfold decodeAddOrder
  rw [if_neg hnone, if_neg hlong, if_neg (fun h => h htype), hs, htype]
  rfl

theorem decode_body {x : AddOrderArgs} (h : Encodable x) : decodeAddOrder (body x) = .ok (some (dict x)) := by
  obtain ⟨htype, hside, hlocate, htrack, htime, href, hshares, hstock, hprice⟩ := slices_body x
  have hs := decodeAscii_map ((ascii_stockChars _).mpr h.stock)
  rw [← hstock] at hs
  have hchar : Char.ofNat (BitVec.ofNat 8 x.side.toNat).toNat = x.side := by
    rw [BitVec.toNat_ofNat, Nat.mod_eq_of_lt h.side, Char.ofNat_toNat]
  rw [decode_of_length (length_body x) htype hs, hside, hlocate, htrack, htime, href, hshares, hprice,
    fromBytes_field h.stockLocate, fromBytes_field h.trackingNumber, fromBytes_field h.timestamp,
    fromBytes_field h.orderRef, fromBytes_field h.shares, fromBytes_field h.price, hchar, rstrip_stockChars, dict]

/-- The prefix is recognised and left out. -/
theorem decode_prefixed (x : AddOrderArgs) :
    decodeAddOrder (toBytes 2 36 ++ body x) = decodeAddOrder (body x) := by
  have hlen := length_body x
  have hlead : 38 ≤ (toBytes 2 36 ++ body x).length ∧
      fromBytes ((toBytes 2 36 ++ body x).take 2) = addOrderLen := by
    refine ⟨by simp [hlen], ?_⟩
    rw [List.take_left' (length_toBytes 2 36), fromBytes_toBytes (by decide)]
    rfl
  have hnone : ¬ (38 ≤ (body x).length ∧ fromBytes ((body x).take 2) = addOrderLen) := by omega
  unfold decodeAddOrder
  rw [if_pos hlead, if_neg hnone, List.drop_left' (length_toBytes 2 36)]

/-- **Round trip**: arguments in range, and no others, have an encoding, and it is read back with
the prefix and without. -/
theorem decode_encode (x : AddOrderArgs) : ((∃ bs, encodeAddOrder x = .ok bs) ↔ Encodable x) ∧
    ∀ bs, encodeAddOrder x = .ok bs →
      decodeAddOrder bs = .ok (some (dict x)) ∧ decodeAddOrder (bs.drop 2) = .ok (some (dict x)) := by
  refine ⟨⟨fun ⟨bs, h⟩ => (encodeAddOrder_eq_ok.mp h).1, fun h => ⟨_, encodeAddOrder_eq_ok.mpr ⟨h, rfl⟩⟩⟩, ?_⟩
  intro bs hbs
  obtain ⟨h, rfl⟩ := encodeAddOrder_eq_ok.mp hbs
  rw [decode_prefixed, List.drop_left' (length_toBytes 2 36)]
  exact ⟨decode_body h, decode_body h⟩

/-- White space within the eight characters stays, a ninth character is lost. -/
example : (dict { orderRef := 1, side := 'B', price := 5, stock := "A B      Z".toList }).stock = ['A', ' ', 'B'] := by
  decide

end ItchDecoder

end Lliu
