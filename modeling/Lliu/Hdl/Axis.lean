import Mathlib.Tactic

/-!
# Hdl.Axis

Beats of a 64-bit AXI4-Stream and the bytes they carry.  A beat has eight byte
lanes, the first in the low bits, and `tkeep` marks the lanes that carry a byte.
`Packs` is the framing of a packet: full beats, and a last one whose bytes are in
its low lanes.  The unmarked lanes may hold anything.
-/

namespace Hdl

/-- A byte. -/
abbrev Byte := BitVec 8

/-- The bytes of the lanes of a word that `keep` marks, low lanes first. -/
def keptBytes (lanes : Nat) (data : BitVec (8 * lanes)) (keep : BitVec lanes) : List Byte :=
  (List.range lanes).flatMap fun k => if keep.getLsbD k then [data.extractLsb' (8 * k) 8] else []

/-- A beat. -/
structure Beat where
  tdata : BitVec 64
  tkeep : BitVec 8
  tlast : Bool
  deriving DecidableEq, Repr

namespace Beat

/-- Byte lane `k`. -/
def lane (b : Beat) (k : Nat) : Byte := b.tdata.extractLsb' (8 * k) 8

/-- The bytes of a beat. -/
def bytes (b : Beat) : List Byte := keptBytes 8 b.tdata b.tkeep

/-- The bytes in the low four lanes. -/
def loBytes (b : Beat) : List Byte :=
  keptBytes 4 (b.tdata.extractLsb' 0 32) (b.tkeep.extractLsb' 0 4)

/-- The bytes in the high four lanes. -/
def hiBytes (b : Beat) : List Byte :=
  keptBytes 4 (b.tdata.extractLsb' 32 32) (b.tkeep.extractLsb' 4 4)

end Beat

/-! ## halves of a beat -/

/-- The bytes of two halves put together are those of the low one, then those of
the high one. -/
theorem keptBytes_append (hi lo : BitVec 32) (khi klo : BitVec 4) :
    keptBytes 8 (hi ++ lo) (khi ++ klo) = keptBytes 4 lo klo ++ keptBytes 4 hi khi := by
  rw [keptBytes, show List.range 8 = List.range 4 ++ (List.range 4).map (4 + ·) from rfl,
    List.flatMap_append, List.flatMap_map]
  congr 1 <;> refine List.flatMap_congr fun k hk => ?_ <;> rw [List.mem_range] at hk
  · have hkeep : (khi ++ klo).getLsbD k = klo.getLsbD k := by
      rw [BitVec.getLsbD_append, if_pos hk]
    rw [hkeep, BitVec.extractLsb'_append_eq_of_add_le (by omega)]
  · have hkeep : (khi ++ klo).getLsbD (4 + k) = khi.getLsbD k := by
      rw [BitVec.getLsbD_append, if_neg (by omega), Nat.add_sub_cancel_left]
    rw [hkeep, BitVec.extractLsb'_append_eq_of_le (by omega),
      show 8 * (4 + k) - 32 = 8 * k by omega]

theorem Beat.bytes_eq (b : Beat) : b.bytes = b.loBytes ++ b.hiBytes := by
  have hd : b.tdata.extractLsb' 32 32 ++ b.tdata.extractLsb' 0 32 = b.tdata :=
    BitVec.extractLsb'_append_extractLsb'
  have hk : b.tkeep.extractLsb' 4 4 ++ b.tkeep.extractLsb' 0 4 = b.tkeep :=
    BitVec.extractLsb'_append_extractLsb'
  rw [loBytes, hiBytes, ← keptBytes_append, hd, hk, bytes]

/-! ## packets -/

/-- The `tkeep` of a beat with `n` bytes in its low lanes. -/
def lowKeep (n : Nat) : BitVec 8 := BitVec.ofNat 8 (2 ^ n - 1)

/-- The beats that carry the bytes of a packet: full ones, and a last one. -/
inductive Packs : List Beat → List Byte → Prop where
  | last (b : Beat) (n : Nat) (hpos : 0 < n) (hle : n ≤ 8) (hkeep : b.tkeep = lowKeep n)
      (hlast : b.tlast = true) : Packs [b] b.bytes
  | cons (b : Beat) (bs : List Beat) (d : List Byte) (hkeep : b.tkeep = 0xFF#8)
      (hlast : b.tlast = false) (h : Packs bs d) : Packs (b :: bs) (b.bytes ++ d)

/-- The beats that carry the bytes of packets, one after the other. -/
inductive PacksAll : List Beat → List (List Byte) → Prop where
  | nil : PacksAll [] []
  | cons (bs bs' : List Beat) (d : List Byte) (ds : List (List Byte)) (h : Packs bs d)
      (h' : PacksAll bs' ds) : PacksAll (bs ++ bs') (d :: ds)

namespace Beat

variable {b : Beat} {n : Nat}

/-- The bytes of a beat with `n` of them in its low lanes. -/
theorem length_of_lowKeep (h : b.tkeep = lowKeep n) (hn : n ≤ 8) :
    b.bytes.length = n ∧ b.loBytes.length = min n 4 ∧ b.hiBytes.length = n - 4 := by
  rw [bytes, loBytes, hiBytes, h]
  interval_cases n <;> exact ⟨rfl, rfl, rfl⟩

theorem length_of_full (h : b.tkeep = 0xFF#8) :
    b.bytes.length = 8 ∧ b.loBytes.length = 4 ∧ b.hiBytes.length = 4 :=
  length_of_lowKeep (n := 8) h (le_refl 8)

/-- They are its first lanes. -/
theorem bytes_of_lowKeep (h : b.tkeep = lowKeep n) (hn : n ≤ 8) :
    b.bytes = ((List.range 8).map b.lane).take n := by
  rw [bytes, h]
  clear h
  interval_cases n <;> rfl

/-- The bytes of a full beat are its lanes. -/
theorem bytes_of_full (h : b.tkeep = 0xFF#8) :
    b.bytes = [b.lane 0, b.lane 1, b.lane 2, b.lane 3, b.lane 4, b.lane 5, b.lane 6, b.lane 7] := by
  rw [bytes, h]
  rfl

/-- The low bytes of a beat whose low lanes are all marked. -/
theorem loBytes_of_full (h : b.tkeep.extractLsb' 0 4 = 0xF#4) :
    b.loBytes = [b.lane 0, b.lane 1, b.lane 2, b.lane 3] := by
  have hlane : ∀ k, k < 4 → (b.tdata.extractLsb' 0 32).extractLsb' (8 * k) 8 = b.lane k :=
    fun k hk => BitVec.extractLsb'_extractLsb'_of_le (by omega)
  rw [loBytes, h, ← hlane 0 (by omega), ← hlane 1 (by omega), ← hlane 2 (by omega),
    ← hlane 3 (by omega)]
  rfl

end Beat

/-! ## packets sent in part -/

section Parts

variable {f g : α → List β} {l : List α}

theorem length_flatten_le_of_isPrefix (h : ∀ a, f a <+: g a) (l : List α) :
    (l.map f).flatten.length ≤ (l.map g).flatten.length := by
  induction l with
  | nil => exact le_refl _
  | cons a l ih =>
      rw [List.map_cons, List.map_cons, List.flatten_cons, List.flatten_cons, List.length_append,
        List.length_append]
      exact Nat.add_le_add (h a).length_le ih

/-- Where each packet `f a` of a stream is a first part of the one `g a` it shall
be, the streams agree if and only if all packets do. -/
theorem flatten_eq_iff_of_isPrefix (h : ∀ a, f a <+: g a) :
    (l.map f).flatten = (l.map g).flatten ↔ ∀ a ∈ l, f a = g a := by
  refine ⟨fun hf => ?_, fun hall => by rw [List.map_congr_left hall]⟩
  induction l with
  | nil => exact fun a ha => absurd ha List.not_mem_nil
  | cons a l ih =>
      rw [List.map_cons, List.map_cons, List.flatten_cons, List.flatten_cons] at hf
      have hsum := congrArg List.length hf
      rw [List.length_append, List.length_append] at hsum
      have hhead := (h a).length_le
      have htail := length_flatten_le_of_isPrefix h l
      obtain ⟨ha, hrest⟩ := List.append_inj hf (by omega)
      exact List.forall_mem_cons.mpr ⟨ha, ih hrest⟩

end Parts

namespace Packs

variable {bs : List Beat} {d : List Byte}

theorem bytes_eq (h : Packs bs d) : bs.flatMap Beat.bytes = d := by
  induction h with
  | last b n _ _ _ _ => simp
  | cons b bs d _ _ _ ih => rw [List.flatMap_cons, ih]

theorem flatMap (h : Packs bs d) : Packs bs (bs.flatMap Beat.bytes) := h.bytes_eq ▸ h

/-- The beats of a single packet. -/
theorem packsAll (h : Packs bs d) : PacksAll bs [d] := by
  simpa using PacksAll.cons bs [] d [] h .nil

theorem ne_nil (h : Packs bs d) : d ≠ [] := by
  cases h with
  | last b n hpos hle hkeep hlast =>
      exact List.ne_nil_of_length_pos (by rw [(Beat.length_of_lowKeep hkeep hle).1]; exact hpos)
  | cons b bs d hkeep hlast h =>
      exact List.ne_nil_of_length_pos (by rw [List.length_append, (Beat.length_of_full hkeep).1]; omega)

/-- Only the last beat is marked as such. -/
theorem tlast (h : Packs bs d) :
    ∃ fs b, bs = fs ++ [b] ∧ b.tlast = true ∧ ∀ f ∈ fs, f.tlast = false := by
  induction h with
  | last b n hpos hle hkeep hlast => exact ⟨[], b, rfl, hlast, by simp⟩
  | cons b bs d hkeep hlast h ih =>
      obtain ⟨fs, b', rfl, hb', hfs⟩ := ih
      exact ⟨b :: fs, b', rfl, hb', by simpa [hlast] using hfs⟩

end Packs

/-! ## sending a packet -/

/-- The word with the first eight of the given bytes in its lanes. -/
def word (l : List Byte) : BitVec 64 :=
  l.getD 7 0 ++ l.getD 6 0 ++ l.getD 5 0 ++ l.getD 4 0 ++ l.getD 3 0 ++ l.getD 2 0 ++ l.getD 1 0 ++
    l.getD 0 0

/-- `n` full beats of a packet, and one with the rest. -/
def toBeats : Nat → List Byte → List Beat
  | 0, d => [⟨word d, lowKeep d.length, true⟩]
  | n + 1, d => ⟨word d, 0xFF#8, false⟩ :: toBeats n (d.drop 8)

theorem word_lane (l : List Byte) {k : Nat} (hk : k < 8) :
    (word l).extractLsb' (8 * k) 8 = l.getD k 0 := by
  rw [word]
  interval_cases k <;>
    simp (disch := decide) only [BitVec.extractLsb'_append_eq_of_le,
      BitVec.extractLsb'_append_eq_of_add_le, BitVec.extractLsb'_eq_self, Nat.reduceMul, Nat.reduceSub]

theorem bytes_word (l : List Byte) {n : Nat} (hn : n ≤ 8) (hl : n ≤ l.length) (last : Bool) :
    (⟨word l, lowKeep n, last⟩ : Beat).bytes = l.take n := by
  rw [Beat.bytes_of_lowKeep rfl hn]
  refine List.ext_getElem (by simp; omega) fun k h1 h2 => ?_
  rw [List.length_take] at h2
  rw [List.getElem_take, List.getElem_map, List.getElem_range, List.getElem_take, Beat.lane,
    word_lane l (by omega), List.getD_eq_getElem?_getD, List.getElem?_eq_getElem (by omega),
    Option.getD_some]

/-- Every packet can be sent. -/
theorem packs_toBeats (n : Nat) (d : List Byte) (hlo : 8 * n < d.length) (hhi : d.length ≤ 8 * n + 8) :
    Packs (toBeats n d) d := by
  induction n generalizing d with
  | zero =>
      have h := Packs.last ⟨word d, lowKeep d.length, true⟩ d.length (by omega) (by omega) rfl rfl
      rwa [bytes_word d (by omega) (le_refl _), List.take_length] at h
  | succ n ih =>
      have h := Packs.cons ⟨word d, 0xFF#8, false⟩ _ _ rfl rfl
        (ih (d.drop 8) (by rw [List.length_drop]; omega) (by rw [List.length_drop]; omega))
      have hbytes : (⟨word d, 0xFF#8, false⟩ : Beat).bytes = d.take 8 :=
        bytes_word d (le_refl 8) (by omega) false
      rwa [hbytes, List.take_append_drop] at h

end Hdl
