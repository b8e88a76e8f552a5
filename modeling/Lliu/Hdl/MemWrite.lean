import Lliu.Hdl.Axis

/-!
# Hdl.MemWrite

PCIe memory writes with a 64-bit address on a 64-bit stream: two header beats, then data
beats of one 64-bit word each, the last of them with `tlast`.  The framing is unique
(`MemWrite.flatMap_beats_inj`), so a stream of such packets says what it writes.
-/

namespace Hdl

/-- The beats of a memory write. -/
structure MemWrite where
  hdr : BitVec 64
  addr : BitVec 64
  init : List (BitVec 64)
  last : BitVec 64

namespace MemWrite

/-- The data words. -/
def data (t : MemWrite) : List (BitVec 64) := t.init ++ [t.last]

/-- The beats on the stream. -/
def beats (t : MemWrite) : List Beat :=
  ⟨t.hdr, 0xFF, false⟩ :: ⟨t.addr, 0xFF, false⟩ ::
    (t.init.map (fun d => ⟨d, 0xFF, false⟩) ++ [⟨t.last, 0xFF, true⟩])

/-- The words written, and where to. -/
def writes (t : MemWrite) : List (BitVec 64 × BitVec 64) :=
  t.data.mapIdx fun j d => (t.addr + BitVec.ofNat 64 (8 * j), d)

/-- The length field, in double words. -/
def lengthDw (t : MemWrite) : BitVec 10 := t.hdr.extractLsb' 32 10

/-- A memory write with a four word header, all bytes enabled, the address of a double
word, and the length of its data. -/
structure WellFormed (t : MemWrite) : Prop where
  kind : t.hdr.extractLsb' 56 8 = 0x60#8
  enables : t.hdr.extractLsb' 0 8 = 0xFF#8
  address : t.addr.extractLsb' 0 2 = 0#2
  length : t.lengthDw.toNat = 2 * t.data.length

/-- A stream of memory writes that writes the words `ws`, each once, and nothing else. -/
def Write (bs : List Beat) (ws : List (BitVec 64 × BitVec 64)) : Prop :=
  ∃ ts : List MemWrite, bs = ts.flatMap beats ∧ (∀ t, t ∈ ts → t.WellFormed) ∧
    (ts.flatMap writes).Perm ws

/-! ## beats and writes -/

section Beats

variable {t t' : MemWrite} {ts ts' : List MemWrite}

@[simp] theorem length_writes (t : MemWrite) : t.writes.length = t.init.length + 1 := by
  simp [writes, data]

theorem writes_eq {n : Nat} {d : Nat → BitVec 64} (h : t.data = (List.range n).map d) :
    t.writes = (List.range n).map fun j => (t.addr + BitVec.ofNat 64 (8 * j), d j) := by
  rw [writes, h]
  refine List.ext_getElem (by simp) fun j h1 h2 => ?_
  simp

/-- Two beats more than words, for each packet. -/
theorem length_flatMap_beats (ts : List MemWrite) :
    (ts.flatMap beats).length = 2 * ts.length + (ts.flatMap writes).length := by
  induction ts with
  | nil => rfl
  | cons t ts ih =>
      rw [List.flatMap_cons, List.length_append, ih, List.flatMap_cons, List.length_append,
        length_writes]
      simp [beats]
      omega

/-- One `tlast` for each packet. -/
theorem countP_tlast (ts : List MemWrite) : (ts.flatMap beats).countP Beat.tlast = ts.length := by
  induction ts with
  | nil => rfl
  | cons t ts ih =>
      rw [List.flatMap_cons, List.countP_append, ih]
      simp [beats, Nat.add_comm]

/-- The words written are on the stream. -/
theorem length_writes_le_countP (q : BitVec 64 → Bool) (h : ∀ w, w ∈ ts.flatMap writes → q w.2 = true) :
    (ts.flatMap writes).length ≤ (ts.flatMap beats).countP fun b => q b.tdata := by
  induction ts with
  | nil => exact Nat.le_refl _
  | cons t ts ih =>
      have hdata : ∀ d, d ∈ t.data → q d = true := by
        intro d hd
        obtain ⟨j, hj, rfl⟩ := List.getElem_of_mem hd
        have hw : t.writes[j]? = some (t.addr + BitVec.ofNat 64 (8 * j), t.data[j]) := by
          rw [writes, List.getElem?_mapIdx, List.getElem?_eq_getElem hj]
          rfl
        exact h _ (List.mem_append_left _ (List.mem_of_getElem? hw))
      have hcount : t.data.length ≤ t.beats.countP fun b => q b.tdata := by
        have hbeats : (t.data.map fun d => (⟨d, 0xFF, false⟩ : Beat)).countP (fun b => q b.tdata) =
            t.data.length := by
          rw [List.countP_map]
          exact List.countP_eq_length.mpr hdata
        rw [← hbeats, beats, data, List.map_append, List.countP_cons, List.countP_cons,
          List.countP_append, List.countP_append]
        exact Nat.le_add_right_of_le (Nat.le_add_right _ _)
      have ih := ih fun w hw => h w (List.mem_append_right _ hw)
      rw [List.flatMap_cons, List.length_append, List.flatMap_cons, List.countP_append,
        length_writes]
      rw [data, List.length_append, List.length_singleton] at hcount
      omega

end Beats

/-! ## blocks -/

/-- A numbered list in `m` blocks of `c`, and a rest of `r`. -/
theorem map_range_blocks (g : Nat → α) (c m r : Nat) :
    (List.range (c * m + r)).map g =
      ((List.range m).flatMap fun k => (List.range c).map fun j => g (c * k + j)) ++
        (List.range r).map fun j => g (c * m + j) := by
  have hblocks : (List.range (c * m)).map g =
      (List.range m).flatMap fun k => (List.range c).map fun j => g (c * k + j) := by
    induction m with
    | zero => simp
    | succ m ih =>
        rw [Nat.mul_succ, List.range_add, List.map_append, ih, List.range_succ, List.flatMap_append,
          List.map_map]
        simp [Function.comp_def]
  rw [List.range_add, List.map_append, hblocks, List.map_map]
  rfl

/-! ## framing -/

/-- The data beats end at the first `tlast`. -/
theorem data_beats_inj {l l' : List (BitVec 64)} {d d' : BitVec 64} {r r' : List Beat}
    (h : l.map (fun d => ⟨d, 0xFF, false⟩) ++ ⟨d, 0xFF, true⟩ :: r =
      l'.map (fun d => ⟨d, 0xFF, false⟩) ++ ⟨d', 0xFF, true⟩ :: r') : l = l' ∧ d = d' ∧ r = r' := by
  induction l generalizing l' with
  | nil =>
      cases l' with
      | nil => simpa using h
      | cons x l' => simp at h
  | cons x l ih =>
      cases l' with
      | nil => simp at h
      | cons x' l' =>
          simp only [List.map_cons, List.cons_append, List.cons.injEq, Beat.mk.injEq] at h
          obtain ⟨rfl, hd, hr⟩ := ih h.2
          exact ⟨by rw [h.1.1], hd, hr⟩

/-- **Framing**: the packets are known from their beats. -/
theorem flatMap_beats_inj {ts ts' : List MemWrite} (h : ts.flatMap beats = ts'.flatMap beats) :
    ts = ts' := by
  induction ts generalizing ts' with
  | nil =>
      cases ts' with
      | nil => rfl
      | cons t' ts' => simp [beats] at h
  | cons t ts ih =>
      cases ts' with
      | nil => simp [beats] at h
      | cons t' ts' =>
          obtain ⟨hdr, addr, init, last⟩ := t
          obtain ⟨hdr', addr', init', last'⟩ := t'
          simp only [List.flatMap_cons, beats, List.cons_append, List.append_assoc, List.nil_append,
            List.cons.injEq, Beat.mk.injEq] at h
          obtain ⟨⟨rfl, -⟩, ⟨rfl, -⟩, hdata⟩ := h
          obtain ⟨rfl, rfl, hrest⟩ := data_beats_inj hdata
          rw [ih hrest]

end MemWrite

end Hdl
