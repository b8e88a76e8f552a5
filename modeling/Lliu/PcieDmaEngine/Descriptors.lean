import Lliu.PcieDmaEngine.Tlp
import Lliu.PcieDmaEngine.Trigger

/-!
# Lliu.PcieDmaEngine.Descriptors

The buffers of the host, and the TLPs sent to them in a run of the engine, whatever the
host writes to BAR0 and when.  A transfer goes to the address of the descriptor that was
read for it (`Serves.step`), but the length of the descriptor is not used: 8000 bytes are
sent for any length.  A TLP stays inside the buffer exactly if the descriptor has room for
it (`stays_inside_iff`), and all of a transfer does if the buffer is aligned and as long
as a snapshot (`fits_all_iff`).
-/

namespace Lliu

open Hdl

namespace PcieUser

/-- A descriptor `d` has room for TLP `k` of a snapshot. -/
def Fits (d : BitVec 96) (k : Nat) : Prop :=
  (descHostAddr d).toNat + 128 * k < 2 ^ 64 ∧ (k = 0 → (descHostAddr d).toNat % 4 = 0) ∧
    128 * k + 8 * dataBeats k ≤ (descByteLen d).toNat + (descHostAddr d).toNat % 4

/-- It has room for all of them if it is aligned and as long as a snapshot, and does not
reach over the end of the address space. -/
theorem fits_all_iff (d : BitVec 96) : (∀ k, k ≤ 62 → Fits d k) ↔
    (descHostAddr d).toNat % 4 = 0 ∧ 8000 ≤ (descByteLen d).toNat ∧
      (descHostAddr d).toNat + 7936 < 2 ^ 64 := by
  constructor
  · intro h
    obtain ⟨-, halign, -⟩ := h 0 (by decide)
    obtain ⟨hroom, -, hlen⟩ := h 62 (by decide)
    have hbeats : dataBeats 62 = 8 := rfl
    exact ⟨halign rfl, by rw [hbeats, halign rfl] at hlen; omega, by omega⟩
  · intro h k hk
    have hbeats : 128 * k + 8 * dataBeats k ≤ 8000 := by
      unfold dataBeats
      split <;> omega
    exact ⟨by omega, fun _ => h.1, by omega⟩

/-- The state machine serves descriptor `d`: it has been read from the ring, and the
transfer goes to its address.  The header of a TLP stays in the register until its address
is put. -/
structure Serves (s : PcieUser) (d : BitVec 96) : Prop where
  lat : s.dmaState = .dmaDescrLat → s.descRdData = d
  tlp : s.dmaState = .dmaTlp → descValidBit d = true ∧ ∃ p, p ≤ 1125 ∧
    InTlp s (descHostAddr d) p ∧ (p % 18 = 1 →
      s.axTxTdata.extractLsb' 32 10 = BitVec.ofNat 10 (2 * dataBeats (p / 18)))

section Serves

variable {s : PcieUser} {d : BitVec 96}

/-- Outside a transfer no descriptor is served. -/
theorem Serves.none (hlat : s.dmaState ≠ .dmaDescrLat) (htlp : s.dmaState ≠ .dmaTlp) : Serves s d :=
  ⟨fun h => absurd h hlat, fun h => absurd h htlp⟩

/-- An armed descriptor is served from beat 0 on. -/
theorem Serves.step_descrLat (h : Serves s d) (hst : s.dmaState = .dmaDescrLat) (u : PcieUserIn) :
    Serves (s.step u) d := by
  cases hvalid : descValidBit s.descRdData with
  | true =>
      have hin := (InTlp.start hst hvalid u).1
      rw [h.lat hst] at hvalid hin
      refine ⟨fun hlat => ?_, fun _ => ⟨hvalid, 0, by decide, hin, fun hr => by omega⟩⟩
      rw [hin.state] at hlat
      cases hlat
  | false =>
      have hnext : (s.step u).dmaState = .dmaIdle := by
        simp [PcieUser.step, stepDma, hst, stepDescrLat, hvalid]
      exact Serves.none (by simp [hnext]) (by simp [hnext])

/-- A transfer goes on to serve its descriptor. -/
theorem Serves.step_tlp (h : Serves s d) (hst : s.dmaState = .dmaTlp) (u : PcieUserIn) :
    Serves (s.step u) d := by
  obtain ⟨hvalid, p, hp, hin, hhdr⟩ := h.tlp hst
  have hnext : (s.step u).dmaState = .dmaTlp ∨ (s.step u).dmaState = .dmaIdle := by
    rw [PcieUser.step, stepDma, hst]
    exact stepTlp_dmaState _ _ _ (by simp [advance, hst])
  refine ⟨fun hlat => by simp [hlat] at hnext, fun htlp => ⟨hvalid, ?_⟩⟩
  cases hgo : go u.ip with
  | false =>
      obtain ⟨-, hdata, hin'⟩ := hin.step_stall hgo
      exact ⟨p, hp, hin', by rwa [hdata]⟩
  | true =>
      obtain ⟨hput, hin', hend⟩ := hin.step_go hp hgo
      have hlt : p < 1125 := Nat.lt_of_le_of_ne hp fun heq => by
        rw [hend heq] at htlp
        cases htlp
      refine ⟨p + 1, hlt, hin' hlt, fun hr => ?_⟩
      rw [hput.tdata, beatWord_header (by omega), headerBeat_length,
        show (p + 1) / 18 = p / 18 by omega]

/-- **One cycle**: the descriptor that is served is the one at the read pointer in
`DMA_DESCR`, until the next one. -/
theorem Serves.step (h : Serves s d) (u : PcieUserIn) :
    Serves (s.step u) (if s.dmaState = .dmaDescr then s.descRing s.descRdPtr else d) := by
  cases hst : s.dmaState with
  | dmaIdle =>
      have hnext : (s.step u).dmaState = .dmaTrig ∨ (s.step u).dmaState = .dmaIdle := by
        simp only [PcieUser.step, stepDma, hst]
        split <;> simp
      exact Serves.none (by grind) (by grind)
  | dmaTrig =>
      have hnext : (s.step u).dmaState = .dmaCaptWait := by simp [PcieUser.step, stepDma, hst]
      exact Serves.none (by simp [hnext]) (by simp [hnext])
  | dmaCaptWait =>
      have hnext : (s.step u).dmaState = .dmaDescr ∨ (s.step u).dmaState = .dmaCaptWait := by
        simp only [PcieUser.step, stepDma, hst]
        split <;> simp [advance, hst]
      exact Serves.none (by grind) (by grind)
  | dmaDescr =>
      have hnext : (s.step u).dmaState = .dmaDescrLat := by simp [PcieUser.step, stepDma, hst]
      have hread : (s.step u).descRdData = s.descRing s.descRdPtr := by
        rw [PcieUser.step, stepDma_eq, stepRx_eq]
        rfl
      exact ⟨fun _ => hread, fun htlp => by simp [hnext] at htlp⟩
  | dmaDescrLat => exact h.step_descrLat hst u
  | dmaTlp => exact h.step_tlp hst u

end Serves

end PcieUser

/-! ## the TLPs of a run -/

namespace PcieDmaEngine

open PcieUser

/-- The descriptor that is served at time `n`: the one last read in `DMA_DESCR`. -/
def serving (e : Nat → PcieEdge) : Nat → BitVec 96
  | 0 => 0
  | n + 1 =>
      if (e n).userEdge && (trace e n).user.dmaState == .dmaDescr then
        (trace e n).user.descRing (trace e n).user.descRdPtr
      else serving e n

/-- At time `n` the address of a TLP is put, after its header: the TLP is sent. -/
def sends (e : Nat → PcieEdge) (n : Nat) : Bool :=
  (e n).userEdge && (trace e n).user.dmaState == .dmaTlp && (trace e n).user.tlpBeatCnt == 1 &&
    go (e n).ip

/-- The first byte that it writes, from the address beat. -/
def firstByte (e : Nat → PcieEdge) (n : Nat) : Nat := (trace e (n + 1)).user.axTxTdata.toNat

/-- The bytes that it writes, from the length field of its header. -/
def byteCount (e : Nat → PcieEdge) (n : Nat) : Nat :=
  4 * ((trace e n).user.axTxTdata.extractLsb' 32 10).toNat

/-- The TLP sent at time `n` writes inside the buffer of the descriptor. -/
def Inside (e : Nat → PcieEdge) (n : Nat) : Prop :=
  ∀ a, firstByte e n ≤ a → a < firstByte e n + byteCount e n →
    (descHostAddr (serving e n)).toNat ≤ a ∧
      a < (descHostAddr (serving e n)).toNat + (descByteLen (serving e n)).toNat

/-- No TLP of the run writes outside the buffer of the armed descriptor it serves. -/
def StaysInside (e : Nat → PcieEdge) : Prop :=
  ∀ n, sends e n = true → descValidBit (serving e n) = true ∧ Inside e n

section Run

variable {e : Nat → PcieEdge} {n : Nat}

theorem serving_succ (n : Nat) : serving e (n + 1) =
    if (e n).userEdge && (trace e n).user.dmaState == .dmaDescr then
      (trace e n).user.descRing (trace e n).user.descRdPtr
    else serving e n := rfl

/-- **Run lemma**: the engine serves the descriptor it has read. -/
theorem serves (e : Nat → PcieEdge) (n : Nat) : Serves (trace e n).user (serving e n) := by
  induction n with
  | zero =>
      have hidle : (trace e 0).user.dmaState = .dmaIdle := rfl
      exact Serves.none (by simp [hidle]) (by simp [hidle])
  | succ n ih =>
      rw [trace_succ, PcieDmaEngine.step, serving]
      cases huser : (e n).userEdge with
      | true =>
          have hstep := ih.step ((trace e n).userIn (e n))
          simpa using hstep
      | false => simpa using ih

/-- A TLP that is sent: its number, its address and its length. -/
theorem sends_spec (h : sends e n = true) : ∃ k, k ≤ 62 ∧ (trace e n).user.tlpNum.toNat = k ∧
    descValidBit (serving e n) = true ∧ byteCount e n = 8 * dataBeats k ∧
    firstByte e n = ((descHostAddr (serving e n)).toNat + 128 * k) % 2 ^ 64 / 4 * 4 := by
  simp only [sends, Bool.and_eq_true, beq_iff_eq] at h
  obtain ⟨⟨⟨huser, hst⟩, hcnt⟩, hgo⟩ := h
  obtain ⟨hvalid, p, hp, hin, hhdr⟩ := (serves e n).tlp hst
  have hr := hin.address_iff.mp hcnt
  have hbeats := dataBeats_bounds (p / 18)
  have hput := (hin.step_go (u := (trace e n).userIn (e n)) hp hgo).1
  refine ⟨p / 18, by omega, ?_, hvalid, ?_, ?_⟩
  · rw [hin.num, BitVec.toNat_ofNat, Nat.mod_eq_of_lt (by omega)]
  · rw [byteCount, hhdr hr, BitVec.toNat_ofNat, Nat.mod_eq_of_lt (by omega)]
    omega
  · rw [firstByte, trace_succ, PcieDmaEngine.step, huser, if_pos rfl, hput.tdata,
      beatWord_address hr, toNat_addressBeat, BitVec.toNat_add, BitVec.toNat_ofNat]
    omega

/-- It writes inside the buffer if the descriptor has room for it. -/
theorem inside_iff (h : sends e n = true) :
    Inside e n ↔ Fits (serving e n) (trace e n).user.tlpNum.toNat := by
  obtain ⟨k, hk, hnum, -, hcount, hfirst⟩ := sends_spec h
  have hbeats := dataBeats_bounds k
  have hhost := (descHostAddr (serving e n)).isLt
  rw [Inside, hcount, hnum, Fits]
  constructor
  · intro hinside
    have hlow := hinside (firstByte e n) (Nat.le_refl _) (by omega)
    have hhigh := hinside (firstByte e n + 8 * dataBeats k - 1) (by omega) (by omega)
    omega
  · intro hfits a hge hlt
    rw [Nat.mod_eq_of_lt hfits.1] at hfirst
    have halign := hfits.2.1
    omega

/-- Buffers that are aligned and as long as a snapshot are not overrun. -/
theorem stays_inside_of_snapshot (h : ∀ n, sends e n = true →
    (descHostAddr (serving e n)).toNat % 4 = 0 ∧ 8000 ≤ (descByteLen (serving e n)).toNat ∧
      (descHostAddr (serving e n)).toNat + 7936 < 2 ^ 64) : StaysInside e := by
  intro n hn
  obtain ⟨k, hk, hnum, hvalid, -⟩ := sends_spec hn
  refine ⟨hvalid, (inside_iff hn).mpr ?_⟩
  rw [hnum]
  exact (fits_all_iff _).mpr (h n hn) k hk

/-- **The engine stays inside the buffers** of a run exactly if each descriptor that it
serves has room for every TLP that is sent to it. -/
theorem stays_inside_iff (e : Nat → PcieEdge) : StaysInside e ↔
    ∀ n, sends e n = true → Fits (serving e n) (trace e n).user.tlpNum.toNat := by
  constructor
  · exact fun h n hn => (inside_iff hn).mp (h n hn).2
  · intro h n hn
    obtain ⟨-, -, -, hvalid, -⟩ := sends_spec hn
    exact ⟨hvalid, (inside_iff hn).mpr (h n hn)⟩

end Run

/-! ## a buffer that is too short -/

/-- The host arms a descriptor for 64 bytes at `0x10000000`, and sets `dma_en`. -/
def shortBuffer : Nat → PcieEdge
  | 0 => rxEdge 0x4000000100000000#64 false
  | 1 => rxEdge 0x00C#64 false
  | 2 => rxEdge 0x10000000#64 true
  | 3 => rxEdge 0x4000000100000000#64 false
  | 4 => rxEdge 0x014#64 false
  | 5 => rxEdge 64#64 true
  | 6 => rxEdge 0x4000000100000000#64 false
  | 7 => rxEdge 0x000#64 false
  | 8 => rxEdge 0x00000001#64 true
  | _ => idleEdge

theorem shortBuffer_idle {n : Nat} (h : 9 ≤ n) (k : Nat) : shortBuffer (n + k) = idleEdge := by
  obtain ⟨m, rfl⟩ := Nat.exists_eq_add_of_le h
  rw [Nat.add_assoc, Nat.add_comm]
  rfl

/-- The first period, and what follows. -/
theorem shortBuffer_first (k : Nat) : trace shortBuffer (2499999 + k) =
    run step ((trace shortBuffer 9).setTimer 2499999#22) (fun _ => idleEdge) k := by
  have hquiet : (trace shortBuffer 9).Quiet := by decide +kernel
  have htimer : (trace shortBuffer 9).user.periodicTimer = BitVec.ofNat 22 9 := by decide +kernel
  exact trace_tick (x := idleEdge.snap) (shortBuffer_idle (Nat.le_refl 9)) hquiet htimer (by decide) k

/-- The descriptor of the host is served. -/
theorem shortBuffer_serving : serving shortBuffer 2500015 = armed 0 0x10000000 64 := by
  have hdescr : ((shortBuffer 2500012).userEdge &&
      (trace shortBuffer 2500012).user.dmaState == .dmaDescr) = true := by
    rw [shortBuffer_first 13]
    decide +kernel
  have hlat : ((shortBuffer 2500013).userEdge &&
      (trace shortBuffer 2500013).user.dmaState == .dmaDescr) = false := by
    rw [shortBuffer_first 14]
    decide +kernel
  have htlp : ((shortBuffer 2500014).userEdge &&
      (trace shortBuffer 2500014).user.dmaState == .dmaDescr) = false := by
    rw [shortBuffer_first 15]
    decide +kernel
  have hring : (trace shortBuffer 2500012).user.descRing (trace shortBuffer 2500012).user.descRdPtr =
      armed 0 0x10000000 64 := by
    rw [shortBuffer_first 13]
    decide +kernel
  rw [serving_succ 2500014, htlp, if_neg Bool.false_ne_true, serving_succ 2500013, hlat,
    if_neg Bool.false_ne_true, serving_succ 2500012, hdescr, if_pos rfl, hring]

/-- The first TLP has 128 bytes: the buffer is overrun. -/
theorem shortBuffer_overrun : ¬ StaysInside shortBuffer := by
  intro h
  have hsends : sends shortBuffer 2500015 = true := by
    rw [sends, shortBuffer_first 16]
    decide +kernel
  have hnum : (trace shortBuffer 2500015).user.tlpNum.toNat = 0 := by
    rw [shortBuffer_first 16]
    decide +kernel
  have hfits := (inside_iff hsends).mp (h _ hsends).2
  rw [hnum, shortBuffer_serving] at hfits
  exact absurd hfits.2.2 (by decide)

end PcieDmaEngine

end Lliu
