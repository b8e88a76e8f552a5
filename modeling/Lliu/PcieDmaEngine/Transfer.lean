import Lliu.Hdl.MemWrite
import Lliu.Hdl.Stream
import Lliu.PcieDmaEngine.Tlp

/-!
# Lliu.PcieDmaEngine.Transfer

A transfer of the staging buffer to the host, beat by beat.  Two things can go wrong.

* A beat is on the bus for one cycle.  If the IP is not ready then, it is lost.
* A data word takes two cycles from its address, so the beat that is put in the cycle
  after another one has the word before it (`fetched`).

The transfer writes the staging buffer to the host exactly if the pattern of the IP avoids
both and the address is one of a double word (`delivers_iff`).
-/

namespace Lliu

open Hdl

namespace PcieUser

/-! ## a transfer -/

/-- A transfer: the registers in `DMA_DESCR_LAT`, with an armed descriptor, the inputs
there, and the inputs from then on. -/
structure Transfer where
  descr : PcieUser
  descrIn : PcieUserIn
  ip : Nat → PcieIpIn
  captDoneToggleSc : Nat → Bool
  descrLat : descr.dmaState = .dmaDescrLat
  descValid : descValidBit descr.descRdData = true

namespace Transfer

/-- The address of the descriptor. -/
def hostAddr (x : Transfer) : BitVec 64 := descHostAddr x.descr.descRdData

/-- The inputs in cycle `n`, with the staging buffer `mem`. -/
def userIn (x : Transfer) (mem : BitVec 10 → BitVec 64) (n : Nat) : PcieUserIn where
  ip := x.ip n
  captDoneToggleSc := x.captDoneToggleSc n
  stagingMem := mem

/-- The registers in cycle `n`. -/
def trace (x : Transfer) (mem : BitVec 10 → BitVec 64) (n : Nat) : PcieUser :=
  run step (x.descr.step x.descrIn) (x.userIn mem) n

/-- A beat is put in cycle `n`, for the bus in the next one. -/
def goes (x : Transfer) (n : Nat) : Bool := go (x.ip n)

/-- The beats put before cycle `n`. -/
def puts (x : Transfer) (n : Nat) : Nat := count x.goes n

/-- The last beat is put in cycle `n`. -/
structure Ends (x : Transfer) (n : Nat) : Prop where
  goes : x.goes n = true
  puts : x.puts n = 1125

/-- The beat that the IP accepts: `tvalid` and `tready` are both high. -/
def accepted (s : PcieUser) (i : PcieIpIn) : Option Beat :=
  if s.axTxTvalid && i.axTxTready then some ⟨s.axTxTdata, s.axTxTkeep, s.axTxTlast⟩ else none

/-- The beats accepted before cycle `n`. -/
def beats (x : Transfer) (mem : BitVec 10 → BitVec 64) (n : Nat) : List Beat :=
  collect (fun k => accepted (x.trace mem k) (x.ip k)) n

/-- The snapshot at its place in the host's memory. -/
def snapshot (host : BitVec 64) (mem : BitVec 10 → BitVec 64) : List (BitVec 64 × BitVec 64) :=
  (List.range snapBeats).map fun i => (host + BitVec.ofNat 64 (8 * i), mem (BitVec.ofNat 10 i))

/-- The transfer that ends in cycle `n` delivers the staging buffer: the beats accepted
are memory writes, each with the length of its data, that write every word of the buffer
to its place, once, and nothing else. -/
def Delivers (x : Transfer) (mem : BitVec 10 → BitVec 64) (n : Nat) : Prop :=
  MemWrite.Write (x.beats mem (n + 2)) (snapshot x.hostAddr mem)

/-- What the transfer needs of the IP: it is ready in the cycle after each beat put, and
no data beat is put right after another beat, except for the first of all. -/
structure Paced (x : Transfer) (n : Nat) : Prop where
  ready : ∀ k, k ≤ n → x.goes k = true → (x.ip (k + 1)).axTxTready = true
  apart : ∀ k, k < n → x.goes (k + 1) = true → isData (x.puts (k + 1)) = true →
    x.puts (k + 1) ≠ 2 → x.goes k = false

section Run

variable {x : Transfer} {mem : BitVec 10 → BitVec 64} {n N : Nat}

/-! ## the run of a transfer -/

theorem trace_succ (n : Nat) :
    x.trace mem (n + 1) = (x.trace mem n).step (x.userIn mem n) := rfl

theorem puts_succ (n : Nat) : x.puts (n + 1) = x.puts n + (x.goes n).toNat := count_succ _ _

theorem Ends.puts_le (h : x.Ends N) (hn : n ≤ N) : x.puts n ≤ 1125 := by
  rw [← h.puts]
  exact count_mono _ hn

/-- The next beat follows if there is one. -/
theorem Ends.puts_lt (h : x.Ends N) (hn : n < N) (hgo : x.goes n = true) : x.puts n < 1125 := by
  have hle := h.puts_le hn
  rw [Nat.succ_eq_add_one, puts_succ, hgo, Bool.toNat_true] at hle
  omega

theorem Ends.puts_end (h : x.Ends N) : x.puts (N + 1) = 1126 := by
  rw [puts_succ, h.goes, h.puts]
  rfl

theorem inTlp_zero (x : Transfer) (mem : BitVec 10 → BitVec 64) :
    InTlp (x.trace mem 0) x.hostAddr 0 ∧ (x.trace mem 0).axTxTvalid = false :=
  InTlp.start x.descrLat x.descValid x.descrIn

/-- **Run lemma**: beat `puts n` is next in cycle `n`, until the last one is put. -/
theorem inTlp_of_lt (mem : BitVec 10 → BitVec 64)
    (h : ∀ k, k < n → x.goes k = true → x.puts k < 1125) :
    InTlp (x.trace mem n) x.hostAddr (x.puts n) ∧ x.puts n ≤ 1125 := by
  induction n with
  | zero => exact ⟨(inTlp_zero x mem).1, Nat.zero_le _⟩
  | succ n ih =>
      obtain ⟨ih, hle⟩ := ih fun k hk => h k (by omega)
      rw [puts_succ, trace_succ]
      cases hgo : x.goes n with
      | true =>
          have hlt := h n (Nat.lt_succ_self n) hgo
          obtain ⟨-, hnext, -⟩ := ih.step_go (u := x.userIn mem n) hle hgo
          exact ⟨hnext hlt, hlt⟩
      | false => exact ⟨(ih.step_stall (u := x.userIn mem n) hgo).2.2, hle⟩

theorem Ends.inTlp (h : x.Ends N) (mem : BitVec 10 → BitVec 64) (hn : n ≤ N) :
    InTlp (x.trace mem n) x.hostAddr (x.puts n) :=
  (inTlp_of_lt mem fun k hk hgo => h.puts_lt (by omega) hgo).1

/-- The last beat is put in the last cycle that the state machine spends in `DMA_TLP`. -/
theorem ends_iff (x : Transfer) (mem : BitVec 10 → BitVec 64) (N : Nat) :
    x.Ends N ↔ (∀ n, n ≤ N → (x.trace mem n).dmaState = .dmaTlp) ∧
      (x.trace mem (N + 1)).dmaState = .dmaIdle := by
  constructor
  · intro h
    have hin := h.inTlp mem (Nat.le_refl N)
    rw [h.puts] at hin
    obtain ⟨-, -, hend⟩ := hin.step_go (u := x.userIn mem N) (Nat.le_refl 1125) h.goes
    exact ⟨fun n hn => (h.inTlp mem hn).state, hend rfl⟩
  · intro ⟨htlp, hidle⟩
    have hlt : ∀ k, k < N → x.goes k = true → x.puts k < 1125 := by
      intro k hk hgo
      induction k using Nat.strong_induction_on with
      | _ k ih =>
          obtain ⟨hin, hle⟩ := inTlp_of_lt mem fun j hj hgoj => ih j hj (by omega) hgoj
          obtain ⟨-, -, hend⟩ := hin.step_go (u := x.userIn mem k) hle hgo
          refine Nat.lt_of_le_of_ne hle fun heq => ?_
          have hst := htlp (k + 1) hk
          rw [trace_succ, hend heq] at hst
          cases hst
    obtain ⟨hin, hle⟩ := inTlp_of_lt mem hlt
    rw [trace_succ] at hidle
    cases hgo : x.goes N with
    | true =>
        obtain ⟨-, hnext, -⟩ := hin.step_go (u := x.userIn mem N) hle hgo
        refine ⟨hgo, Nat.le_antisymm hle (Nat.le_of_not_lt fun hlt => ?_)⟩
        rw [(hnext hlt).state] at hidle
        cases hidle
    | false =>
        rw [(hin.step_stall (u := x.userIn mem N) hgo).2.2.state] at hidle
        cases hidle

/-- The beat put in cycle `n`. -/
def beatAt (x : Transfer) (mem : BitVec 10 → BitVec 64) (n : Nat) : Beat where
  tdata := beatWord x.hostAddr (reqId (x.ip n)) (x.puts n) (x.trace mem n).stgRdData
  tkeep := 0xFF
  tlast := lastData (x.puts n)

/-- It is accepted if the IP is ready in the next cycle. -/
theorem Ends.accepted_succ (h : x.Ends N) (hn : n ≤ N) :
    accepted (x.trace mem (n + 1)) (x.ip (n + 1)) =
      if x.goes n && (x.ip (n + 1)).axTxTready then some (x.beatAt mem n) else none := by
  have hin := h.inTlp mem hn
  cases hgo : x.goes n with
  | true =>
      obtain ⟨hvalid, hdata, hkeep, hlast⟩ := (hin.step_go (u := x.userIn mem n) (h.puts_le hn) hgo).1
      rw [accepted, trace_succ, hvalid, hdata, hkeep, hlast]
      rfl
  | false =>
      have hvalid := (hin.step_stall (u := x.userIn mem n) hgo).1
      rw [accepted, trace_succ, hvalid]
      rfl

/-- The beats of a transfer. -/
theorem Ends.beats_eq (h : x.Ends N) : x.beats mem (N + 2) =
    collect (fun k => if x.goes k && (x.ip (k + 1)).axTxTready then some (x.beatAt mem k) else none)
      (N + 1) := by
  have hfirst : accepted (x.trace mem 0) (x.ip 0) = none := by
    rw [accepted, (inTlp_zero x mem).2]
    rfl
  rw [beats, collect_front, hfirst]
  exact collect_congr fun k hk => h.accepted_succ (by omega)

/-- The word that a data beat has. -/
theorem Ends.stgRdData_succ (h : x.Ends N) (hn : n ≤ N) :
    (x.trace mem (n + 1)).stgRdData = mem (BitVec.ofNat 10 (fetchPtr (x.puts n))) := by
  rw [← (h.inTlp mem hn).ptr, trace_succ]
  exact step_stgRdData _ _

/-! ### where all beats are accepted -/

/-- The cycle in which beat `p` is put. -/
noncomputable def cycle (x : Transfer) (p : Nat) : Nat := nthCycle x.goes p

theorem Ends.cycle_spec (h : x.Ends N) {p : Nat} (hp : p < 1126) :
    x.cycle p ≤ N ∧ x.goes (x.cycle p) = true ∧ x.puts (x.cycle p) = p := by
  have hlt : p < count x.goes (N + 1) := by
    rw [← Transfer.puts, h.puts_end]
    exact hp
  obtain ⟨hn, hgo, hputs⟩ := nthCycle_spec hlt
  exact ⟨Nat.le_of_lt_succ hn, hgo, hputs⟩

/-- If the IP is ready after each beat put, the beats are accepted one after the other. -/
theorem Ends.beats_of_ready (h : x.Ends N)
    (hready : ∀ k, k ≤ N → x.goes k = true → (x.ip (k + 1)).axTxTready = true) :
    x.beats mem (N + 2) = (List.range 1126).map fun p => x.beatAt mem (x.cycle p) := by
  have hcollect : ∀ k, k < N + 1 →
      (if x.goes k && (x.ip (k + 1)).axTxTready then some (x.beatAt mem k) else none) =
        if x.goes k then some (x.beatAt mem k) else none := by
    intro k hk
    cases hgo : x.goes k with
    | true => rw [hready k (by omega) hgo, Bool.true_and]
    | false => rfl
  rw [h.beats_eq, collect_congr hcollect, collect_eq_map, ← Transfer.puts, h.puts_end]
  rfl

/-! ### the memory writes -/

/-- The data word of beat `p`. -/
noncomputable def dataAt (x : Transfer) (mem : BitVec 10 → BitVec 64) (p : Nat) : BitVec 64 :=
  (x.trace mem (x.cycle p)).stgRdData

/-- TLP `k` of the transfer. -/
noncomputable def tlp (x : Transfer) (mem : BitVec 10 → BitVec 64) (k : Nat) : MemWrite where
  hdr := headerBeat (BitVec.ofNat 10 (2 * dataBeats k)) (reqId (x.ip (x.cycle (18 * k))))
  addr := addressBeat (x.hostAddr + BitVec.ofNat 64 (128 * k))
  init := (List.range (dataBeats k - 1)).map fun j => x.dataAt mem (18 * k + (2 + j))
  last := x.dataAt mem (18 * k + (2 + (dataBeats k - 1)))

theorem tlp_data (k : Nat) : (x.tlp mem k).data =
    (List.range (dataBeats k)).map fun j => x.dataAt mem (18 * k + (2 + j)) := by
  have hpos := (dataBeats_bounds k).1
  have hsucc : List.range (dataBeats k) = List.range (dataBeats k - 1) ++ [dataBeats k - 1] := by
    rw [← List.range_succ]
    congr 1
    omega
  rw [hsucc, List.map_append]
  rfl

/-- Its headers are those of a memory write of its data. -/
theorem tlp_wellFormed (k : Nat) : (x.tlp mem k).WellFormed := by
  have hbounds := dataBeats_bounds k
  have hlength : (x.tlp mem k).lengthDw = BitVec.ofNat 10 (2 * dataBeats k) :=
    headerBeat_length _ _
  refine ⟨headerBeat_kind _ _, headerBeat_enables _ _, addressBeat_low _, ?_⟩
  rw [hlength, tlp_data, List.length_map, List.length_range, BitVec.toNat_ofNat]
  omega

theorem Ends.beatAt_cycle (h : x.Ends N) {p : Nat} (hp : p < 1126) : x.beatAt mem (x.cycle p) =
    ⟨beatWord x.hostAddr (reqId (x.ip (x.cycle p))) p (x.dataAt mem p), 0xFF, lastData p⟩ := by
  rw [beatAt, (h.cycle_spec hp).2.2]
  rfl

/-- The beats of TLP `k`. -/
theorem Ends.tlp_beats (h : x.Ends N) {k : Nat} (hk : k ≤ 62) :
    ((List.range (dataBeats k + 2)).map fun j => x.beatAt mem (x.cycle (18 * k + j))) =
      (x.tlp mem k).beats := by
  have hbounds := dataBeats_bounds k
  have hlt : k < 62 ∧ dataBeats k = 16 ∨ k = 62 ∧ dataBeats k = 8 := by
    unfold dataBeats
    split <;> omega
  have hrange : List.range (dataBeats k + 2) =
      [0, 1] ++ ((List.range (dataBeats k - 1)).map (2 + ·) ++ [2 + (dataBeats k - 1)]) := by
    rw [show dataBeats k + 2 = 2 + (dataBeats k - 1 + 1) by omega, List.range_add,
      List.range_succ (n := dataBeats k - 1), List.map_append]
    rfl
  have hhdr : x.beatAt mem (x.cycle (18 * k + 0)) = ⟨(x.tlp mem k).hdr, 0xFF, false⟩ := by
    rw [h.beatAt_cycle (by omega), beatWord_header (by omega), lastData_of_ne (by omega) (by omega),
      show (18 * k + 0) / 18 = k by omega]
    rfl
  have haddr : x.beatAt mem (x.cycle (18 * k + 1)) = ⟨(x.tlp mem k).addr, 0xFF, false⟩ := by
    rw [h.beatAt_cycle (by omega), beatWord_address (by omega), lastData_of_ne (by omega) (by omega),
      show (18 * k + 1) / 18 = k by omega]
    rfl
  have hdata : ∀ j, j < dataBeats k - 1 → x.beatAt mem (x.cycle (18 * k + (2 + j))) =
      ⟨x.dataAt mem (18 * k + (2 + j)), 0xFF, false⟩ := by
    intro j hj
    rw [h.beatAt_cycle (by omega), beatWord_data (by omega), lastData_of_ne (by omega) (by omega)]
  have hlast : x.beatAt mem (x.cycle (18 * k + (2 + (dataBeats k - 1)))) =
      ⟨(x.tlp mem k).last, 0xFF, true⟩ := by
    rw [h.beatAt_cycle (by omega), beatWord_data (by omega), lastData_iff.mpr (by omega)]
    rfl
  have hinit : ((List.range (dataBeats k - 1)).map (2 + ·)).map
      (fun j => x.beatAt mem (x.cycle (18 * k + j))) =
        (x.tlp mem k).init.map fun d => ⟨d, 0xFF, false⟩ := by
    rw [tlp, List.map_map, List.map_map]
    exact List.map_congr_left fun j hj => hdata j (List.mem_range.mp hj)
  rw [hrange, List.map_append, List.map_append, hinit, MemWrite.beats]
  simp only [List.map_cons, List.map_nil, hhdr, haddr, hlast]
  rfl

/-- The TLPs of the transfer. -/
noncomputable def tlps (x : Transfer) (mem : BitVec 10 → BitVec 64) : List MemWrite :=
  (List.range 63).map (x.tlp mem)

/-- The beat with word `i` of the snapshot. -/
def beatOf (i : Nat) : Nat := 18 * (i / 16) + (2 + i % 16)

theorem flatMap_tlps (f : MemWrite → List α) : (x.tlps mem).flatMap f =
    ((List.range 62).flatMap fun k => f (x.tlp mem k)) ++ f (x.tlp mem 62) := by
  rw [tlps, List.flatMap_map, List.range_succ, List.flatMap_append]
  simp

/-- The beats of all TLPs. -/
theorem Ends.tlps_beats (h : x.Ends N) :
    ((List.range 1126).map fun p => x.beatAt mem (x.cycle p)) =
      (x.tlps mem).flatMap MemWrite.beats := by
  have hfull : ∀ k ∈ List.range 62, ((List.range 18).map fun j => x.beatAt mem (x.cycle (18 * k + j))) =
      (x.tlp mem k).beats := by
    intro k hk
    have hlt := List.mem_range.mp hk
    have hbeats : dataBeats k + 2 = 18 := by
      unfold dataBeats
      rw [if_neg (by omega)]
    rw [← h.tlp_beats (by omega), hbeats]
  have hlast : ((List.range 10).map fun j => x.beatAt mem (x.cycle (18 * 62 + j))) =
      (x.tlp mem 62).beats := h.tlp_beats (Nat.le_refl 62)
  rw [flatMap_tlps, ← hlast, ← List.flatMap_congr hfull]
  exact MemWrite.map_range_blocks (fun p => x.beatAt mem (x.cycle p)) 18 62 10

/-- The words that all TLPs write. -/
theorem tlps_writes (x : Transfer) (mem : BitVec 10 → BitVec 64) :
    (x.tlps mem).flatMap MemWrite.writes = (List.range 1000).map fun i =>
      ((x.tlp mem (i / 16)).addr + BitVec.ofNat 64 (8 * (i % 16)), x.dataAt mem (beatOf i)) := by
  have hblock : ∀ k, (x.tlp mem k).writes = (List.range (dataBeats k)).map fun j =>
      ((x.tlp mem ((16 * k + j) / 16)).addr + BitVec.ofNat 64 (8 * ((16 * k + j) % 16)),
        x.dataAt mem (beatOf (16 * k + j))) := by
    intro k
    have hbounds := dataBeats_bounds k
    rw [MemWrite.writes_eq (tlp_data k)]
    refine List.map_congr_left fun j hj => ?_
    have hlt := List.mem_range.mp hj
    rw [beatOf, show (16 * k + j) / 16 = k by omega, show (16 * k + j) % 16 = j by omega]
  have hfull : ∀ k ∈ List.range 62, ((List.range 16).map fun j =>
      ((x.tlp mem ((16 * k + j) / 16)).addr + BitVec.ofNat 64 (8 * ((16 * k + j) % 16)),
        x.dataAt mem (beatOf (16 * k + j)))) = (x.tlp mem k).writes := by
    intro k hk
    have hlt := List.mem_range.mp hk
    have hbeats : dataBeats k = 16 := by
      unfold dataBeats
      rw [if_neg (by omega)]
    rw [hblock, hbeats]
  rw [flatMap_tlps, hblock 62, ← List.flatMap_congr hfull]
  exact (MemWrite.map_range_blocks (fun i => ((x.tlp mem (i / 16)).addr +
    BitVec.ofNat 64 (8 * (i % 16)), x.dataAt mem (beatOf i))) 16 62 8).symm

/-! ### the word read for a beat -/

/-- The entry of the buffer that is read for data beat `p`. -/
noncomputable def fetched (x : Transfer) (p : Nat) : Nat := fetchPtr (x.puts (x.cycle p - 1))

theorem Ends.cycle_pos (h : x.Ends N) {p : Nat} (hp : p < 1126) (h2 : isData p = true) :
    ∃ m, x.cycle p = m + 1 := by
  have hputs := (h.cycle_spec hp).2.2
  cases hc : x.cycle p with
  | zero =>
      rw [hc] at hputs
      change 0 = p at hputs
      rw [← hputs] at h2
      cases h2
  | succ m => exact ⟨m, rfl⟩

theorem Ends.dataAt_eq (h : x.Ends N) {p : Nat} (hp : p < 1126) (h2 : isData p = true) :
    x.dataAt mem p = mem (BitVec.ofNat 10 (x.fetched p)) := by
  obtain ⟨m, hm⟩ := h.cycle_pos hp h2
  have hle := (h.cycle_spec hp).1
  rw [dataAt, fetched, hm]
  exact h.stgRdData_succ (by omega)

/-- It is the right one if no beat was put in the cycle before, and for beat 2. -/
theorem Ends.fetched_eq_iff (h : x.Ends N) {p : Nat} (hp : p < 1126) (h2 : isData p = true) :
    x.fetched p = 16 * (p / 18) + (p % 18 - 2) ↔ x.goes (x.cycle p - 1) = false ∨ p = 2 := by
  obtain ⟨m, hm⟩ := h.cycle_pos hp h2
  have hputs := (h.cycle_spec hp).2.2
  rw [hm, puts_succ] at hputs
  rw [isData, decide_eq_true_eq] at h2
  rw [fetched, hm, Nat.add_sub_cancel]
  cases hgo : x.goes m with
  | false =>
      rw [hgo, Bool.toNat_false, Nat.add_zero] at hputs
      simp [hputs, fetchPtr, h2]
  | true =>
      rw [hgo, Bool.toNat_true] at hputs
      simp only [fetchPtr, Bool.true_eq_false, false_or]
      split <;> omega

theorem Ends.fetched_lt (h : x.Ends N) {p : Nat} (hp : p < 1126) : x.fetched p < 1024 := by
  have hle := h.puts_le (n := x.cycle p - 1) (by have := (h.cycle_spec hp).1; omega)
  unfold fetched fetchPtr
  split <;> omega

theorem beatOf_spec {i : Nat} (hi : i < 1000) : beatOf i < 1126 ∧ isData (beatOf i) = true ∧
    16 * (beatOf i / 18) + (beatOf i % 18 - 2) = i := by
  unfold beatOf
  exact ⟨by omega, decide_eq_true (by omega), by omega⟩

/-! ## what is delivered -/

/-- The TLPs follow each other in the host's memory. -/
theorem tlp_addr (hhost : x.hostAddr.toNat % 4 = 0) (k : Nat) :
    (x.tlp mem k).addr = x.hostAddr + BitVec.ofNat 64 (128 * k) := by
  apply BitVec.eq_of_toNat_eq
  have hmul : (x.hostAddr + BitVec.ofNat 64 (128 * k)).toNat % 4 = 0 := by
    rw [BitVec.toNat_add, BitVec.toNat_ofNat]
    omega
  have hword : (x.tlp mem k).addr.toNat = _ :=
    toNat_addressBeat (x.hostAddr + BitVec.ofNat 64 (128 * k))
  omega

/-- **Enough**: a paced transfer to the address of a double word delivers the buffer. -/
theorem Ends.delivers (h : x.Ends N) (hhost : x.hostAddr.toNat % 4 = 0) (hpaced : x.Paced N)
    (mem : BitVec 10 → BitVec 64) : x.Delivers mem N := by
  have hdata : ∀ i, i < 1000 → x.dataAt mem (beatOf i) = mem (BitVec.ofNat 10 i) := by
    intro i hi
    obtain ⟨hp, h2, hindex⟩ := beatOf_spec hi
    have hfetch : x.fetched (beatOf i) = i := by
      refine ((h.fetched_eq_iff hp h2).mpr ?_).trans hindex
      by_cases hfirst : beatOf i = 2
      · exact .inr hfirst
      · obtain ⟨m, hm⟩ := h.cycle_pos hp h2
        obtain ⟨hle, hgo, hputs⟩ := h.cycle_spec hp
        rw [hm] at hle hgo hputs
        rw [hm, Nat.add_sub_cancel]
        exact .inl (hpaced.apart m (by omega) hgo (by rwa [hputs]) (by rwa [hputs]))
    rw [h.dataAt_eq hp h2, hfetch]
  refine ⟨x.tlps mem, ?_, ?_, ?_⟩
  · rw [h.beats_of_ready hpaced.ready, h.tlps_beats]
  · intro t ht
    obtain ⟨k, hk, rfl⟩ := List.mem_map.mp ht
    exact tlp_wellFormed k
  · rw [tlps_writes]
    refine List.Perm.of_eq (List.map_congr_left fun i hi => ?_)
    have hlt := List.mem_range.mp hi
    rw [tlp_addr hhost, hdata i hlt, BitVec.add_assoc, ← BitVec.ofNat_add,
      show 128 * (i / 16) + 8 * (i % 16) = 8 * i by omega]

/-! ## what it needs -/

/-- A staging buffer whose words are told from headers and addresses. -/
def marked (i : BitVec 10) : BitVec 64 := BitVec.ofNat 64 (8 * i.toNat + 1)

/-- Such a word. -/
def isMarked (w : BitVec 64) : Bool := w.toNat % 8 = 1

theorem isMarked_marked (i : BitVec 10) : isMarked (marked i) = true := by
  have hlt := i.isLt
  rw [isMarked, marked, BitVec.toNat_ofNat, decide_eq_true_eq]
  omega

theorem marked_inj {a b : Nat} (ha : a < 1024) (hb : b < 1024)
    (h : marked (BitVec.ofNat 10 a) = marked (BitVec.ofNat 10 b)) : a = b := by
  have hnat := congrArg BitVec.toNat h
  simp only [marked, BitVec.toNat_ofNat] at hnat
  omega

/-- Headers and addresses are not marked. -/
theorem isData_of_isMarked {host : BitVec 64} {id : BitVec 16} {p : Nat} {d : BitVec 64}
    (h : isMarked (beatWord host id p d) = true) : isData p = true := by
  rw [isMarked, decide_eq_true_eq] at h
  refine decide_eq_true (Nat.le_of_not_lt fun hlt => ?_)
  by_cases h0 : p % 18 = 0
  · have henables := congrArg BitVec.toNat
      (headerBeat_enables (BitVec.ofNat 10 (2 * dataBeats (p / 18))) id)
    rw [BitVec.extractLsb'_toNat, Nat.shiftRight_zero] at henables
    change _ % 256 = 255 at henables
    rw [beatWord_header h0] at h
    omega
  · rw [beatWord_address (by omega), toNat_addressBeat] at h
    omega

/-- Of the beats of a transfer, 1000 are data beats, and 63 the last ones of a TLP. -/
theorem count_beats : count isData 1126 = 1000 ∧ count lastData 1126 = 63 := by decide +kernel

theorem isData_of_lastData {p : Nat} (h : lastData p = true) : isData p = true := by
  have hlast := lastData_iff.mp h
  exact decide_eq_true (by omega)

theorem length_snapshot (host : BitVec 64) (mem : BitVec 10 → BitVec 64) :
    (snapshot host mem).length = 1000 := by
  rw [snapshot, List.length_map, List.length_range]
  rfl

/-- The beats put in the cycles of a kind. -/
theorem Ends.count_kind (h : x.Ends N) (f : Nat → Bool) :
    count (fun k => x.goes k && f (x.puts k)) (N + 1) = count f 1126 :=
  (count_ordinal x.goes f (N + 1)).trans (congrArg (count f) h.puts_end)

/-- The beats accepted of a kind. -/
theorem Ends.countP_beats (h : x.Ends N) (q : Beat → Bool) :
    (x.beats mem (N + 2)).countP q =
      count (fun k => x.goes k && (x.ip (k + 1)).axTxTready && q (x.beatAt mem k)) (N + 1) := by
  rw [h.beats_eq, countP_collect]
  congr 1
  funext k
  cases x.goes k && (x.ip (k + 1)).axTxTready <;> simp

/-- Every data beat of a transfer that delivers is accepted. -/
theorem Ends.ready_of_data (h : x.Ends N) {ts : List MemWrite}
    (hbeats : x.beats marked (N + 2) = ts.flatMap MemWrite.beats)
    (hperm : (ts.flatMap MemWrite.writes).Perm (snapshot x.hostAddr marked)) {k : Nat} (hk : k ≤ N)
    (hgo : x.goes k = true) (h2 : isData (x.puts k) = true) :
    (x.ip (k + 1)).axTxTready = true := by
  have hlength : (ts.flatMap MemWrite.writes).length = 1000 :=
    hperm.length_eq.trans (length_snapshot _ _)
  have hmarked : ∀ w, w ∈ ts.flatMap MemWrite.writes → isMarked w.2 = true := by
    intro w hw
    obtain ⟨i, -, rfl⟩ := List.mem_map.mp (hperm.mem_iff.mp hw)
    exact isMarked_marked _
  have hle := MemWrite.length_writes_le_countP isMarked hmarked
  rw [hlength, ← hbeats, h.countP_beats] at hle
  have hdata : ∀ j, j < N + 1 →
      (x.goes j && (x.ip (j + 1)).axTxTready && isMarked (x.beatAt marked j).tdata) = true →
        (x.goes j && isData (x.puts j)) = true := by
    intro j _ hj
    simp only [Bool.and_eq_true] at hj ⊢
    exact ⟨hj.1.1, isData_of_isMarked hj.2⟩
  have hall := of_count_le hdata (by rw [h.count_kind isData, count_beats.1]; exact hle)
    (Nat.lt_succ_of_le hk) (by rw [hgo, h2]; rfl)
  simp only [Bool.and_eq_true] at hall
  exact hall.1.2

/-- So is every other beat. -/
theorem Ends.ready (h : x.Ends N) {ts : List MemWrite}
    (hbeats : x.beats marked (N + 2) = ts.flatMap MemWrite.beats)
    (hperm : (ts.flatMap MemWrite.writes).Perm (snapshot x.hostAddr marked)) {k : Nat} (hk : k ≤ N)
    (hgo : x.goes k = true) : (x.ip (k + 1)).axTxTready = true := by
  have hlength : (ts.flatMap MemWrite.writes).length = 1000 :=
    hperm.length_eq.trans (length_snapshot _ _)
  -- there are 63 packets, as there are 63 last beats
  have htlps : ts.length = 63 := by
    have hlast : ∀ j, j < N + 1 → (x.goes j && lastData (x.puts j)) = true →
        (x.goes j && (x.ip (j + 1)).axTxTready && (x.beatAt marked j).tlast) = true := by
      intro j hj hgoes
      simp only [Bool.and_eq_true] at hgoes ⊢
      exact ⟨⟨hgoes.1, h.ready_of_data hbeats hperm (Nat.le_of_lt_succ hj) hgoes.1
        (isData_of_lastData hgoes.2)⟩, hgoes.2⟩
    have hle : count (fun j => x.goes j && (x.ip (j + 1)).axTxTready &&
        (x.beatAt marked j).tlast) (N + 1) ≤ count (fun j => x.goes j && lastData (x.puts j)) (N + 1) :=
      Nat.count_mono_left fun j _ hj => by
        simp only [Bool.and_eq_true] at hj ⊢
        exact ⟨hj.1.1, hj.2⟩
    have hge : count (fun j => x.goes j && lastData (x.puts j)) (N + 1) ≤
        count (fun j => x.goes j && (x.ip (j + 1)).axTxTready &&
          (x.beatAt marked j).tlast) (N + 1) := Nat.count_mono_left fun j hj => hlast j hj
    rw [← MemWrite.countP_tlast, ← hbeats, h.countP_beats, Nat.le_antisymm hle hge,
      h.count_kind lastData, count_beats.2]
  -- so there are 1126 beats, which are all that were put
  have hcount := MemWrite.length_flatMap_beats ts
  rw [htlps, hlength, ← hbeats, ← List.countP_true, h.countP_beats] at hcount
  have hputs : count x.goes (N + 1) = 1126 := h.puts_end
  have hall := of_count_le (g := x.goes) (f := fun j => x.goes j && (x.ip (j + 1)).axTxTready && true)
    (fun j _ hj => by simp only [Bool.and_eq_true] at hj; exact hj.1.1)
    (by rw [hcount, hputs]) (Nat.lt_succ_of_le hk) hgo
  simp only [Bool.and_eq_true] at hall
  exact hall.1.2

/-- The data beat with its word. -/
theorem beatOf_index {p : Nat} (hp : p < 1126) (h2 : isData p = true) :
    16 * (p / 18) + (p % 18 - 2) < 1000 ∧ beatOf (16 * (p / 18) + (p % 18 - 2)) = p := by
  rw [isData, decide_eq_true_eq] at h2
  unfold beatOf
  omega

/-- **Needed**: a transfer of the marked buffer that delivers it is paced. -/
theorem Ends.paced (h : x.Ends N) (hdelivers : x.Delivers marked N) :
    x.hostAddr.toNat % 4 = 0 ∧ x.Paced N := by
  obtain ⟨ts, hbeats, -, hperm⟩ := hdelivers
  have hready : ∀ k, k ≤ N → x.goes k = true → (x.ip (k + 1)).axTxTready = true := fun k hk hgo =>
    h.ready hbeats hperm hk hgo
  have htlps : ts = x.tlps marked :=
    MemWrite.flatMap_beats_inj (by rw [← hbeats, h.beats_of_ready hready, h.tlps_beats])
  rw [htlps, tlps_writes] at hperm
  -- all addresses on the bus are multiples of four, and the host's is one of them
  have hhost : x.hostAddr.toNat % 4 = 0 := by
    have hmem : (x.hostAddr, marked 0) ∈ snapshot x.hostAddr marked :=
      List.mem_map.mpr ⟨0, List.mem_range.mpr (by decide), by simp⟩
    obtain ⟨i, -, heq⟩ := List.mem_map.mp (hperm.mem_iff.mpr hmem)
    have haddr : _ = x.hostAddr := congrArg Prod.fst heq
    have hword : (x.tlp marked (i / 16)).addr.toNat = _ :=
      toNat_addressBeat (x.hostAddr + BitVec.ofNat 64 (128 * (i / 16)))
    have hnat := congrArg BitVec.toNat haddr
    rw [BitVec.toNat_add, BitVec.toNat_ofNat] at hnat
    omega
  -- each word has its own address, so it is the word of the buffer that belongs there
  have hdata : ∀ i, i < 1000 → x.dataAt marked (beatOf i) = marked (BitVec.ofNat 10 i) := by
    intro i hi
    obtain ⟨i', hi', heq⟩ := List.mem_map.mp
      (hperm.mem_iff.mp (List.mem_map.mpr ⟨i, List.mem_range.mpr hi, rfl⟩))
    have hlt : i' < 1000 := List.mem_range.mp hi'
    rw [tlp_addr hhost, BitVec.add_assoc, ← BitVec.ofNat_add,
      show 128 * (i / 16) + 8 * (i % 16) = 8 * i by omega] at heq
    obtain ⟨haddr, hword⟩ := Prod.mk.inj heq
    have hindex : 8 * i' = 8 * i := (ofNat_inj_of_lt (by omega) (by omega)).mp
      ((BitVec.add_right_inj _).mp haddr)
    rw [← hword, show i' = i by omega]
  refine ⟨hhost, hready, fun k hk hgo h2 hne => ?_⟩
  have hp : x.puts (k + 1) < 1126 := Nat.lt_succ_of_le (h.puts_le hk)
  have hcycle : x.cycle (x.puts (k + 1)) = k + 1 := nthCycle_count hgo
  obtain ⟨hi, hbeat⟩ := beatOf_index hp h2
  have hword := hdata _ hi
  rw [hbeat, h.dataAt_eq hp h2] at hword
  have hfetch := (h.fetched_eq_iff hp h2).mp (marked_inj (h.fetched_lt hp) (by omega) hword)
  rw [hcycle, Nat.add_sub_cancel] at hfetch
  exact hfetch.resolve_right hne

/-- **A transfer delivers the staging buffer**, whatever is in it, exactly if it goes to
the address of a double word and is paced. -/
theorem delivers_iff (x : Transfer) (N : Nat) (h : x.Ends N) :
    (∀ mem, x.Delivers mem N) ↔ x.hostAddr.toNat % 4 = 0 ∧ x.Paced N := by
  constructor
  · exact fun hdelivers => h.paced (hdelivers marked)
  · exact fun hcond => h.delivers hcond.1 hcond.2

end Run

/-! ## two patterns -/

/-- The signals of an IP that is always ready, with `n` buffers. -/
def readyIp (n : BitVec 6) : PcieIpIn where
  userLnkUp := true
  axTxTready := true
  txBufAv := n
  axRxTdata := 0
  axRxTvalid := false
  axRxTlast := false
  cfgBusNumber := 0
  cfgDeviceNumber := 0
  cfgFunctionNumber := 0

/-- A transfer to an aligned address, with the given buffers of the IP. -/
def alignedTransfer (bufs : Nat → BitVec 6) : Transfer where
  descr := { reset with dmaState := .dmaDescrLat, descRdData := armed 0 0x10000000 8000 }
  descrIn := { ip := readyIp 32, captDoneToggleSc := false, stagingMem := fun _ => 0 }
  ip n := readyIp (bufs n)
  captDoneToggleSc _ := false
  descrLat := rfl
  descValid := by decide

/-- A buffer in every other cycle. -/
def everyOther : Transfer := alignedTransfer fun n => if n % 2 = 0 then 32 else 0

theorem everyOther_goes (n : Nat) : everyOther.goes n = decide (n % 2 = 0) := by
  rw [goes, everyOther, alignedTransfer]
  by_cases h : n % 2 = 0 <;> simp [go, readyIp, h]

theorem everyOther_puts (m : Nat) : everyOther.puts (2 * m) = m := by
  induction m with
  | zero => rfl
  | succ m ih =>
      rw [Nat.mul_succ, puts_succ, puts_succ, ih, everyOther_goes, everyOther_goes,
        decide_eq_true (by omega), decide_eq_false (by omega)]
      rfl

/-- It delivers every buffer. -/
theorem everyOther_delivers : everyOther.Ends 2250 ∧ ∀ mem, everyOther.Delivers mem 2250 := by
  have hends : everyOther.Ends 2250 := ⟨rfl, everyOther_puts 1125⟩
  refine ⟨hends, (delivers_iff everyOther 2250 hends).mpr ⟨by decide, fun _ _ _ => rfl, ?_⟩⟩
  intro k _ hgo _ _
  rw [everyOther_goes, decide_eq_true_eq] at hgo
  rw [everyOther_goes]
  exact decide_eq_false (by omega)

/-- A buffer in every cycle. -/
def always : Transfer := alignedTransfer fun _ => 32

/-- The beats go out one after the other, and the second word is the first once more: the
buffer is not delivered. -/
theorem always_not_delivers : always.Ends 1125 ∧ ¬ always.Delivers marked 1125 := by
  have hgoes : ∀ n, always.goes n = true := fun _ => rfl
  have hputs : ∀ n, always.puts n = n := fun n => Nat.count_of_forall fun k _ => hgoes k
  have hends : always.Ends 1125 := ⟨rfl, hputs 1125⟩
  refine ⟨hends, fun h => ?_⟩
  have hnot := (hends.paced h).2.apart 2 (by decide) (hgoes 3) (by rw [hputs]; rfl) (by rw [hputs]; decide)
  rw [hgoes] at hnot
  cases hnot

end Transfer

end PcieUser

end Lliu
