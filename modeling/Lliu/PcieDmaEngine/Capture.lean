import Lliu.Hdl.Stream
import Lliu.PcieDmaEngine
import Lliu.SnapshotMux
import Mathlib.Data.List.Basic
import Mathlib.Data.Nat.Init

/-!
# Lliu.PcieDmaEngine.Capture

The capture of a snapshot: `snapshot_mux` and the `sys_clk` domain of the engine, wired
as in `kc705_top`.  All beats of a snapshot are stored, in order (`beats_stored`).  But
the mux raises `snap_done` in the cycle after its last beat, when `snap_valid` is low,
and the engine looks at it only together with a beat: no capture is ever complete
(`no_capture_completes`).
-/

namespace Lliu

open Hdl

namespace PcieSys

/-- What a clock edge does to the capture when done does not come with a beat. -/
theorem step_not_done (s : PcieSys) (i : PcieSysIn) (h : (i.snap.snapValid && i.snap.snapDone) = false) :
    (s.step i).captDoneSys = false ∧
    (s.step i).captActiveSys = (s.snapReq || s.captActiveSys) := by
  rw [step, snapReq]
  cases s.snapReqSysPulse with
  | true => exact ⟨rfl, rfl⟩
  | false =>
      cases hv : s.captActiveSys && i.snap.snapValid with
      | false => exact ⟨rfl, rfl⟩
      | true =>
          rw [Bool.and_eq_true] at hv
          rw [hv.2, Bool.true_and] at h
          simp only [h, Bool.false_eq_true, if_false, if_true, Bool.false_or]
          exact ⟨rfl, rfl⟩

end PcieSys

/-- The mux and the write side of the engine. -/
structure SnapLink where
  mux : SnapshotMux
  sys : PcieSys

/-- The order book's BBO, and the inputs of the `sys_clk` domain from the other one. -/
structure SnapLinkIn where
  bboValid : Bool
  bboSymId : SymId
  bboBidPrice : BitVec 32
  bboAskPrice : BitVec 32
  bboBidSize : BitVec 24
  bboAskSize : BitVec 24
  userLnkUp : Bool
  snapReqLevelUc : Bool
  dmaBusyUc : Bool

namespace SnapLink

/-- The registers after reset. -/
def reset : SnapLink where
  mux := SnapshotMux.reset
  sys := PcieSys.reset

/-- The inputs of the mux. -/
def muxIn (s : SnapLink) (i : SnapLinkIn) : SnapshotMuxIn where
  bboValid := i.bboValid
  bboSymId := i.bboSymId
  bboBidPrice := i.bboBidPrice
  bboAskPrice := i.bboAskPrice
  bboBidSize := i.bboBidSize
  bboAskSize := i.bboAskSize
  snapReq := s.sys.snapReq
  snapReady := s.sys.snapReady

/-- The inputs of the engine. -/
def sysIn (s : SnapLink) (i : SnapLinkIn) : PcieSysIn where
  snap := { snapData := s.mux.snapData, snapValid := s.mux.snapValid, snapDone := s.mux.snapDone }
  userLnkUp := i.userLnkUp
  snapReqLevelUc := i.snapReqLevelUc
  dmaBusyUc := i.dmaBusyUc

/-- One clock edge. -/
def step (s : SnapLink) (i : SnapLinkIn) : SnapLink where
  mux := s.mux.step (s.muxIn i)
  sys := s.sys.step (s.sysIn i)

/-- The state in cycle `n` of a run from reset. -/
def trace (i : Nat → SnapLinkIn) (n : Nat) : SnapLink := run step reset i n

/-! ## captures -/

/-- A request in cycle `n`, with the mux and the engine idle. -/
structure Request (i : Nat → SnapLinkIn) (n : Nat) : Prop where
  req : (trace i n).sys.snapReq = true
  mux : (trace i n).mux.state = .sIdle
  capt : (trace i n).sys.captActiveSys = false

/-- The beat streamed in a cycle. -/
def beat (s : SnapLink) : Option (BitVec 64) :=
  if s.mux.snapValid && s.sys.snapReady then some s.mux.snapData else none

/-- The beats streamed in the `k` cycles from cycle `n` on. -/
def beats (i : Nat → SnapLinkIn) (n k : Nat) : List (BitVec 64) :=
  collect (fun j => (trace i (n + j)).beat) k

/-- The last beat of a snapshot is streamed. -/
def lastBeat (s : SnapLink) : Bool :=
  s.mux.state == .sSendAsk && s.mux.rdAddr == 63 && s.sys.snapReady

/-- The first `k` entries of the staging buffer. -/
def contents (mem : BitVec 10 → BitVec 64) (k : Nat) : List (BitVec 64) :=
  (List.range k).map fun j => mem (BitVec.ofNat 10 j)

/-- The capture requested in cycle `n` is complete: when the last beat has been streamed
in cycle `n + e`, the beats are in the buffer; `capt_done_sys` pulses once before another
request; and the capture is over then. -/
structure CaptureCompletes (i : Nat → SnapLinkIn) (n : Nat) : Prop where
  stored : ∃ e, (trace i (n + e)).lastBeat = true ∧
    contents (trace i (n + e + 1)).sys.stagingMem (beats i n (e + 1)).length = beats i n (e + 1)
  done : ∃ d, n < d ∧ (trace i d).sys.captDoneSys = true ∧ (trace i d).sys.captActiveSys = false ∧
    ∀ d', n < d' → (trace i d').sys.captDoneSys = true →
      (∀ r, n < r → r < d' → (trace i r).sys.snapReq = false) → d' = d

section Run

variable {i : Nat → SnapLinkIn} {n : Nat}

theorem trace_succ (n : Nat) : trace i (n + 1) = (trace i n).step (i n) := rfl

/-! ## the pulse that is not seen -/

/-- `snap_done` is high in `S_IDLE` only. -/
def DoneInIdle (s : SnapshotMux) : Prop := s.snapDone = true → s.state = .sIdle

theorem DoneInIdle.step (s : SnapshotMux) (i : SnapshotMuxIn) : DoneInIdle (s.step i) := by
  rw [DoneInIdle, SnapshotMux.step]
  cases s.state with
  | sIdle =>
      simp only
      split <;> simp [SnapshotMux.advance]
  | sPrefetch => simp [SnapshotMux.advance]
  | sSendBid =>
      simp only
      split <;> simp [SnapshotMux.advance]
  | sSendAsk =>
      simp only
      split
      · split <;> simp [SnapshotMux.advance]
      · simp [SnapshotMux.advance]

/-- So it never comes with a beat. -/
theorem not_valid_and_done (n : Nat) :
    ((trace i n).mux.snapValid && (trace i n).mux.snapDone) = false := by
  have hidle : DoneInIdle (trace i n).mux := by
    cases n with
    | zero => exact fun h => absurd h Bool.false_ne_true
    | succ n => exact DoneInIdle.step _ _
  cases hd : (trace i n).mux.snapDone with
  | false => rw [Bool.and_false]
  | true => rw [SnapshotMux.snapValid, hidle hd]; rfl

/-- No capture is ever done. -/
theorem captDoneSys_trace (n : Nat) : (trace i n).sys.captDoneSys = false := by
  cases n with
  | zero => rfl
  | succ n => exact (PcieSys.step_not_done _ _ (not_valid_and_done n)).1

/-- Once requested it stays active. -/
theorem captActiveSys_of_request (h : (trace i n).sys.snapReq = true) {m : Nat} (hlt : n < m) :
    (trace i m).sys.captActiveSys = true := by
  induction m, hlt using Nat.le_induction with
  | base =>
      rw [Nat.succ_eq_add_one, trace_succ, step, (PcieSys.step_not_done _ _ (not_valid_and_done n)).2, h,
        Bool.true_or]
  | succ m hlt ih => rw [trace_succ, step, (PcieSys.step_not_done _ _ (not_valid_and_done m)).2, ih, Bool.or_true]

/-- **A capture never completes**: the pulse of the mux is not seen, `capt_done_sys` is
never raised, and the capture stays active. -/
theorem no_capture_completes (i : Nat → SnapLinkIn) (n : Nat) :
    ¬ CaptureCompletes i n ∧ (∀ m, (trace i m).sys.captDoneSys = false) ∧
    ((trace i n).sys.snapReq = true → ∀ m, n < m → (trace i m).sys.captActiveSys = true) := by
  refine ⟨fun h => ?_, captDoneSys_trace, fun hreq m hlt => captActiveSys_of_request hreq hlt⟩
  obtain ⟨d, -, hdone, -⟩ := h.done
  rw [captDoneSys_trace d] at hdone
  cases hdone

/-! ## the beats are stored -/

theorem contents_succ (mem : BitVec 10 → BitVec 64) (k : Nat) :
    contents mem (k + 1) = contents mem k ++ [mem (BitVec.ofNat 10 k)] := by
  rw [contents, List.range_succ, List.map_append]
  rfl

/-- A beat written behind the others. -/
theorem contents_update {k : Nat} (hk : k < 1024) (mem : BitVec 10 → BitVec 64) (x : BitVec 64) :
    contents (Function.update mem (BitVec.ofNat 10 k) x) (k + 1) = contents mem k ++ [x] := by
  rw [contents_succ, Function.update_self]
  refine congrArg (· ++ [x]) (List.map_congr_left fun j hj => Function.update_of_ne (fun h => ?_) _ _)
  have hlt := List.mem_range.mp hj
  have heq := (ofNat_inj_of_lt (by omega) hk).mp h
  omega

/-- What a clock edge does to the buffer without a request. -/
theorem buffer_step (n : Nat) (hreq : (trace i n).sys.snapReq = false) :
    (trace i (n + 1)).sys.stagingMem = (match (trace i n).beat with
      | some x => Function.update (trace i n).sys.stagingMem (trace i n).sys.stgWrPtr x
      | none => (trace i n).sys.stagingMem) ∧
    (trace i (n + 1)).sys.stgWrPtr = (match (trace i n).beat with
      | some _ => (trace i n).sys.stgWrPtr + 1
      | none => (trace i n).sys.stgWrPtr) := by
  have hpulse : (trace i n).sys.snapReqSysPulse = false := hreq
  have hnot := not_valid_and_done (i := i) n
  rw [trace_succ, step, PcieSys.step, beat]
  cases hv : (trace i n).mux.snapValid with
  | false => simp [hpulse, hv, sysIn, PcieSys.advance]
  | true =>
      rw [hv, Bool.true_and] at hnot
      cases hc : (trace i n).sys.captActiveSys with
      | false => simp [hpulse, hc, PcieSys.snapReady, PcieSys.advance]
      | true => simp [hpulse, hc, hv, hnot, sysIn, PcieSys.snapReady, PcieSys.writeBeat]

/-- **Run lemma**: from a request on, the beats streamed are in the buffer, in order. -/
theorem beats_stored (h : Request i n) (k : Nat)
    (hreq : ∀ r, n < r → r < n + (k + 1) → (trace i r).sys.snapReq = false)
    (hlen : (beats i n (k + 1)).length ≤ 1024) :
    (trace i (n + (k + 1))).sys.stgWrPtr = BitVec.ofNat 10 (beats i n (k + 1)).length ∧
    contents (trace i (n + (k + 1))).sys.stagingMem (beats i n (k + 1)).length =
      beats i n (k + 1) := by
  induction k with
  | zero =>
      have hpulse : (trace i n).sys.snapReqSysPulse = true := h.req
      have hbeats : beats i n 1 = [] := by
        rw [beats, collect_succ, collect_zero, Nat.add_zero, beat, PcieSys.snapReady, h.capt,
          Bool.and_false]
        rfl
      rw [Nat.zero_add, hbeats, trace_succ, step, PcieSys.step, hpulse]
      exact ⟨rfl, rfl⟩
  | succ k ih =>
      have hbeats : beats i n (k + 1 + 1) =
          beats i n (k + 1) ++ (trace i (n + (k + 1))).beat.toList := collect_succ _ _
      obtain ⟨hmem, hptr⟩ := buffer_step (i := i) (n + (k + 1)) (hreq _ (by omega) (by omega))
      rw [hbeats] at hlen ⊢
      rw [List.length_append] at hlen
      obtain ⟨hptr', hmem'⟩ := ih (fun r h1 h2 => hreq r h1 (by omega)) (by omega)
      rw [← Nat.add_assoc n (k + 1) 1, hmem, hptr, hptr']
      cases hbeat : (trace i (n + (k + 1))).beat with
      | none => simpa using hmem'
      | some x =>
          rw [hbeat] at hlen
          simp only [Option.toList_some, List.length_append, List.length_singleton] at hlen ⊢
          refine ⟨(BitVec.ofNat_add _ _).symm, ?_⟩
          rw [contents_update (by omega), hmem']

/-- The mux streams the two beats of a symbol in three cycles. -/
theorem symbol_streamed {t : Nat} (hst : (trace i t).mux.state = .sPrefetch)
    (hready : ∀ k, k ≤ 2 → (trace i (t + k)).sys.captActiveSys = true) :
    ((trace i t).beat = none ∧ (trace i (t + 1)).beat.isSome ∧ (trace i (t + 2)).beat.isSome) ∧
    (trace i (t + 2)).mux.state = .sSendAsk ∧
    (trace i (t + 2)).mux.rdAddr = (trace i t).mux.rdAddr ∧
    ((trace i t).mux.rdAddr ≠ 63 → (trace i (t + 3)).mux.state = .sPrefetch ∧
      (trace i (t + 3)).mux.rdAddr = (trace i t).mux.rdAddr + 1) := by
  have hbid : (trace i (t + 1)).mux.state = .sSendBid ∧
      (trace i (t + 1)).mux.rdAddr = (trace i t).mux.rdAddr := by
    rw [trace_succ, step, SnapshotMux.step, hst]
    exact ⟨rfl, rfl⟩
  have hask : (trace i (t + 2)).mux.state = .sSendAsk ∧
      (trace i (t + 2)).mux.rdAddr = (trace i t).mux.rdAddr := by
    rw [trace_succ (t + 1), step, SnapshotMux.step, hbid.1, ← hbid.2]
    simp only [muxIn, PcieSys.snapReady, hready 1 (by omega), if_true]
    exact ⟨trivial, rfl⟩
  have hready1 := hready 1 (by omega)
  have hready2 := hready 2 (by omega)
  refine ⟨⟨?_, ?_, ?_⟩, hask.1, hask.2, fun hne => ?_⟩
  · simp [beat, SnapshotMux.snapValid, hst]
  · simp [beat, SnapshotMux.snapValid, hbid.1, PcieSys.snapReady, hready1]
  · simp [beat, SnapshotMux.snapValid, hask.1, PcieSys.snapReady, hready2]
  · rw [trace_succ (t + 2), step, SnapshotMux.step, hask.1]
    simp only [muxIn, PcieSys.snapReady, hready2, if_true, hask.2, hne, if_false]
    exact ⟨trivial, trivial⟩

/-- They are two more. -/
theorem length_beats_symbol {k : Nat} (h : (trace i (n + k)).beat = none ∧
    (trace i (n + k + 1)).beat.isSome ∧ (trace i (n + k + 2)).beat.isSome) :
    (beats i n (k + 3)).length = (beats i n k).length + 2 := by
  obtain ⟨h0, h1, h2⟩ := h
  obtain ⟨x, hx⟩ := Option.isSome_iff_exists.mp h1
  obtain ⟨y, hy⟩ := Option.isSome_iff_exists.mp h2
  rw [beats, collect_succ, collect_succ, collect_succ, h0, ← Nat.add_assoc n k 1, hx,
    ← Nat.add_assoc n k 2, hy]
  simp [beats]

/-- **Streaming**: the last beat of a snapshot is streamed 192 cycles after the request,
and there are 128. -/
theorem snapshot_streamed (h : Request i n) :
    (trace i (n + 192)).lastBeat = true ∧ (beats i n 193).length = 128 := by
  have hready : ∀ m, n < m → (trace i m).sys.captActiveSys = true := fun m hm =>
    captActiveSys_of_request h.req hm
  have hsymbol : ∀ k, k ≤ 63 → (trace i (n + (3 * k + 1))).mux.state = .sPrefetch ∧
      (trace i (n + (3 * k + 1))).mux.rdAddr = BitVec.ofNat 6 k ∧
      (beats i n (3 * k + 1)).length = 2 * k := by
    intro k hk
    induction k with
    | zero =>
        have hreq : (trace i n).sys.snapReqSysPulse = true := h.req
        rw [Nat.mul_zero, Nat.zero_add, trace_succ, step, SnapshotMux.step, h.mux]
        simp [muxIn, PcieSys.snapReq, hreq, beats, collect_succ, beat, SnapshotMux.snapValid, h.mux]
    | succ k ih =>
        obtain ⟨hst, haddr, hlen⟩ := ih (by omega)
        obtain ⟨hbeats, -, -, hnext⟩ := symbol_streamed hst fun j _ => hready _ (by omega)
        have hne : BitVec.ofNat 6 k ≠ BitVec.ofNat 6 63 := fun heq => by
          have hk63 := (ofNat_inj_of_lt (by omega) (by decide)).mp heq
          omega
        obtain ⟨hst', haddr'⟩ := hnext (by rwa [haddr])
        rw [show 3 * (k + 1) + 1 = 3 * k + 1 + 3 by omega]
        refine ⟨hst', ?_, ?_⟩
        · rw [← Nat.add_assoc, haddr', haddr]
          exact (BitVec.ofNat_add _ _).symm
        · rw [length_beats_symbol hbeats, hlen]
          omega
  obtain ⟨hst, haddr, hlen⟩ := hsymbol 63 (Nat.le_refl 63)
  obtain ⟨hbeats, hask, hlast, -⟩ := symbol_streamed hst fun j _ => hready _ (by omega)
  refine ⟨?_, ?_⟩
  · rw [show n + 192 = n + (3 * 63 + 1) + 2 by omega, lastBeat, hask, hlast, haddr, PcieSys.snapReady,
      hready _ (by omega)]
    rfl
  · rw [show 193 = 3 * 63 + 1 + 3 by omega, length_beats_symbol hbeats, hlen]

/-- The snapshot is in the buffer when its last beat has been streamed. -/
theorem snapshot_stored (h : Request i n)
    (hreq : ∀ r, n < r → r < n + 193 → (trace i r).sys.snapReq = false) :
    contents (trace i (n + 193)).sys.stagingMem 128 = beats i n 193 := by
  have hlen := (snapshot_streamed h).2
  have hstored := (beats_stored h 192 hreq (show (beats i n 193).length ≤ 1024 by omega)).2
  rwa [hlen] at hstored

/-- The level that asks for a snapshot rises and stays; the book is quiet. -/
def oneRequest : Nat → SnapLinkIn := fun _ =>
  { bboValid := false, bboSymId := 0, bboBidPrice := 0, bboAskPrice := 0, bboBidSize := 0,
    bboAskSize := 0, userLnkUp := true, snapReqLevelUc := true, dmaBusyUc := true }

/-- The snapshot is streamed, `snap_done` pulses, and the capture goes on. -/
theorem done_not_seen : Request oneRequest 3 ∧ (trace oneRequest 195).lastBeat = true ∧
    (trace oneRequest 196).mux.snapDone = true ∧
    (trace oneRequest 197).sys.captDoneSys = false ∧
    (trace oneRequest 197).sys.captActiveSys = true ∧ ¬ CaptureCompletes oneRequest 3 := by
  have hrun : ((trace oneRequest 3).sys.snapReq = true ∧ (trace oneRequest 3).mux.state = .sIdle ∧
      (trace oneRequest 3).sys.captActiveSys = false) ∧ (trace oneRequest 195).lastBeat = true ∧
      (trace oneRequest 196).mux.snapDone = true ∧ (trace oneRequest 197).sys.captDoneSys = false ∧
      (trace oneRequest 197).sys.captActiveSys = true := by decide +kernel
  obtain ⟨⟨hreq, hmux, hcapt⟩, hlast, hpulse, hdone, hactive⟩ := hrun
  refine ⟨⟨hreq, hmux, hcapt⟩, hlast, hpulse, hdone, hactive, fun h => ?_⟩
  obtain ⟨d, -, hd, -⟩ := h.done
  rw [captDoneSys_trace d] at hd
  cases hd

end Run

end SnapLink

end Lliu
