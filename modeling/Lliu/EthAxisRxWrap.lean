import Lliu.Hdl.Frames
import Lliu.Hdl.Slot
import Lliu.Pkg

/-!
# Lliu.EthAxisRxWrap

`eth_axis_rx_wrap.sv`: the drop-on-full wrapper in front of `eth_axis_rx`.  A frame
is dropped if `fifo_almost_full` is high with its first beat.

`eth_axis_rx` is not part of the repository.  What matters of it here is the
`s_axis_tready` that it gives in each cycle, an input of the model.  The wrapper does
not look at it: a beat that is offered while it is low is gone, and its frame goes on
without it.
-/

namespace Lliu

open Hdl

/-- The inputs of `eth_axis_rx_wrap`, with the `s_axis_tready` of `eth_axis_rx`. -/
structure EthAxisRxWrapIn where
  macRxTdata : BitVec 64
  macRxTkeep : BitVec 8
  macRxTvalid : Bool
  macRxTlast : Bool
  fifoAlmostFull : Bool
  ethRxSTready : Bool

/-- The registers of `eth_axis_rx_wrap`. -/
structure EthAxisRxWrap where
  frameActive : Bool
  dropCurrent : Bool
  droppedFrames : BitVec 32
  deriving DecidableEq, Repr

namespace EthAxisRxWrap

/-- The registers after reset. -/
def reset : EthAxisRxWrap where
  frameActive := false
  dropCurrent := false
  droppedFrames := 0

/-- `mac_rx_tready`. -/
def macRxTready : Bool := true

/-- `drop_decision`, for the beat at the MAC input. -/
def dropDecision (s : EthAxisRxWrap) (i : EthAxisRxWrapIn) : Bool :=
  if s.frameActive then s.dropCurrent else i.fifoAlmostFull

/-- The `s_axis_tvalid` of `eth_axis_rx`. -/
def ethRxSTvalid (s : EthAxisRxWrap) (i : EthAxisRxWrapIn) : Bool :=
  i.macRxTvalid && !s.dropDecision i

/-- `dropped_frames` saturates. -/
def countDrop (n : BitVec 32) : BitVec 32 := if n = 0xFFFFFFFF#32 then n else n + 1

/-- One clock edge. -/
def step (s : EthAxisRxWrap) (i : EthAxisRxWrapIn) : EthAxisRxWrap where
  frameActive :=
    if i.macRxTvalid && macRxTready then !i.macRxTlast else s.frameActive
  dropCurrent :=
    if i.macRxTvalid && macRxTready then
      if !s.frameActive && !i.macRxTlast then s.dropDecision i
      else if i.macRxTlast then false
      else s.dropCurrent
    else s.dropCurrent
  droppedFrames :=
    if s.dropDecision i && i.macRxTvalid && i.macRxTlast then countDrop s.droppedFrames
    else s.droppedFrames

/-! ## runs -/

/-- A beat from the MAC, with the `fifo_almost_full` of its cycle. -/
structure MacBeat where
  tdata : BitVec 64
  tkeep : BitVec 8
  tlast : Bool
  full : Bool
  deriving DecidableEq, Repr

/-- The state in cycle `n` of a run from reset. -/
def trace (i : Nat → EthAxisRxWrapIn) (n : Nat) : EthAxisRxWrap := run step reset i n

/-- The beat at the MAC input. -/
def macBeat (i : EthAxisRxWrapIn) : MacBeat :=
  ⟨i.macRxTdata, i.macRxTkeep, i.macRxTlast, i.fifoAlmostFull⟩

/-- The beats from the MAC before cycle `n`. -/
def macBeats (i : Nat → EthAxisRxWrapIn) : Nat → List MacBeat :=
  collect fun k => if (i k).macRxTvalid && macRxTready then some (macBeat (i k)) else none

/-- The beats that `eth_axis_rx` accepts before cycle `n`. -/
def accepted (i : Nat → EthAxisRxWrapIn) : Nat → List MacBeat :=
  collect fun k =>
    if (trace i k).ethRxSTvalid (i k) && (i k).ethRxSTready then some (macBeat (i k)) else none

/-- The beats offered to `eth_axis_rx` before cycle `n`. -/
def offered (i : Nat → EthAxisRxWrapIn) : Nat → List MacBeat :=
  collect fun k => if (trace i k).ethRxSTvalid (i k) then some (macBeat (i k)) else none

/-- A frame to drop: the FIFO was almost full at its first beat. -/
def dropped (f : List MacBeat) : Bool := f.head?.any MacBeat.full

section Run

variable {i : Nat → EthAxisRxWrapIn} {n : Nat}

theorem macBeats_succ (n : Nat) : macBeats i (n + 1) =
    macBeats i n ++ if (i n).macRxTvalid then [macBeat (i n)] else [] := by
  rw [macBeats, collect_succ]
  cases hv : (i n).macRxTvalid <;> simp [macRxTready]

/-- A frame is dropped with its first beat. -/
theorem dropped_append {f : List MacBeat} (a : MacBeat) (h : f ≠ []) :
    dropped (f ++ [a]) = dropped f := by
  cases f with
  | nil => exact absurd rfl h
  | cons b f => rfl

/-- The state of the wrapper after the beats `l`: whether a frame is under way, and
whether to drop it. -/
structure Tracks (s : EthAxisRxWrap) (l : List MacBeat) : Prop where
  active : s.frameActive = !(frames MacBeat.tlast l).2.isEmpty
  drop : (frames MacBeat.tlast l).2 ≠ [] → s.dropCurrent = dropped (frames MacBeat.tlast l).2

/-- The decision is that for the frame of the beat at the input. -/
theorem Tracks.dropDecision_eq {s : EthAxisRxWrap} {l : List MacBeat} (h : Tracks s l)
    (e : EthAxisRxWrapIn) :
    s.dropDecision e = dropped ((frames MacBeat.tlast l).2 ++ [macBeat e]) := by
  unfold dropDecision
  rw [h.active]
  by_cases hopen : (frames MacBeat.tlast l).2 = []
  · simp [hopen, dropped, macBeat]
  · rw [dropped_append _ hopen, ← h.drop hopen]
    simp [hopen]

theorem tracks_trace (n : Nat) : Tracks (trace i n) (macBeats i n) := by
  induction n with
  | zero => exact ⟨rfl, fun h => absurd rfl h⟩
  | succ n ih =>
      have hdec := ih.dropDecision_eq (i n)
      rw [macBeats_succ]
      change Tracks ((trace i n).step (i n)) _
      cases hv : (i n).macRxTvalid with
      | false => simpa [step, hv] using ⟨ih.active, ih.drop⟩
      | true =>
          rw [if_pos rfl]
          cases hl : (i n).macRxTlast with
          | true => constructor <;> simp [step, frames_concat, macBeat, hv, hl, macRxTready]
          | false =>
              refine ⟨by simp [step, frames_concat, macBeat, hv, hl, macRxTready], fun _ => ?_⟩
              have hopen : (frames MacBeat.tlast (macBeats i n ++ [macBeat (i n)])).2 =
                  (frames MacBeat.tlast (macBeats i n)).2 ++ [macBeat (i n)] := by
                simp [frames_concat, macBeat, hl]
              rw [hopen, ← hdec]
              cases hact : (trace i n).frameActive <;>
                simp [step, dropDecision, hv, hl, hact, macRxTready]

/-- What is offered to `eth_axis_rx` are the frames not dropped. -/
theorem offered_eq (n : Nat) : offered i n =
    ((allFrames MacBeat.tlast (macBeats i n)).filter fun f => !dropped f).flatten := by
  induction n with
  | zero => rfl
  | succ n ih =>
      have hdec := (tracks_trace (i := i) n).dropDecision_eq (i n)
      rw [offered, collect_succ, ← offered, ih, macBeats_succ, ethRxSTvalid, hdec]
      cases hv : (i n).macRxTvalid with
      | false => simp
      | true =>
          rw [if_pos rfl, flatten_filter_allFrames fun f a hf => by rw [dropped_append a hf]]
          cases dropped ((frames MacBeat.tlast (macBeats i n)).2 ++ [macBeat (i n)]) <;> rfl

/-- The frames that have ended. -/
def complete (i : Nat → EthAxisRxWrapIn) (n : Nat) : List (List MacBeat) :=
  (frames MacBeat.tlast (macBeats i n)).1

theorem countDrop_ofNat (k : Nat) : countDrop (BitVec.ofNat 32 (min k 0xFFFFFFFF)) =
    BitVec.ofNat 32 (min (k + 1) 0xFFFFFFFF) := by
  unfold countDrop
  by_cases hk : k < 0xFFFFFFFF
  · rw [if_neg, Nat.min_eq_left (by omega), Nat.min_eq_left (by omega), BitVec.ofNat_add]
    · rfl
    · rw [Nat.min_eq_left (by omega), show 0xFFFFFFFF#32 = BitVec.ofNat 32 0xFFFFFFFF from rfl,
        ofNat_inj_of_lt (by omega) (by omega)]
      omega
  · rw [Nat.min_eq_right (by omega), Nat.min_eq_right (by omega)]
    rfl

/-- `dropped_frames` counts the frames dropped. -/
theorem droppedFrames_eq (n : Nat) : (trace i n).droppedFrames =
    BitVec.ofNat 32 (min ((complete i n).countP dropped) 0xFFFFFFFF) := by
  induction n with
  | zero => rfl
  | succ n ih =>
      have hdec := (tracks_trace (i := i) n).dropDecision_eq (i n)
      change ((trace i n).step (i n)).droppedFrames = _
      unfold complete at ih ⊢
      rw [macBeats_succ]
      unfold step
      rw [hdec, ih]
      cases hv : (i n).macRxTvalid with
      | false => simp
      | true =>
          rw [if_pos rfl, frames_concat]
          cases hl : (i n).macRxTlast with
          | false => simp [macBeat, hl]
          | true =>
              simp only [macBeat, hl, if_true, List.countP_append, List.countP_singleton]
              cases dropped ((frames MacBeat.tlast (macBeats i n)).2 ++
                [⟨(i n).macRxTdata, (i n).macRxTkeep, true, (i n).fifoAlmostFull⟩]) with
              | false => rfl
              | true => exact countDrop_ofNat _

/-- A beat is offered to `eth_axis_rx` while that is not ready. -/
def stalled (i : Nat → EthAxisRxWrapIn) (k : Nat) : Bool :=
  (trace i k).ethRxSTvalid (i k) && !(i k).ethRxSTready

theorem accepted_eq_offered_iff (n : Nat) :
    accepted i n = offered i n ↔ ∀ k, k < n → stalled i k = false := by
  constructor
  · intro heq k hk
    have hlen := congrArg List.length heq
    rw [accepted, offered, length_collect, length_collect] at hlen
    cases hv : (trace i k).ethRxSTvalid (i k) with
    | false => simp [stalled, hv]
    | true =>
        have hready := of_count_le (k := k) (fun m _ hm => ?_) (Nat.le_of_eq hlen.symm) hk
          (by simp [hv])
        · cases hr : (i k).ethRxSTready <;> simp [hr] at hready
          simp [stalled, hr]
        · cases hvm : (trace i m).ethRxSTvalid (i m) <;> simp [hvm] at hm ⊢
  · intro hready
    refine collect_congr fun k hk => ?_
    have hk := hready k hk
    unfold stalled at hk
    cases hv : (trace i k).ethRxSTvalid (i k) with
    | false => simp
    | true =>
        rw [hv, Bool.true_and, Bool.not_eq_false'] at hk
        simp [hk]

/-- **Drop on full**: `dropped_frames` counts the frames dropped, which are those that
found the FIFO almost full, up to its maximum; and `eth_axis_rx` has accepted just the
other frames, each of them beat for beat, exactly if it was ready for every beat
offered. -/
theorem accepted_frames_iff (n : Nat) :
    (trace i n).droppedFrames =
      BitVec.ofNat 32 (min ((complete i n).countP dropped) 0xFFFFFFFF) ∧
    (accepted i n = ((allFrames MacBeat.tlast (macBeats i n)).filter fun f => !dropped f).flatten ↔
      ∀ k, k < n → stalled i k = false) := by
  refine ⟨droppedFrames_eq n, ?_⟩
  rw [← offered_eq]
  exact accepted_eq_offered_iff n

end Run

/-- A frame of three beats, during the second of which `eth_axis_rx` is not ready. -/
def stalledFrame (n : Nat) : EthAxisRxWrapIn where
  macRxTdata := BitVec.ofNat 64 n
  macRxTkeep := 0xFF
  macRxTvalid := n < 3
  macRxTlast := n == 2
  fifoAlmostFull := false
  ethRxSTready := n != 1

/-- The frame arrives without its second beat, and is not counted as dropped. -/
theorem stalledFrame_cut : (complete stalledFrame 3).map (·.map MacBeat.tdata) = [[0, 1, 2]] ∧
    (accepted stalledFrame 3).map MacBeat.tdata = [0, 2] ∧
    (trace stalledFrame 3).droppedFrames = 0 := by
  refine ⟨?_, ?_, ?_⟩ <;> decide

end EthAxisRxWrap

end Lliu
