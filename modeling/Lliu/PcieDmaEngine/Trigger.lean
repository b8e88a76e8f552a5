import Lliu.Hdl.EdgeSync
import Lliu.Hdl.Hold
import Lliu.Hdl.Run
import Lliu.PcieDmaEngine
import Lliu.PcieDmaEngine.Capture

/-!
# Lliu.PcieDmaEngine.Trigger

The request for a snapshot.  A visit of `DMA_TRIG` toggles a level, and the `sys_clk`
domain makes a `snap_req` pulse of every rise of it, so a trigger asks for a snapshot
exactly if it finds the level low (`snapReqs_of_trigger`).  The first one does; the
second finds the level high, and its request is lost (`second_request_lost`).
-/

namespace Lliu

open Hdl

/-! ## what a step does to the level -/

namespace PcieSys

/-- The synchronizer of the level. -/
def snapSync (s : PcieSys) : EdgeSync where
  sync0 := s.snapReqSync0
  sync1 := s.snapReqSync1
  prev := s.snapReqPrevSc
  pulse := s.snapReqSysPulse

theorem snapSync_step (s : PcieSys) (i : PcieSysIn) :
    (s.step i).snapSync = s.snapSync.step i.snapReqLevelUc := by
  rw [PcieSys.step]
  split_ifs <;> rfl

theorem step_captDoneToggleSc (s : PcieSys) (i : PcieSysIn) :
    (s.step i).captDoneToggleSc = (s.captDoneToggleSc ^^ s.captDoneSys) := by
  rw [PcieSys.step]
  split_ifs <;> rfl

end PcieSys

namespace PcieUser

theorem stepTlp_snapReqLevelUc (s : PcieUser) (i : PcieIpIn) (d : PcieUser) :
    (s.stepTlp i d).snapReqLevelUc = d.snapReqLevelUc := by
  rw [stepTlp, putData, endTlp]
  split_ifs <;> rfl

/-- A transfer goes on or ends. -/
theorem stepTlp_dmaState (s : PcieUser) (i : PcieIpIn) (d : PcieUser) (h : d.dmaState = .dmaTlp) :
    (s.stepTlp i d).dmaState = .dmaTlp ∨ (s.stepTlp i d).dmaState = .dmaIdle := by
  rw [stepTlp, putData, endTlp]
  split_ifs <;> simp [h]

/-- A trigger toggles the level. -/
theorem step_snapReqLevelUc (s : PcieUser) (i : PcieUserIn) :
    (s.step i).snapReqLevelUc = if s.dmaState = .dmaTrig then !s.snapReqLevelUc
      else s.snapReqLevelUc := by
  rw [step, stepDma]
  cases hst : s.dmaState with
  | dmaIdle => simp [advance]
  | dmaTrig => simp
  | dmaCaptWait =>
      simp only
      split <;> simp [advance]
  | dmaDescr => simp [advance]
  | dmaDescrLat =>
      simp only [stepDescrLat]
      split <;> simp [advance]
  | dmaTlp => simp [stepTlp_snapReqLevelUc, advance]

/-- The edges to the next trigger, at least. -/
def toTrig : DmaState → Nat
  | .dmaTrig => 0
  | .dmaIdle => 1
  | .dmaTlp => 2
  | .dmaDescrLat => 2
  | .dmaDescr => 3
  | .dmaCaptWait => 4

theorem toTrig_step (s : PcieUser) (i : PcieUserIn) :
    toTrig s.dmaState ≤ toTrig (s.step i).dmaState + 1 := by
  rw [step, stepDma]
  cases hst : s.dmaState with
  | dmaIdle => simp [toTrig]
  | dmaTrig => simp [toTrig]
  | dmaCaptWait =>
      simp only
      split <;> simp [advance, toTrig, hst]
  | dmaDescr => simp [toTrig]
  | dmaDescrLat =>
      simp only [stepDescrLat]
      split <;> simp [toTrig]
  | dmaTlp =>
      obtain h | h := s.stepTlp_dmaState i.ip (s.stepRx i.ip (s.advance i)) (by simp [advance, hst])
      · simp [h, toTrig]
      · simp [h, toTrig]

theorem toTrig_step_trig (s : PcieUser) (i : PcieUserIn) (h : s.dmaState = .dmaTrig) :
    toTrig (s.step i).dmaState = 4 := by
  rw [step, stepDma, h]
  rfl

end PcieUser

/-! ## runs -/

namespace PcieDmaEngine

/-- The state at time `n` of a run from reset. -/
def trace (e : Nat → PcieEdge) (n : Nat) : PcieDmaEngine := run step reset e n

/-- The state machine visits `DMA_TRIG`. -/
def trigger (e : Nat → PcieEdge) (n : Nat) : Bool :=
  (e n).userEdge && (trace e n).user.dmaState == .dmaTrig

/-- The level that asks for a snapshot. -/
def level (e : Nat → PcieEdge) (n : Nat) : Bool := (trace e n).user.snapReqLevelUc

/-- A `snap_req` pulse in the `sys_clk` domain. -/
def snapPulse (e : Nat → PcieEdge) (n : Nat) : Bool := (e n).sysEdge && (trace e n).sys.snapReq

/-- The `sys_clk` edges before time `n`. -/
def sysEdges (e : Nat → PcieEdge) (n : Nat) : Nat := count (fun k => (e k).sysEdge) n

/-- Both clocks advance. -/
structure ClocksAdvance (e : Nat → PcieEdge) : Prop where
  sys : ∀ n, ∃ m, n ≤ m ∧ (e m).sysEdge = true
  user : ∀ n, ∃ m, n ≤ m ∧ (e m).userEdge = true

/-- From one trigger to the next there is time for the synchronizer, the edge detector
and the pulse. -/
def Separated (e : Nat → PcieEdge) : Prop :=
  ∀ a b, trigger e a = true → trigger e b = true → a < b → sysEdges e (a + 1) + 4 ≤ sysEdges e b

/-- The trigger at time `a` makes one pulse, when it has had the time and before the
next one. -/
def RequestsOne (e : Nat → PcieEdge) (a : Nat) : Prop :=
  ∀ m, a < m → (∀ b, a < b → b < m → trigger e b = false) →
    sysEdges e (a + 1) + 4 ≤ sysEdges e m → count (snapPulse e) m = count (snapPulse e) a + 1

/-- Every trigger makes one pulse, and there are no others. -/
structure OneRequestEach (e : Nat → PcieEdge) : Prop where
  each : ∀ a, trigger e a = true → RequestsOne e a
  only : ∀ n, count (snapPulse e) n ≤ count (trigger e) n

section Run

variable {e : Nat → PcieEdge} {a m n : Nat}

theorem trace_succ (n : Nat) : trace e (n + 1) = (trace e n).step (e n) := rfl

theorem sysEdges_succ (n : Nat) : sysEdges e (n + 1) = sysEdges e n + (e n).sysEdge.toNat :=
  count_succ _ n

theorem sysEdges_mono (h : a ≤ n) : sysEdges e a ≤ sysEdges e n := count_mono _ h

theorem synced (e : Nat → PcieEdge) :
    EdgeSynced (fun n => (e n).sysEdge) (level e) (fun n => (trace e n).sys.snapSync) := by
  intro n
  simp only [trace_succ, step]
  cases (e n).sysEdge with
  | true => exact PcieSys.snapSync_step _ _
  | false => rfl

/-- The level is toggled by triggers only. -/
theorem level_succ (n : Nat) : level e (n + 1) = if trigger e n then !level e n else level e n := by
  rw [level, trace_succ, step, trigger, level]
  cases (e n).userEdge with
  | true => simp [PcieUser.step_snapReqLevelUc]
  | false => simp

theorem rise_eq (n : Nat) : rise (level e) n = (trigger e n && !level e n) := by
  rw [rise, level_succ]
  cases trigger e n with
  | true => simp
  | false => simp

/-! ## what a trigger asks for -/

/-- Without triggers the level is kept. -/
theorem level_kept (h : trigger e n = false) : level e (n + 1) = level e n := by
  rw [level_succ, h, if_neg Bool.false_ne_true]

/-- The synchronizer has settled before every trigger. -/
theorem settled_of_trigger (hsep : Separated e) (h : trigger e n = true) :
    ((trace e n).sys.snapSync).Settled 4 (level e n) := by
  by_cases hfirst : ∃ a, a < n ∧ trigger e a = true
  · obtain ⟨a, hlt, ha⟩ := hfirst
    obtain ⟨c, hc⟩ := exists_lastLoad ha hlt
    have hkept : ∀ k, c + 1 ≤ k → k < n → level e (k + 1) = level e k := fun k hk hkn =>
      level_kept (hc.last k hk hkn)
    have hsettled := (synced e).settled (EdgeSync.Settled.zero _ _) (show c + 1 ≤ n from hc.lt) hkept
    have htime := hsep c n hc.load h hc.lt
    rw [sysEdges, sysEdges] at htime
    exact hsettled.mono (by omega)
  · have hkept : ∀ k, 0 ≤ k → k < n → level e (k + 1) = level e k := fun k _ hkn =>
      level_kept (Bool.eq_false_iff.mpr fun hk => hfirst ⟨k, hkn, hk⟩)
    have hsettled := (synced e).settled EdgeSync.Settled.reset (Nat.zero_le n) hkept
    exact hsettled.mono (by omega)

/-- A change finds the last level sampled. -/
theorem sync0_of_change (hsep : Separated e) (h : level e (n + 1) ≠ level e n) :
    ((trace e n).sys.snapSync).sync0 = level e n := by
  cases htrig : trigger e n with
  | true => exact (settled_of_trigger hsep htrig).sync0 (by omega)
  | false => exact absurd (level_kept htrig) h

/-- The rises up to the next trigger. -/
theorem count_rise (h : trigger e a = true) (hlt : a < m)
    (hnone : ∀ b, a < b → b < m → trigger e b = false) :
    count (rise (level e)) m = count (rise (level e)) a + (!level e a).toNat := by
  induction m, hlt using Nat.le_induction with
  | base => rw [Nat.succ_eq_add_one, count_succ, rise_eq, h, Bool.true_and]
  | succ m hlt ih =>
      rw [count_succ, rise_eq, hnone m hlt (Nat.lt_succ_self m), Bool.false_and,
        ih fun b hab hbm => hnone b hab (by omega)]
      rfl

/-- **A trigger** makes one pulse if it finds the level low, and none otherwise. -/
theorem snapReqs_of_trigger (hsep : Separated e) (h : trigger e a = true) (hlt : a < m)
    (hnone : ∀ b, a < b → b < m → trigger e b = false)
    (htime : sysEdges e (a + 1) + 4 ≤ sysEdges e m) :
    count (snapPulse e) m = count (snapPulse e) a + (!level e a).toNat := by
  have hstart := (settled_of_trigger hsep h).pending (Nat.le_refl 4)
  have hsettled := (synced e).settled (EdgeSync.Settled.zero _ _) (show a + 1 ≤ m from hlt)
    fun k hk hkm => level_kept (hnone k hk hkm)
  rw [sysEdges, sysEdges] at htime
  have hend := (hsettled.mono (by omega)).pending (Nat.le_refl 4)
  have hpulses : count (snapPulse e) m + _ + _ = count (snapPulse e) a + _ + _ :=
    (synced e).count_pulses (Nat.le_of_lt hlt) fun k _ _ => sync0_of_change hsep
  have hrises := count_rise h hlt hnone
  omega

/-- Pulses come from triggers. -/
theorem count_snapPulse_le (hsep : Separated e) (n : Nat) :
    count (snapPulse e) n ≤ count (trigger e) n := by
  have hpulses : count (snapPulse e) n + _ + _ = count (snapPulse e) 0 + _ + _ :=
    (synced e).count_pulses (Nat.zero_le n) fun k _ _ => sync0_of_change hsep
  have hrises : count (rise (level e)) n ≤ count (trigger e) n :=
    Nat.count_mono_left fun k _ hk => by
      rw [rise_eq, Bool.and_eq_true] at hk
      exact hk.1
  have hstart : ((trace e 0).sys.snapSync).pending (level e 0) = 0 := rfl
  rw [count_zero, count_zero] at hpulses
  omega

/-- There comes a time for `k` more edges. -/
theorem exists_sysEdges (hclk : ClocksAdvance e) (n k : Nat) :
    ∃ m, sysEdges e n + k ≤ sysEdges e m := by
  induction k with
  | zero => exact ⟨n, Nat.le_refl _⟩
  | succ k ih =>
      obtain ⟨m, hm⟩ := ih
      obtain ⟨m', hle, hedge⟩ := hclk.sys m
      have hmono := sysEdges_mono (e := e) hle
      refine ⟨m' + 1, ?_⟩
      rw [sysEdges_succ m', hedge, Bool.toNat_true]
      omega

/-- A trigger that makes one pulse has found the level low. -/
theorem level_of_requestsOne (hclk : ClocksAdvance e) (hsep : Separated e)
    (h : trigger e a = true) (hone : RequestsOne e a) : level e a = false := by
  have htime := exists_sysEdges hclk (a + 1) 4
  -- the first time at which the request of `a` is through: the next trigger is later
  have hm := Nat.find_spec htime
  have hmin := fun b => Nat.find_min htime (m := b)
  generalize Nat.find htime = m at hm hmin
  have hlt : a < m := by
    refine Nat.lt_of_not_le fun hle => ?_
    have hmono := sysEdges_mono (e := e) (show m ≤ a + 1 by omega)
    omega
  have hnone : ∀ b, a < b → b < m → trigger e b = false := fun b hab hbm =>
    Bool.eq_false_iff.mpr fun hb => hmin b hbm (hsep a b h hb hab)
  have hpulse := hone m hlt hnone hm
  rw [snapReqs_of_trigger hsep h hlt hnone hm] at hpulse
  cases hlevel : level e a with
  | false => rfl
  | true =>
      rw [hlevel] at hpulse
      exact absurd hpulse (by simp)

/-! ## edges that fall together -/

/-- Both clocks have an edge every time. -/
def EdgesTogether (e : Nat → PcieEdge) : Prop := ∀ n, (e n).sysEdge = true ∧ (e n).userEdge = true

theorem EdgesTogether.clocksAdvance (h : EdgesTogether e) : ClocksAdvance e where
  sys n := ⟨n, Nat.le_refl n, (h n).1⟩
  user n := ⟨n, Nat.le_refl n, (h n).2⟩

theorem EdgesTogether.sysEdges (h : EdgesTogether e) (n : Nat) : sysEdges e n = n :=
  Nat.count_of_forall fun k _ => (h k).1

theorem EdgesTogether.user_succ (h : EdgesTogether e) (n : Nat) :
    (trace e (n + 1)).user = (trace e n).user.step ((trace e n).userIn (e n)) := by
  rw [trace_succ, step, (h n).2, if_pos rfl]

/-- Triggers are five edges apart. -/
theorem EdgesTogether.separated (h : EdgesTogether e) : Separated e := by
  intro a b ha hb hlt
  rw [trigger, (h a).2, Bool.true_and, beq_iff_eq] at ha
  rw [trigger, (h b).2, Bool.true_and, beq_iff_eq] at hb
  have hleft : ∀ n, a < n → 4 ≤ PcieUser.toTrig (trace e n).user.dmaState + (n - (a + 1)) := by
    intro n hn
    induction n, hn using Nat.le_induction with
    | base =>
        rw [Nat.succ_eq_add_one, h.user_succ, PcieUser.toTrig_step_trig _ _ ha, Nat.sub_self]
    | succ n hn ih =>
        have hstep := PcieUser.toTrig_step (trace e n).user ((trace e n).userIn (e n))
        rw [h.user_succ]
        omega
  have hb' := hleft b hlt
  rw [hb] at hb'
  change 4 ≤ 0 + (b - (a + 1)) at hb'
  rw [h.sysEdges, h.sysEdges]
  omega

end Run

/-! ## waiting for the timer -/

/-- Nothing goes on: the state machine is idle, the synchronizers have settled and the
reads of the memories are done. -/
def Quiet (s : PcieDmaEngine) : Prop :=
  (s.user.dmaState = .dmaIdle ∧ s.user.periodicTick = false ∧ s.user.dmaBusyUc = false ∧
    s.user.axTxTvalid = false ∧ s.user.axTxTlast = false) ∧
  (s.user.stgRdData = s.sys.stagingMem s.user.stgRdPtr ∧
    s.user.descRdData = s.user.descRing s.user.descRdPtr) ∧
  (s.user.captDoneSync0 = s.sys.captDoneToggleSc ∧ s.user.captDoneSync1 = s.sys.captDoneToggleSc ∧
    s.user.captDonePrevUc = s.sys.captDoneToggleSc ∧ s.user.captDoneUc = false) ∧
  (s.sys.snapReqSync0 = s.user.snapReqLevelUc ∧ s.sys.snapReqSync1 = s.user.snapReqLevelUc ∧
    s.sys.snapReqPrevSc = s.user.snapReqLevelUc ∧ s.sys.snapReqSysPulse = false) ∧
  s.sys.captActiveSys = false ∧ s.sys.captDoneSys = false ∧ s.sys.dmaBusySync0 = false ∧
  s.sys.dmaBusySync1 = false ∧ s.sys.dmaActive = false ∧ s.sys.dmaErr = false

instance (s : PcieDmaEngine) : Decidable s.Quiet := inferInstanceAs (Decidable (_ ∧ _))

/-- The engine with another value of the timer. -/
def setTimer (s : PcieDmaEngine) (t : BitVec 22) : PcieDmaEngine :=
  { s with user := { s.user with periodicTimer := t } }

/-- Both edges, without RX beats; the snapshot has a single beat. -/
def idleEdge : PcieEdge where
  sysEdge := true
  userEdge := true
  snap := { snapData := 0, snapValid := true, snapDone := true }
  ip :=
    { userLnkUp := true, axTxTready := true, txBufAv := 32, axRxTdata := 0, axRxTvalid := false,
      axRxTlast := false, cfgBusNumber := 0, cfgDeviceNumber := 0, cfgFunctionNumber := 0 }

/-- The same with any snapshot. -/
def idleWith (x : SnapIn) : PcieEdge := { idleEdge with snap := x }

section Quiet

variable {x : SnapIn}

theorem quiet_step {s : PcieDmaEngine} (h : s.Quiet)
    (ht : s.user.periodicTimer ≠ BitVec.ofNat 22 (PcieUser.timerPeriodUc - 1)) :
    s.step (idleWith x) = s.setTimer (s.user.periodicTimer + 1) := by
  obtain ⟨sys, user⟩ := s
  obtain ⟨hidle, hread, hdone, hreq, hcapt⟩ := h
  cases sys
  cases user
  simp_all [step, setTimer, idleWith, idleEdge, sysIn, userIn, PcieSys.step, PcieSys.advance, PcieUser.step,
    PcieUser.stepRx, PcieUser.advance, PcieUser.stepDma]

/-- The timer runs on. -/
theorem quiet_run {s : PcieDmaEngine} (h : s.Quiet) {t : Nat} (ht : s.user.periodicTimer = BitVec.ofNat 22 t)
    (k : Nat) (hk : t + k < PcieUser.timerPeriodUc) :
    run step s (fun _ => idleWith x) k = s.setTimer (BitVec.ofNat 22 (t + k)) := by
  induction k with
  | zero =>
      rw [Nat.add_zero, ← ht]
      rfl
  | succ k ih =>
      have hperiod : PcieUser.timerPeriodUc = 2500000 := rfl
      have hne : BitVec.ofNat 22 (t + k) ≠ BitVec.ofNat 22 (PcieUser.timerPeriodUc - 1) := fun heq => by
        have hnat := (ofNat_inj_of_lt (by omega) (by omega)).mp heq
        omega
      have hquiet : (s.setTimer (BitVec.ofNat 22 (t + k))).Quiet := h
      have hnext : BitVec.ofNat 22 (t + (k + 1)) = BitVec.ofNat 22 (t + k) + 1 :=
        BitVec.ofNat_add (t + k) 1
      rw [run_succ, ih (by omega), quiet_step hquiet hne, hnext]
      rfl

/-- A run whose inputs are idle from time `n` on. -/
theorem trace_idle {e : Nat → PcieEdge} {n : Nat} (h : ∀ k, e (n + k) = idleWith x) (k : Nat) :
    trace e (n + k) = run step (trace e n) (fun _ => idleWith x) k := by
  rw [trace, run_add, funext h]
  rfl

/-- From one edge before the next tick of the timer on. -/
theorem trace_tick {e : Nat → PcieEdge} {n t : Nat} (h : ∀ k, e (n + k) = idleWith x)
    (hquiet : (trace e n).Quiet) (htimer : (trace e n).user.periodicTimer = BitVec.ofNat 22 t)
    (ht : t < PcieUser.timerPeriodUc) (k : Nat) :
    trace e (n + (PcieUser.timerPeriodUc - 1 - t) + k) =
      run step ((trace e n).setTimer 2499999#22) (fun _ => idleWith x) k := by
  have hperiod : PcieUser.timerPeriodUc = 2500000 := rfl
  have htick : trace e (n + (PcieUser.timerPeriodUc - 1 - t)) =
      (trace e n).setTimer 2499999#22 := by
    rw [trace_idle h, quiet_run hquiet htimer _ (by omega),
      show t + (PcieUser.timerPeriodUc - 1 - t) = 2499999 by omega]
  have hidle : ∀ j, e (n + (PcieUser.timerPeriodUc - 1 - t) + j) = idleWith x := fun j => by
    rw [Nat.add_assoc]
    exact h _
  rw [trace_idle hidle, htick]

end Quiet

/-! ## a capture that is never done -/

/-- No capture is done: after its first trigger the state machine waits forever. -/
structure NeverDone (s : PcieDmaEngine) : Prop where
  capt : s.sys.captDoneSys = false ∧ s.sys.captDoneToggleSc = false
  sync : s.user.captDoneSync0 = false ∧ s.user.captDoneSync1 = false ∧
    s.user.captDonePrevUc = false ∧ s.user.captDoneUc = false
  waits : s.user.dmaState = .dmaCaptWait ∨ s.user.snapReqLevelUc = false ∧
    (s.user.dmaState = .dmaIdle ∨ s.user.dmaState = .dmaTrig)

theorem NeverDone.step {s : PcieDmaEngine} {e : PcieEdge} (h : s.NeverDone)
    (hdone : (e.snap.snapValid && e.snap.snapDone) = false) : (s.step e).NeverDone := by
  obtain ⟨⟨hcapt, htoggle⟩, ⟨hsync0, hsync1, hprev, huc⟩, hwaits⟩ := h
  refine ⟨?_, ?_, ?_⟩
  · cases hsys : e.sysEdge with
    | true =>
        rw [PcieDmaEngine.step, hsys, if_pos rfl]
        refine ⟨(PcieSys.step_not_done _ _ hdone).1, ?_⟩
        rw [PcieSys.step_captDoneToggleSc, htoggle, hcapt]
        rfl
    | false =>
        rw [PcieDmaEngine.step, hsys]
        exact ⟨hcapt, htoggle⟩
  · cases huser : e.userEdge with
    | true =>
        rw [PcieDmaEngine.step, huser, if_pos rfl]
        rw [PcieUser.step, PcieUser.stepDma_eq, PcieUser.stepRx_eq]
        exact ⟨htoggle, hsync0, hsync1, by rw [PcieUser.advance, hsync1, hprev]; rfl⟩
    | false =>
        rw [PcieDmaEngine.step, huser]
        exact ⟨hsync0, hsync1, hprev, huc⟩
  · cases huser : e.userEdge with
    | true =>
        rw [PcieDmaEngine.step, huser, if_pos rfl]
        rw [PcieUser.step_snapReqLevelUc, PcieUser.step, PcieUser.stepDma]
        obtain hwait | ⟨hlevel, hidle | htrig⟩ := hwaits
        · simp [hwait, huc, PcieUser.advance]
        · simp only [hidle, hlevel]
          split <;> simp
        · simp [htrig]
    | false =>
        rw [PcieDmaEngine.step, huser]
        exact hwaits

/-- If no capture is done, a trigger finds the level low. -/
theorem level_of_not_done {e : Nat → PcieEdge}
    (hdone : ∀ n, ((e n).snap.snapValid && (e n).snap.snapDone) = false) {a : Nat}
    (h : trigger e a = true) : level e a = false := by
  have hnever : (trace e a).NeverDone :=
    run_invariant (P := fun _ => NeverDone)
      ⟨⟨rfl, rfl⟩, ⟨rfl, rfl, rfl, rfl⟩, .inr ⟨rfl, .inl rfl⟩⟩ (fun n hn => hn.step (hdone n)) a
  rw [trigger, Bool.and_eq_true, beq_iff_eq] at h
  obtain hwait | ⟨hlevel, -⟩ := hnever.waits
  · rw [hwait] at h
    cases h.2
  · exact hlevel

/-! ## every trigger -/

/-- **Each trigger requests one snapshot** exactly if each finds the level low. -/
theorem one_request_each_iff (e : Nat → PcieEdge) (hclk : ClocksAdvance e) (hsep : Separated e) :
    OneRequestEach e ↔ ∀ a, trigger e a = true → level e a = false := by
  constructor
  · intro h a ha
    exact level_of_requestsOne hclk hsep ha (h.each a ha)
  · intro h
    refine ⟨fun a ha m hlt hnone htime => ?_, count_snapPulse_le hsep⟩
    rw [snapReqs_of_trigger hsep ha hlt hnone htime, h a ha]
    rfl

/-- An RX beat. -/
def rxEdge (tdata : BitVec 64) (tlast : Bool) : PcieEdge :=
  { idleEdge with
    ip := { idleEdge.ip with axRxTdata := tdata, axRxTvalid := true, axRxTlast := tlast } }

/-- The host sets `dma_en`. -/
def dmaEnabled : Nat → PcieEdge
  | 0 => rxEdge 0x4000000100000000#64 false
  | 1 => rxEdge 0x000#64 false
  | 2 => rxEdge 0x00000001#64 true
  | _ => idleEdge

theorem dmaEnabled_idle {n : Nat} (h : 3 ≤ n) (k : Nat) : dmaEnabled (n + k) = idleEdge := by
  obtain ⟨m, rfl⟩ := Nat.exists_eq_add_of_le h
  rw [Nat.add_assoc, Nat.add_comm]
  rfl

theorem dmaEnabled_together : EdgesTogether dmaEnabled
  | 0 => ⟨rfl, rfl⟩
  | 1 => ⟨rfl, rfl⟩
  | 2 => ⟨rfl, rfl⟩
  | _ + 3 => ⟨rfl, rfl⟩

/-- The host sets `dma_en`, and no snapshot ever comes. -/
def noSnapshot (n : Nat) : PcieEdge :=
  { dmaEnabled n with snap := { snapData := 0, snapValid := false, snapDone := false } }

theorem noSnapshot_idle {n : Nat} (h : 3 ≤ n) (k : Nat) : noSnapshot (n + k) = idleWith ⟨0, false, false⟩ := by
  rw [noSnapshot, dmaEnabled_idle h]
  rfl

/-- The first tick of the timer is a trigger, and its request is made. -/
theorem first_request_made : trigger noSnapshot 2500001 = true ∧ OneRequestEach noSnapshot := by
  have htogether : EdgesTogether noSnapshot := dmaEnabled_together
  have hquiet : (trace noSnapshot 3).Quiet := by decide +kernel
  have htimer : (trace noSnapshot 3).user.periodicTimer = BitVec.ofNat 22 3 := by decide +kernel
  have htick : trace noSnapshot 2500001 =
      run step ((trace noSnapshot 3).setTimer 2499999#22) (fun _ => idleWith ⟨0, false, false⟩) 2 :=
    trace_tick (noSnapshot_idle (Nat.le_refl 3)) hquiet htimer (by decide) 2
  constructor
  · rw [trigger, (htogether _).2, htick]
    decide +kernel
  · exact (one_request_each_iff noSnapshot htogether.clocksAdvance htogether.separated).mpr
      fun _ => level_of_not_done fun _ => rfl

/-- The first period and the first snapshot. -/
theorem dmaEnabled_first (k : Nat) : trace dmaEnabled (2499999 + k) =
    run step ((trace dmaEnabled 3).setTimer 2499999#22) (fun _ => idleEdge) k := by
  have hquiet : (trace dmaEnabled 3).Quiet := by decide +kernel
  have htimer : (trace dmaEnabled 3).user.periodicTimer = BitVec.ofNat 22 3 := by decide +kernel
  exact trace_tick (x := idleEdge.snap) (dmaEnabled_idle (Nat.le_refl 3)) hquiet htimer (by decide) k

/-- The second period. -/
theorem dmaEnabled_second (k : Nat) : trace dmaEnabled (4999999 + k) =
    run step ((run step ((trace dmaEnabled 3).setTimer 2499999#22) (fun _ => idleEdge) 20).setTimer
      2499999#22) (fun _ => idleEdge) k := by
  have hquiet : (trace dmaEnabled 2500019).Quiet := by
    rw [dmaEnabled_first 20]
    decide +kernel
  have htimer : (trace dmaEnabled 2500019).user.periodicTimer = BitVec.ofNat 22 19 := by
    rw [dmaEnabled_first 20]
    decide +kernel
  rw [← dmaEnabled_first 20]
  exact trace_tick (x := idleEdge.snap) (dmaEnabled_idle (by decide)) hquiet htimer (by decide) k

/-- The second trigger finds the level high, and its request is lost. -/
theorem second_request_lost :
    ClocksAdvance dmaEnabled ∧ Separated dmaEnabled ∧ ¬ OneRequestEach dmaEnabled := by
  have hclk := dmaEnabled_together.clocksAdvance
  have hsep := dmaEnabled_together.separated
  refine ⟨hclk, hsep, fun h => ?_⟩
  have htrig : trigger dmaEnabled 5000001 = true := by
    rw [trigger, (dmaEnabled_together _).2, dmaEnabled_second 2]
    decide +kernel
  have hlevel : level dmaEnabled 5000001 = true := by
    rw [level, dmaEnabled_second 2]
    decide +kernel
  rw [level_of_requestsOne hclk hsep htrig (h.each _ htrig)] at hlevel
  cases hlevel

end PcieDmaEngine

end Lliu
