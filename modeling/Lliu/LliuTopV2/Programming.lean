import Lliu.Hdl.Store
import Lliu.LliuTopV2.Watchlist
import Lliu.OuchEngine.Encoding

/-!
# Lliu.LliuTopV2.Programming

Programming the memories.  The writes of the AXI4-Lite channel give commands to the
weight memories of the cores, the template memory of the OUCH engine and the entries of
the symbol filter.  Each memory is written by the commands meant for it and by nothing
else, in the order of the writes: two cycles after a write is applied its location has
the value last written to it (`memories_as_written`).
-/

namespace Lliu

open Hdl

/-! ## what a command writes -/

namespace AxilCommand

/-- The weight that a command writes. -/
def weightWrite : AxilCommand → Option ((Fin numCores × BitVec 5) × Bfloat16T)
  | .weight core addr data => some ((core, addr), data)
  | _ => none

/-- The template word that it writes. -/
def templateWrite : AxilCommand → Option (BitVec 9 × BitVec 64)
  | .template addr data => some (addr, data)
  | _ => none

/-- The entry of the symbol filter that it writes; there may be none. -/
def entryWrite : AxilCommand → Option (Nat × Option (BitVec 64))
  | .cam index data en => some (index.toNat, if en then some data else none)
  | _ => none

end AxilCommand

/-- The commands of a list of writes. -/
def commandsOf (ws : List (BitVec 12 × BitVec 32)) : List AxilCommand :=
  (feed ControlRegs.write Axil.reset.controlRegs ws).2

/-- The weight that a write to `0x800` to `0xBFC` is for. -/
def weightOf (x : BitVec 12 × BitVec 32) : Option ((Fin numCores × BitVec 5) × Bfloat16T) :=
  if x.1.extractLsb' 10 2 = 2#2 then
    some ((Axil.wgtCore x.1, x.1.extractLsb' 2 5), x.2.setWidth 16)
  else none

/-- No other write is for a weight. -/
theorem weightWrite_write (r : ControlRegs) (x : BitVec 12 × BitVec 32) :
    (r.write x).2.filterMap AxilCommand.weightWrite = (weightOf x).toList := by
  rw [ControlRegs.write, weightOf]
  split
  · rfl
  · change (r.commandOf x.1 x.2).filterMap AxilCommand.weightWrite = []
    rw [ControlRegs.commandOf]
    split_ifs <;> rfl

theorem weightWrite_feed (r : ControlRegs) (ws : List (BitVec 12 × BitVec 32)) :
    (feed ControlRegs.write r ws).2.filterMap AxilCommand.weightWrite = ws.filterMap weightOf := by
  induction ws generalizing r with
  | nil => rfl
  | cons x ws ih =>
      rw [feed_cons, List.filterMap_append, ih, weightWrite_write, List.filterMap_cons]
      cases weightOf x <;> rfl

/-! ## the memories -/

/-- The template memory as one memory of words; the beats 2 and 3 have half a word each. -/
structure HoldsTemplates (t : OuchTemplate (BitVec 7 → BitVec 32) (BitVec 7 → BitVec 64))
    (m : BitVec 9 → BitVec 64) : Prop where
  b2 : ∀ sym, t.b2 sym = (m (sym ++ 0#2)).setWidth 32
  b3 : ∀ sym, t.b3 sym = (m (sym ++ 1#2)).setWidth 32
  b4 : ∀ sym, t.b4 sym = m (sym ++ 2#2)
  b5 : ∀ sym, t.b5 sym = m (sym ++ 3#2)

/-- An address is a symbol and a beat. -/
theorem append_eq_iff (a : BitVec 9) (sym : BitVec 7) (b : BitVec 2) :
    sym ++ b = a ↔ sym = a.extractLsb' 2 7 ∧ b = a.setWidth 2 := by
  constructor
  · rintro rfl
    exact ⟨(OuchEngine.extractLsb'_append_high sym b).symm, (OuchEngine.setWidth_append_low sym b).symm⟩
  · rintro ⟨rfl, rfl⟩
    ext k hk
    simp only [BitVec.getElem_append, BitVec.getElem_setWidth, BitVec.getElem_extractLsb']
    split
    · rw [BitVec.getLsbD_eq_getElem hk]
    · rw [show 2 + (k - 2) = k by omega, BitVec.getLsbD_eq_getElem hk]

/-- A template write goes to the beat of its symbol. -/
theorem HoldsTemplates.write {s : OuchEngine} {m : BitVec 9 → BitVec 64} (h : HoldsTemplates s.tmpl m)
    {i : OuchEngineIn} (hen : i.tmplWrEn = true) :
    HoldsTemplates (s.writeTemplate i) (Function.update m i.tmplWrAddr i.tmplWrData) := by
  obtain ⟨h2, h3, h4, h5⟩ := h
  have hbeat : i.tmplWrAddr.setWidth 2 = 0#2 ∨ i.tmplWrAddr.setWidth 2 = 1#2 ∨
      i.tmplWrAddr.setWidth 2 = 2#2 ∨ i.tmplWrAddr.setWidth 2 = 3#2 := by bv_omega
  have hread : ∀ sym b, Function.update m i.tmplWrAddr i.tmplWrData (sym ++ b) =
      if sym = i.tmplWrAddr.extractLsb' 2 7 ∧ b = i.tmplWrAddr.setWidth 2 then i.tmplWrData
      else m (sym ++ b) := fun sym b => by
    rw [Function.update_apply]
    simp only [append_eq_iff]
  rcases hbeat with hb | hb | hb | hb <;> constructor <;> intro sym <;> rw [hread] <;>
    simp only [OuchEngine.writeTemplate, hen, hb] <;>
    by_cases hsym : sym = i.tmplWrAddr.extractLsb' 2 7 <;>
    simp [hsym, h2, h3, h4, h5]

theorem OuchEngine.tmpl_step (s : OuchEngine) (i : OuchEngineIn) :
    (s.step i).tmpl = s.writeTemplate i := by
  obtain ⟨bp, clr, ovf, hadv⟩ := advance_eq s i
  rw [step, hadv]
  cases s.state with
  | sIdle =>
      simp only [stepIdle]
      split <;> rfl
  | sFetch => rfl
  | sLoad => rfl
  | sSend =>
      simp only [stepSend]
      split_ifs <;> rfl

theorem LliuCore.mem_step (vecLen hidden : Nat) (s : LliuCore) (i : LliuCoreIn) :
    (s.step vecLen hidden i).uWeightMem.mem =
      if i.wgtWrEn then Function.update s.uWeightMem.mem i.wgtWrAddr i.wgtWrData
      else s.uWeightMem.mem := by
  have hadv : (s.advance vecLen hidden i).uWeightMem.mem =
      if i.wgtWrEn then Function.update s.uWeightMem.mem i.wgtWrAddr i.wgtWrData
      else s.uWeightMem.mem := rfl
  rw [step, ← hadv]
  cases s.seqState with
  | seqIdle =>
      simp only [stepIdle]
      split <;> rfl
  | seqPreload => rfl
  | seqFeed =>
      simp only [stepFeed]
      split <;> rfl
  | seqWait =>
      simp only
      split <;> rfl

namespace LliuTopV2

variable {i : Nat → LliuTopV2In}

/-- The weights of all cores as one memory. -/
def weights (s : LliuTopV2) (x : Fin numCores × BitVec 5) : Bfloat16T :=
  (s.uCore x.1).uWeightMem.mem x.2.toNat

/-- The commands for the weight memories are those of the cores that are enabled. -/
theorem weightWrite_commands (s : Axil) : s.commands.filterMap AxilCommand.weightWrite =
    ((List.finRange numCores).filter s.wgtWrEnAr).map fun k =>
      ((k, s.wgtWrAddrAr k), s.wgtWrDataAr k) := by
  have hmap : ∀ ks : List (Fin numCores), (ks.map fun k => AxilCommand.weight k (s.wgtWrAddrAr k)
      (s.wgtWrDataAr k)).filterMap AxilCommand.weightWrite =
        ks.map fun k => ((k, s.wgtWrAddrAr k), s.wgtWrDataAr k) := fun ks => by
    rw [List.filterMap_map]
    change ks.filterMap (some ∘ fun k => ((k, s.wgtWrAddrAr k), s.wgtWrDataAr k)) = _
    rw [List.filterMap_eq_map]
  rw [Axil.commands, List.filterMap_append, List.filterMap_append, List.filterMap_append, hmap]
  cases s.camWrValid <;> cases s.tmplWrEn <;> cases s.axilClear <;>
    simp [List.filterMap_cons, AxilCommand.weightWrite]

/-- The commands for the template memory. -/
theorem templateWrite_commands (s : Axil) : s.commands.filterMap AxilCommand.templateWrite =
    if s.tmplWrEn then [(s.tmplWrAddr, s.tmplWrData)] else [] := by
  have hmap : ∀ ks : List (Fin numCores), (ks.map fun k => AxilCommand.weight k (s.wgtWrAddrAr k)
      (s.wgtWrDataAr k)).filterMap AxilCommand.templateWrite = [] := fun ks => by
    rw [List.filterMap_map, List.filterMap_eq_nil_iff]
    exact fun _ _ => rfl
  rw [Axil.commands, List.filterMap_append, List.filterMap_append, List.filterMap_append, hmap]
  cases s.camWrValid <;> cases s.tmplWrEn <;> cases s.axilClear <;>
    simp [List.filterMap_cons, AxilCommand.templateWrite]

/-- **Step lemma**: a cycle makes the weight writes of its commands. -/
theorem weights_step (s : LliuTopV2) (i : LliuTopV2In) :
    (s.step i).weights = store s.weights (s.axil.commands.filterMap AxilCommand.weightWrite) := by
  funext ⟨k, a⟩
  rw [weightWrite_commands, store_rows, weights, step, LliuCore.mem_step]
  simp only [List.mem_filter, List.mem_finRange, true_and]
  cases hen : s.axil.wgtWrEnAr k with
  | false => simp [coreIn, hen, weights]
  | true =>
      simp only [coreIn, hen, if_true, Function.update_apply, true_and, weights, BitVec.toNat_inj]

/-- **Step lemma**: and the template write, if there is one. -/
theorem HoldsTemplates.step {s : LliuTopV2} {m : BitVec 9 → BitVec 64} (h : HoldsTemplates s.uOuch.tmpl m)
    (i : LliuTopV2In) : HoldsTemplates (s.step i).uOuch.tmpl
      (store m (s.axil.commands.filterMap AxilCommand.templateWrite)) := by
  rw [templateWrite_commands, LliuTopV2.step, OuchEngine.tmpl_step]
  cases hen : s.axil.tmplWrEn with
  | false =>
      have hkept : s.uOuch.writeTemplate (s.ouchIn i) = s.uOuch.tmpl := by
        rw [OuchEngine.writeTemplate, ouchIn, hen]
        rfl
      rw [hkept]
      exact h
  | true => exact h.write hen

/-! ## runs -/

/-- The commands given up to cycle `n` are those of the writes applied before. -/
theorem commands_trace (n : Nat) :
    (List.range (n + 1)).flatMap (fun k => (trace i k).axil.commands) = commandsOf (writesApplied i n) :=
  ((executes_applied (i := i)).feed_eq n).2

/-- The weights are those of the weight writes, in order. -/
theorem weights_trace (n : Nat) : (trace i (n + 1)).weights =
    store (fun _ => 0) ((writesApplied i n).filterMap weightOf) := by
  have hrun := store_run (m := fun k => (trace i k).weights) (fun k => weights_step (trace i k) (i k))
    (n + 1)
  rw [← List.filterMap_flatMap, commands_trace, commandsOf, weightWrite_feed] at hrun
  exact hrun

/-- The template memory is that of the template commands, in order. -/
theorem templates_trace (n : Nat) : HoldsTemplates (trace i (n + 1)).uOuch.tmpl
    (store (fun _ => 0) ((commandsOf (writesApplied i n)).filterMap AxilCommand.templateWrite)) := by
  rw [← commands_trace, List.filterMap_flatMap]
  generalize n + 1 = m
  induction m with
  | zero => exact ⟨fun _ => rfl, fun _ => rfl, fun _ => rfl, fun _ => rfl⟩
  | succ m ih =>
      rw [List.range_succ, List.flatMap_append, store_append, List.flatMap_singleton]
      exact HoldsTemplates.step ih (i m)

/-- **Programming**: in every run a weight that the cores read is the last one written to its
core and address, or zero if none was; the templates are the words last committed to their
addresses; and the registers are those of the writes, each register with its own address. -/
theorem memories_as_written (i : Nat → LliuTopV2In) (n : Nat) :
    (trace i n).axil.controlRegs =
      (feed ControlRegs.write Axil.reset.controlRegs (writesApplied i n)).1 ∧
    (∀ k a, (trace i (n + 1)).weights (k, a) =
      (lastWrite ((writesApplied i n).filterMap weightOf) (k, a)).getD 0) ∧
    (∀ sym, (trace i (n + 1)).uOuch.readTemplate sym =
      let m a := (lastWrite ((commandsOf (writesApplied i n)).filterMap AxilCommand.templateWrite) a).getD 0
      ⟨(m (sym ++ 0#2)).setWidth 32, (m (sym ++ 1#2)).setWidth 32, m (sym ++ 2#2), m (sym ++ 3#2)⟩) := by
  refine ⟨((executes_applied (i := i)).feed_eq n).1, fun k a => ?_, fun sym => ?_⟩
  · rw [weights_trace, store_apply]
  · obtain ⟨h2, h3, h4, h5⟩ := templates_trace (i := i) n
    rw [OuchEngine.readTemplate, h2, h3, h4, h5]
    simp only [store_apply]

end LliuTopV2

end Lliu
