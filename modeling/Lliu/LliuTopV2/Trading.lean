import Lliu.LliuTopV2.Hold
import Lliu.LliuTopV2.Kill
import Lliu.Trader

/-!
# Lliu.LliuTopV2.Trading

The top level as a trader.  In a run without the collisions that the design does not
guard against (`Calm`), what comes out of the OUCH engine and what stands in the
position memory is, 82 cycles behind the parser, what the trader of `Lliu.Trader` makes
of the same signals one at a time (`trades_as_trader`).
-/

namespace Lliu

namespace LliuTopV2

open Hdl OuchEngine

variable {i : Nat → LliuTopV2In}

/-- The message whose `fields_valid` pulses in cycle `t` reaches the extractor. -/
def arrives (i : Nat → LliuTopV2In) (t : Nat) : Bool := (trace i (t + 3)).featExtFv

/-- `ref_price`: the middle of the best prices. -/
def midPrice (s : LliuTopV2) : BitVec 32 := (s.uOb.bboBidPrice >>> 1) + (s.uOb.bboAskPrice >>> 1)

/-- The signal of that message: its fields, the reference price as it reaches the extractor,
the scores of its vector, and the control registers when it is proposed and checked. -/
def signalAt (i : Nat → LliuTopV2In) (t : Nat) : Signal where
  side := (msgFields i t).side
  price := (msgFields i t).price
  symId := (msgFields i t).symId
  refPrice := (trace i (t + 3)).midPrice
  scores := scoreAt i (t + 3)
  scoreThresh := (trace i (t + 73)).axil.scoreThreshR
  shares := (trace i (t + 76)).axil.coreSharesAr
  bandBps := (trace i (t + 76)).axil.bandBpsR
  maxQty := (trace i (t + 76)).axil.maxQtyR
  halted := (trace i (t + 76)).axil.killSwR || (trace i (t + 76)).uOuch.txOverflow

theorem signalAt_maxQty (t : Nat) : (signalAt i t).maxQty = (trace i (t + 76)).axil.maxQtyR := by
  rw [signalAt]

/-- The signals of the messages parsed before cycle `n`. -/
def signals (i : Nat → LliuTopV2In) (n : Nat) : List Signal :=
  collect (fun t => if arrives i t then some (signalAt i t) else none) n

/-- The orders that the OUCH engine has accepted before cycle `n`, with their templates. -/
def accepted (i : Nat → LliuTopV2In) (n : Nat) :
    List (LatchedOrder × OuchTemplate (BitVec 32) (BitVec 64)) :=
  collect (fun a => (trace i a).uOuch.accepts ((trace i a).ouchIn (i a))) n

/-- A run without collisions. -/
structure Calm (i : Nat → LliuTopV2In) : Prop where
  /-- Messages of the watchlist are 79 cycles apart, -/
  apart : ∀ t t', arrives i t = true → arrives i t' = true → t < t' → t + 79 ≤ t'
  /-- and no frame of a single beat comes right behind one. -/
  behind : ∀ t, arrives i t = true → (trace i (t + 1)).uParser.state ≠ .sEmit
  /-- Orders are small beside the 24 bits of a position. -/
  quantity : ∀ t, arrives i t = true → (trace i (t + 76)).axil.maxQtyR.toNat + 1000 < 2 ^ 24
  /-- The share count of core 0, with which an order is sent, is that of the firing core. -/
  shares : ∀ t k, arrives i t = true → Trader.firing (signalAt i t) = some k →
    (trace i (t + 82)).axil.coreSharesAr 0 = (trace i (t + 76)).axil.coreSharesAr k
  /-- The receiver takes a packet in the time between two orders. -/
  ready : ∀ n, 6 ≤ count (fun k => (i (n + k)).mAxisTready) 76

/-! ## the proposal -/

theorem Calm.taken (h : Calm i) {t : Nat} (ht : arrives i t = true) : Taken i (t + 10) := by
  refine taken_of_apart (c := t + 3) ht fun b hb hlt => ?_
  obtain ⟨t', rfl, -⟩ := fieldsValid_of_featExtFv hb
  have := h.apart t' t hb ht (by omega)
  omega

/-- The arbiter gets the scores of the signal. -/
theorem competes_iff {t : Nat} (ht : Taken i (t + 10)) (k : Fin numCores) :
    StrategyArbiter.Competes (trace i (t + 73)).arbIn k ↔ Trader.Reaches (signalAt i t) k := by
  have hvalid : (trace i (t + 73)).arbIn.coreValids k = true :=
    (ht.result k 63 (le_refl 63)).trans (decide_eq_true rfl)
  have hscore : (trace i (t + 73)).arbIn.coreScores k = scoreAt i (t + 3) k := ht.score k
  rw [StrategyArbiter.Competes, hvalid, hscore]
  exact and_iff_right rfl

/-- What it proposes is what the trader does. -/
theorem firing_of_taken {t : Nat} (ht : Taken i (t + 10)) :
    ((trace i (t + 76)).uArb.bestValid = false ∧ Trader.firing (signalAt i t) = none) ∨
    ∃ k : Fin numCores, (trace i (t + 76)).uArb.bestValid = true ∧
      (trace i (t + 76)).uArb.bestCoreId = BitVec.ofNat 3 k.val ∧
      Trader.firing (signalAt i t) = some k := by
  have hbest : (trace i (t + 76)).uArb.best = StrategyArbiter.winner (trace i (t + 73)).arbIn :=
    best_add (t + 73)
  have hscore : ∀ k, StrategyArbiter.scoreOf (trace i (t + 73)).arbIn k =
      ((signalAt i t).scores k).toNat := fun k => congrArg BitVec.toNat (ht.score k)
  have hstands := StrategyArbiter.stands_winner (trace i (t + 73)).arbIn
  rw [← hbest] at hstands
  rw [StrategyArbiter.bestValid, StrategyArbiter.bestCoreId]
  generalize (trace i (t + 76)).uArb.best = c at hstands
  cases hstands with
  | none c hvalid hnone =>
      refine Or.inl ⟨hvalid, Trader.firing_eq_none fun k hk => ?_⟩
      exact hnone k (List.mem_finRange k) ((competes_iff ht k).mpr hk)
  | best k hk =>
      refine Or.inr ⟨k, rfl, rfl, Trader.firing_of_firstMax ?_⟩
      have hcand : StrategyArbiter.Competes (trace i (t + 73)).arbIn = Trader.Reaches (signalAt i t) :=
        funext fun k => propext (competes_iff ht k)
      rwa [hcand, funext hscore] at hk

/-! ## the order fields -/

/-- Nothing else reaches the extractor until the order is sent. -/
theorem Calm.alone (h : Calm i) {t c : Nat} (ht : arrives i t = true) (hlt : t + 3 < c)
    (hle : c < t + 82) : (trace i c).featExtFv = false := by
  rw [Bool.eq_false_iff]
  intro hc
  obtain ⟨t', rfl, -⟩ := fieldsValid_of_featExtFv hc
  have := h.apart t t' ht hc (by omega)
  omega

theorem Calm.lastLoad (h : Calm i) {t n : Nat} (ht : arrives i t = true) (hlt : t + 3 < n)
    (hle : n ≤ t + 82) : LastLoad (loads i) (t + 3) n (t + 3) :=
  ⟨le_refl _, hlt, ht, fun _ hc hcn => h.alone ht hc (by omega)⟩

/-- The hold registers have the fields of the message until its order is sent. -/
theorem Calm.held (h : Calm i) {t n : Nat} (ht : arrives i t = true) (hlt : t + 3 < n)
    (hle : n ≤ t + 82) : (trace i n).held = msgFields i t := by
  obtain ⟨t', heq, hpulse⟩ := fieldsValid_of_featExtFv ht
  obtain rfl : t = t' := by omega
  have hidle : (trace i t).uParser.state ≠ .sEmit := by rw [state_of_fieldsValid hpulse]; decide
  calc (trace i n).held = (trace i (t + 2 + 1)).d1Fields := hold_held.of_lastLoad (h.lastLoad ht hlt hle)
    _ = msgFields i (t + 1 + 1) := d1Fields_succ _
    _ = msgFields i (t + 1) := msgFields_succ (h.behind t ht)
    _ = msgFields i t := msgFields_succ hidle

theorem hold_heldRefR :
    Hold (loads i) (fun c => (trace i c).midPrice) (fun n => (trace i n).heldRefR) := fun _ => rfl

theorem Calm.heldRefR (h : Calm i) {t n : Nat} (ht : arrives i t = true) (hlt : t + 3 < n)
    (hle : n ≤ t + 82) : (trace i n).heldRefR = (trace i (t + 3)).midPrice :=
  hold_heldRefR.of_lastLoad (h.lastLoad ht hlt hle)

/-! ## the verdict -/

/-- The order that core `k` proposes for a signal. -/
def orderOf (q : Signal) (k : Fin numCores) : Order := ⟨q.side, q.price, q.symId, q.shares k⟩

theorem ofNat_bestCoreId (k : Fin numCores) :
    Fin.ofNat numCores (BitVec.ofNat 3 k.val).toNat = k := by
  have hk : k.val < 2 ^ 3 := k.isLt
  rw [BitVec.toNat_ofNat, Nat.mod_eq_of_lt hk]
  exact Fin.ext (Nat.mod_eq_of_lt k.isLt)

section Inputs

variable (s : LliuTopV2)

@[simp] theorem riskIn_scoreValid : s.riskIn.scoreValid = s.uArb.bestValid := rfl
@[simp] theorem riskIn_side : s.riskIn.side = s.held.side := rfl
@[simp] theorem riskIn_price : s.riskIn.price = s.held.price := rfl
@[simp] theorem riskIn_symbolId : s.riskIn.symbolId = s.held.symId := rfl
@[simp] theorem riskIn_proposedShares : s.riskIn.proposedShares = s.riskProposedShares := rfl
@[simp] theorem riskIn_txOverflow : s.riskIn.txOverflow = s.uOuch.txOverflow := rfl
@[simp] theorem riskIn_bandBps : s.riskIn.bandBps = s.axil.bandBpsR := rfl
@[simp] theorem riskIn_maxQty : s.riskIn.maxQty = s.axil.maxQtyR := rfl
@[simp] theorem riskIn_posLimit : s.riskIn.posLimit = 1000 := rfl
@[simp] theorem riskIn_killSw : s.riskIn.killSw = s.axil.killSwR := rfl
@[simp] theorem riskIn_refPrice : s.riskIn.refPrice = s.heldRefR := rfl
@[simp] theorem ouchIn_riskPass (x : LliuTopV2In) : (s.ouchIn x).riskPass = s.uRisk.riskPass := rfl
@[simp] theorem ouchIn_mAxisTready (x : LliuTopV2In) : (s.ouchIn x).mAxisTready = x.mAxisTready := rfl

end Inputs

/-- The order of a signal at the risk check. -/
structure Proposed (i : Nat → LliuTopV2In) (t : Nat) (k : Fin numCores) : Prop where
  valid : (trace i (t + 76)).riskIn.scoreValid = true
  checked : checkedOrder i (t + 76) = (orderOf (signalAt i t) k).latched
  side : (trace i (t + 76)).riskIn.side = (signalAt i t).side
  price : (trace i (t + 76)).riskIn.price = (signalAt i t).price
  symId : (trace i (t + 76)).riskIn.symbolId = (signalAt i t).symId
  shares : (trace i (t + 76)).riskIn.proposedShares = (signalAt i t).shares k
  refPrice : (trace i (t + 76)).riskIn.refPrice = (signalAt i t).refPrice

theorem Calm.proposed (h : Calm i) {t : Nat} {k : Fin numCores} (ht : arrives i t = true)
    (hvalid : (trace i (t + 76)).uArb.bestValid = true)
    (hid : (trace i (t + 76)).uArb.bestCoreId = BitVec.ofNat 3 k.val) : Proposed i t k := by
  have hheld := h.held ht (n := t + 76) (by omega) (by omega)
  have hshares : (trace i (t + 76)).riskProposedShares = (signalAt i t).shares k := by
    rw [riskProposedShares, hid, ofNat_bestCoreId, signalAt]
  exact
    { valid := by rw [riskIn_scoreValid, hvalid]
      checked := by rw [checkedOrder_eq, hheld, hshares, orderOf, Order.latched, signalAt]
      side := by rw [riskIn_side, hheld, signalAt]
      price := by rw [riskIn_price, hheld, signalAt]
      symId := by rw [riskIn_symbolId, hheld, signalAt]
      shares := by rw [riskIn_proposedShares, hshares]
      refPrice := by rw [riskIn_refPrice, h.heldRefR ht (by omega) (by omega), signalAt] }

/-- It comes to the position check if the trader clears it. -/
theorem Proposed.reachesLimit_iff {t : Nat} {k : Fin numCores} (h : Proposed i t k) :
    RiskCheck.ReachesLimit (trace i (t + 76)).riskIn ↔
      Trader.Cleared (signalAt i t) (orderOf (signalAt i t) k) := by
  have hhalted : (signalAt i t).halted = false ↔
      (trace i (t + 76)).axil.killSwR = false ∧ (trace i (t + 76)).uOuch.txOverflow = false := by
    rw [signalAt, Bool.or_eq_false_iff]
  rw [RiskCheck.ReachesLimit, Trader.Cleared, hhalted, RiskCheck.priceDiff_le_iff, h.price, h.refPrice,
    h.shares, riskIn_killSw, riskIn_txOverflow, riskIn_bandBps, riskIn_maxQty, and_assoc, orderOf]
  simp only [signalAt]

theorem Proposed.signedShares {t : Nat} {k : Fin numCores} (h : Proposed i t k) :
    RiskCheck.signedShares (trace i (t + 76)).riskIn = (orderOf (signalAt i t) k).signedShares := by
  rw [RiskCheck.signedShares, h.side, h.shares, Order.signedShares, orderOf]

/-- The position check sees the exact position. -/
theorem seenAbs_resulting {t : Nat} {k : Fin numCores} (h : Proposed i t k) {pos : BitVec 24}
    (hpos : pos.toInt.natAbs ≤ 1000) (hsmall : (orderOf (signalAt i t) k).shares.toNat + 1000 < 2 ^ 24) :
    RiskCheck.seenAbs (RiskCheck.resulting (trace i (t + 76)).riskIn pos) =
      (pos.toInt + (orderOf (signalAt i t) k).signedShares).natAbs := by
  have hlt : (pos.toInt + (orderOf (signalAt i t) k).signedShares).natAbs < 2 ^ 24 := by
    rw [Order.signedShares]
    split <;> omega
  rw [RiskCheck.resulting, h.signedShares, RiskCheck.seenAbs, if_pos hlt]

/-- It passes if the rules of the trader allow it. -/
theorem Proposed.passes_iff {t : Nat} {k : Fin numCores} (h : Proposed i t k)
    (hqty : (trace i (t + 76)).axil.maxQtyR.toNat + 1000 < 2 ^ 24) {e : Int}
    (hpos : ∀ sym, (position i (t + 79) sym).toInt.natAbs ≤ 1000)
    (he : e = (position i (t + 79) (signalAt i t).symId).toInt +
      (orderOf (signalAt i t) k).signedShares) :
    passes i (t + 82) = true ↔
      Trader.rules.allows (signalAt i t) (orderOf (signalAt i t) k) e = true := by
  have hpass : passes i (t + 82) = (verdictOn i (t + 76)).1 := riskPass_add (t + 76)
  have hread : (trace i (t + 76 + 3)).uRisk.posMem (trace i (t + 76)).riskIn.symbolId =
      position i (t + 79) (signalAt i t).symId := by
    rw [position, h.symId]
  rw [hpass, verdictOn, RiskCheck.fst_verdict_checks h.valid, h.reachesLimit_iff, hread,
    riskIn_posLimit]
  rw [Trader.allows_iff]
  refine and_congr_right fun hcleared => ?_
  have hsmall : (orderOf (signalAt i t) k).shares.toNat + 1000 < 2 ^ 24 := by
    obtain ⟨-, -, hle⟩ := hcleared
    rw [signalAt_maxQty] at hle
    omega
  rw [seenAbs_resulting h (hpos _) hsmall, he]
  rfl

/-! ## what passes is sent -/

/-- What passes is a message of 82 cycles before. -/
theorem arrives_of_passes {a : Nat} (h : passes i a = true) : ∃ t, a = t + 82 ∧ arrives i t = true := by
  obtain ⟨n, rfl, hn⟩ := bestValid_of_riskPass h
  obtain ⟨m, rfl, hm⟩ := taken_of_bestValid hn
  obtain ⟨c, rfl, hc⟩ := hm.message
  obtain ⟨t, rfl, -⟩ := fieldsValid_of_featExtFv hc
  exact ⟨t, rfl, hc⟩

theorem Calm.not_passes (h : Calm i) {t a : Nat} (ht : arrives i t = true) (hlt : t + 3 < a)
    (hle : a < t + 82) : passes i a = false := by
  rw [Bool.eq_false_iff]
  intro ha
  obtain ⟨t', rfl, ht'⟩ := arrives_of_passes ha
  have := h.apart t' t ht' ht (by omega)
  omega

theorem Calm.position_kept (h : Calm i) {t : Nat} (ht : arrives i t = true) :
    position i (t + 82) = position i (t + 79) := by
  rw [position_of_not_passes (h.not_passes ht (a := t + 81) (by omega) (by omega)),
    position_of_not_passes (h.not_passes ht (a := t + 80) (by omega) (by omega)),
    position_of_not_passes (h.not_passes ht (a := t + 79) (by omega) (by omega))]

/-- Out of `S_IDLE` the engine is busy with the last order taken. -/
theorem idle_or_since (n : Nat) : (trace i n).uOuch.state = .sIdle ∨
    ∃ a, a < n ∧ takes i a = true ∧ ∀ m, a < m → m ≤ n → (trace i m).uOuch.state ≠ .sIdle := by
  induction n with
  | zero => exact Or.inl rfl
  | succ n ih =>
      by_cases hidle : (trace i (n + 1)).uOuch.state = .sIdle
      · exact Or.inl hidle
      · refine Or.inr ?_
        rcases ih with hn | ⟨a, ha, htake, hbusy⟩
        · refine ⟨n, Nat.lt_succ_self n, ?_, fun m hm hle => ?_⟩
          · cases hp : passes i n with
            | true => rw [takes, hp, hn]; rfl
            | false =>
                exact absurd (step_idle _ ((trace i n).ouchIn (i n)) hn hp) hidle
          · rwa [show m = n + 1 by omega]
        · refine ⟨a, by omega, htake, fun m hm hle => ?_⟩
          by_cases hlast : m = n + 1
          · rwa [hlast]
          · exact hbusy m hm (by omega)

/-- The engine runs on the orders at its inputs. -/
theorem uOuch_trace (n m : Nat) : (trace i (n + m)).uOuch =
    run OuchEngine.step (trace i n).uOuch (fun k => (trace i (n + k)).ouchIn (i (n + k))) m := by
  induction m with
  | zero => rfl
  | succ m ih => rw [run_succ, ← ih]; rfl

/-- Every order finds the engine idle. -/
theorem Calm.engine_takes (h : Calm i) {a : Nat} (ha : passes i a = true) : takes i a = true := by
  rcases idle_or_since (i := i) a with hidle | ⟨b, hlt, hb, hbusy⟩
  · rw [takes, ha, hidle]
    rfl
  · exfalso
    obtain ⟨t, rfl, ht⟩ := arrives_of_passes ha
    obtain ⟨hpb, hidle⟩ := Bool.and_eq_true_iff.mp hb
    obtain ⟨t', rfl, ht'⟩ := arrives_of_passes hpb
    have hspace := h.apart t' t ht' ht (by omega)
    have haccept : ((trace i (t' + 82)).uOuch.accepts
        ((trace i (t' + 82)).ouchIn (i (t' + 82)))).isSome = true := by
      rw [passes] at hpb
      rw [accepts, ouchIn_riskPass, if_pos ⟨eq_of_beq hidle, hpb⟩, Option.isSome_some]
    have hready := h.ready (t' + 82 + 3)
    simp only [Nat.add_assoc (t' + 82) 3] at hready
    obtain ⟨c, hpos, hle, hc⟩ := exists_idle
      (i := fun k => (trace i (t' + 82 + k)).ouchIn (i (t' + 82 + k))) haccept hready
    rw [← uOuch_trace] at hc
    exact hbusy (t' + 82 + c) (by omega) (by omega) hc

/-! ## the trader, one signal at a time -/

/-- In cycle `t + 82` positions and orders are those of the trader after the messages parsed
before cycle `t`. -/
structure Tracks (i : Nat → LliuTopV2In) (t : Nat) : Prop where
  positions : ∀ sym, (position i (t + 82) sym).toInt = Trader.positions (signals i t) sym
  orders : (cyclesOf (takes i) (t + 82)).map (orderAt i) =
    (Trader.orders (signals i t)).map Order.latched

theorem signals_succ (t : Nat) : signals i (t + 1) =
    signals i t ++ if arrives i t then [signalAt i t] else [] := by
  rw [signals, collect_succ, signals]
  cases arrives i t <;> rfl

/-- The orders accepted are those that the engine takes. -/
theorem map_accepted (n : Nat) :
    (accepted i n).map Prod.fst = (cyclesOf (takes i) n).map (orderAt i) := by
  induction n with
  | zero => rfl
  | succ n ih =>
      rw [accepted, collect_succ, List.map_append, cyclesOf_succ, List.map_append, ← ih, accepted]
      congr 1
      cases ht : takes i n with
      | true =>
          obtain ⟨hp, hidle⟩ := Bool.and_eq_true_iff.mp ht
          rw [passes] at hp
          rw [accepts, ouchIn_riskPass, if_pos ⟨eq_of_beq hidle, hp⟩]
          rfl
      | false =>
          rw [accepts, ouchIn_riskPass, if_neg ?_]
          · rfl
          · rintro ⟨hidle, hp⟩
            rw [takes, passes, hp, hidle] at ht
            cases ht

theorem signedShares_latched (o : Order) (sym : SymId) :
    signedShares o.latched sym = Trader.rules.added sym o := by
  rw [signedShares, LimitLedger.added]
  by_cases h : o.symId = sym
  · have hwide : o.latched.symId = sym.setWidth 7 := congrArg (BitVec.setWidth 7) h
    rw [if_pos hwide]
    exact (if_pos h).symm
  · have hwide : o.latched.symId ≠ sym.setWidth 7 := fun hs => h (symId_inj hs)
    rw [if_neg hwide]
    exact (if_neg h).symm

/-- Nothing comes out in the first 82 cycles. -/
theorem tracks_zero : Tracks i 0 := by
  have hquiet : ∀ a, a < 82 → passes i a = false := fun a ha => by
    rw [Bool.eq_false_iff]
    intro hp
    obtain ⟨t, rfl, -⟩ := arrives_of_passes hp
    omega
  constructor
  · intro sym
    have hzero : ∀ a, a ≤ 82 → position i a sym = 0 := by
      intro a ha
      induction a with
      | zero => rfl
      | succ a ih => rw [position_of_not_passes (hquiet a ha), ih (by omega)]
    rw [hzero 82 (le_refl 82)]
    rfl
  · have hnone : cyclesOf (takes i) 82 = [] := by
      rw [cyclesOf, List.filter_eq_nil_iff]
      intro a ha
      rw [takes, hquiet a (List.mem_range.mp ha)]
      exact Bool.false_ne_true
    rw [hnone]
    rfl

/-- The proposal of a message passes if the trader lets its order through. -/
theorem Calm.through (h : Calm i) {t : Nat} (ht : arrives i t = true) (ih : Tracks i t) :
    (Trader.rules.through (Trader.positions (signals i t)) (signalAt i t) = none ∧
      passes i (t + 82) = false) ∨
    ∃ o, Trader.rules.through (Trader.positions (signals i t)) (signalAt i t) = some o ∧
      passes i (t + 82) = true ∧ passedOrder i (t + 82) = o.latched ∧ orderAt i (t + 82) = o.latched := by
  have htaken := h.taken ht
  rcases firing_of_taken htaken with ⟨hvalid, hnone⟩ | ⟨k, hvalid, hid, hfires⟩
  · refine Or.inl ⟨Trader.through_of_not_firing hnone _, ?_⟩
    rw [Bool.eq_false_iff]
    intro hp
    obtain ⟨n, heq, hn⟩ := bestValid_of_riskPass hp
    obtain rfl : t + 76 = n := by omega
    rw [hvalid] at hn
    cases hn
  · have hprop := h.proposed ht hvalid hid
    have hpropose : Trader.rules.propose (signalAt i t) = some (orderOf (signalAt i t) k) :=
      Trader.propose_of_firing hfires
    have hpos : ∀ sym, (position i (t + 79) sym).toInt = Trader.positions (signals i t) sym :=
      fun sym => by rw [← h.position_kept ht, ih.positions]
    have hiff := hprop.passes_iff (h.quantity t ht)
      (fun sym => by rw [hpos]; exact Trader.natAbs_positions_le _ _) rfl
    rw [hpos] at hiff
    by_cases hp : passes i (t + 82) = true
    · refine Or.inr ⟨orderOf (signalAt i t) k, ?_, hp, ?_, ?_⟩
      · exact LimitLedger.through_eq_some.mpr ⟨hpropose, hiff.mp hp⟩
      · rw [passedOrder, show t + 82 - 6 = t + 76 by omega, hprop.checked]
      · -- the shares are those of core 0 again, which are the same
        have hcore : (trace i (t + 82)).uArb.bestCoreId = 0 :=
          bestCoreId_after (m := 6) htaken (by omega) (by omega)
        have hshares : (trace i (t + 82)).riskProposedShares = (signalAt i t).shares k := by
          rw [riskProposedShares, hcore, show Fin.ofNat numCores (0 : BitVec 3).toNat = 0 from rfl,
            h.shares t k ht hfires, signalAt]
        have hlate : (trace i (t + 82)).held = msgFields i t := by
          have hlast := hold_held.of_lastLoad (h.lastLoad ht (n := t + 82) (by omega) (le_refl _))
          have hfirst := h.held ht (n := t + 76) (by omega) (by omega)
          exact hlast.trans ((hold_held.of_lastLoad
            (h.lastLoad ht (n := t + 76) (by omega) (by omega))).symm.trans hfirst)
        rw [orderAt, orderIn, ouchIn, hlate, hshares, orderOf, Order.latched, signalAt]
    · refine Or.inl ⟨?_, Bool.eq_false_iff.mpr hp⟩
      rw [LimitLedger.through, hpropose]
      exact Option.filter_some_neg (Bool.eq_false_iff.mpr fun hallow => hp (hiff.mpr hallow))

/-- **Step lemma**: a cycle in which a message is parsed is a step of the trader, 82 cycles
later; in every other cycle nothing is done. -/
theorem Calm.tracks_succ (h : Calm i) {t : Nat} (ih : Tracks i t) : Tracks i (t + 1) := by
  have hsucc : t + 1 + 82 = t + 82 + 1 := by omega
  -- nothing passes: positions and orders stay
  have hnothing : passes i (t + 82) = false →
      (∀ sym, (position i (t + 1 + 82) sym).toInt = Trader.positions (signals i t) sym) ∧
      (cyclesOf (takes i) (t + 1 + 82)).map (orderAt i) =
        (Trader.orders (signals i t)).map Order.latched := fun hp => by
    rw [hsucc, position_of_not_passes hp, cyclesOf_succ,
      if_neg (by rw [takes, hp]; exact Bool.false_ne_true), List.append_nil]
    exact ⟨ih.positions, ih.orders⟩
  cases ha : arrives i t with
  | false =>
      have hquiet : passes i (t + 82) = false := Bool.eq_false_iff.mpr fun hp => by
        obtain ⟨t', heq, ht'⟩ := arrives_of_passes hp
        obtain rfl : t = t' := by omega
        rw [ha] at ht'
        cases ht'
      obtain ⟨hpos, hord⟩ := hnothing hquiet
      have hsame : signals i (t + 1) = signals i t := by
        rw [signals_succ, ha, if_neg Bool.false_ne_true, List.append_nil]
      exact ⟨hsame.symm ▸ hpos, hsame.symm ▸ hord⟩
  | true =>
      have hgrow : signals i (t + 1) = signals i t ++ [signalAt i t] := by
        rw [signals_succ, ha, if_pos rfl]
      rcases h.through ha ih with ⟨hnone, hp⟩ | ⟨o, hsome, hp, hchecked, hsent⟩
      · obtain ⟨hpos, hord⟩ := hnothing hp
        obtain ⟨hpos', hord'⟩ := Trader.concat_of_none hnone
        rw [← hgrow] at hpos' hord'
        exact ⟨hpos'.symm ▸ hpos, hord'.symm ▸ hord⟩
      · obtain ⟨hpos', hord'⟩ := Trader.concat_of_some hsome
        rw [← hgrow] at hpos' hord'
        have hadd : ∀ sym, (position i (t + 82) sym).toInt + signedShares o.latched sym =
            Trader.positions (signals i (t + 1)) sym := fun sym => by
          rw [hpos', LimitLedger.book_apply, ih.positions, signedShares_latched]
        have hcounted : CountedAsSent i (t + 82) := by
          apply countedAsSent_of_eq (by rw [hsent, hchecked])
          intro sym
          have hle := Trader.natAbs_positions_le (signals i (t + 1)) sym
          rw [hchecked, hadd]
          rw [Trader.posLimit] at hle
          constructor <;> omega
        constructor
        · intro sym
          rw [hsucc, position_succ, if_pos hp, hcounted sym, hsent, hadd]
        · rw [hsucc, cyclesOf_succ, if_pos (h.engine_takes hp), List.map_append, ih.orders, hord',
            List.map_append, List.map_singleton, List.map_singleton, hsent]

theorem Calm.tracks (h : Calm i) (t : Nat) : Tracks i t := by
  induction t with
  | zero => exact tracks_zero
  | succ t ih => exact h.tracks_succ ih

/-- What the engine has transferred and what is due are the packets of the orders accepted. -/
theorem transferred_accepted (n : Nat) : transferred i n ++ (trace i n).uOuch.due =
    (packets 0 (accepted i n)).flatten := by
  have hrun : ∀ m, (trace i m).uOuch =
      run OuchEngine.step OuchEngine.reset (fun k => (trace i k).ouchIn (i k)) m := fun m =>
    run_map (f := LliuTopV2.uOuch) (fun _ => rfl) m
  obtain ⟨-, -, hsent⟩ := refines.collect (i := fun k => (trace i k).ouchIn (i k)) onBus_reset n
  rw [feed_takeOrder, show OuchEngine.reset.due = [] from rfl, List.nil_append] at hsent
  rw [transferred, accepted]
  simp only [hrun]
  exact hsent

/-- **The top level is a trader**: in a run without collisions, in the cycle 82 cycles after the
messages parsed before cycle `t`, every position is that of the trader for their signals and
within the limit, the orders that the OUCH engine has accepted are the trader's orders in
their order, and what it has sent and has still to send of them are their packets,
numbered from 0. -/
theorem trades_as_trader (i : Nat → LliuTopV2In) (h : Calm i) (t : Nat) :
    (∀ sym, (position i (t + 82) sym).toInt = Trader.positions (signals i t) sym ∧
      (position i (t + 82) sym).toInt.natAbs ≤ Trader.posLimit) ∧
    (accepted i (t + 82)).map Prod.fst = (Trader.orders (signals i t)).map Order.latched ∧
    transferred i (t + 82) ++ (trace i (t + 82)).uOuch.due =
      (packets 0 (accepted i (t + 82))).flatten := by
  have htracks := h.tracks t
  refine ⟨fun sym => ⟨htracks.positions sym, ?_⟩, ?_, transferred_accepted _⟩
  · rw [htracks.positions]
    exact Trader.natAbs_positions_le _ _
  · rw [map_accepted, htracks.orders]

/-! ## two orders -/

/-- No message gets complete after the last beat. -/
theorem fieldsValid_of_quiet {N t : Nat} (h : ∀ n, N ≤ n → (i n).sAxisTvalid = false)
    (ht : N + 2 ≤ t) : (trace i t).uParser.fieldsValid = false := by
  obtain ⟨n, rfl⟩ : ∃ n, t = n + 2 := ⟨t - 2, by omega⟩
  have hbeat : (trace i n).uParser.beat ((trace i n).parserIn (i n)) = false := by
    have hvalid : ((trace i n).parserIn (i n)).sAxisTvalid = false := h n (by omega)
    rw [ItchParserV2.beat, hvalid, Bool.false_and]
  exact ItchParserV2.fieldsValid_step (validInIdle_trace (n + 1)) (ItchParserV2.not_emit_step hbeat)

theorem Schedule.sAxisTvalid_inputs {w : Schedule} {N : Nat} (h : ∀ b ∈ w.axis, b.2.1 < N)
    (n : Nat) (hn : N ≤ n) : (w.inputs n).sAxisTvalid = false := by
  change (w.axis.any fun b => decide (b.1 ≤ n ∧ n ≤ b.2.1)) = false
  rw [List.any_eq_false]
  intro b hb hin
  have hlast := (of_decide_eq_true hin).2
  have := h b hb
  omega

/-- Two watched Add Orders, 90 cycles apart. -/
def spacedSchedule : Schedule where
  axis := quotes ++ frameAt 40 (addFrame 3 buy 10 990 aapl) ++ frameAt 130 (addFrame 4 buy 10 1005 aapl)
  axil := watchAapl

/-- Their run. -/
def spacedOrders : Nat → LliuTopV2In := spacedSchedule.inputs

/-- What the run comes to: its messages, and the registers when the last two are decided on. -/
theorem spacedOrders_facts :
    (∀ t, t < 137 → (trace spacedOrders t).uParser.fieldsValid = true → t = 6 ∨ t = 22 ∨ t = 46 ∨ t = 136) ∧
    (arrives spacedOrders 6 = false ∧ arrives spacedOrders 22 = false) ∧
    ∀ t ∈ [46, 136], (trace spacedOrders (t + 1)).uParser.state ≠ .sEmit ∧
      (trace spacedOrders (t + 76)).axil.maxQtyR.toNat + 1000 < 2 ^ 24 ∧
      ∀ k, (trace spacedOrders (t + 82)).axil.coreSharesAr 0 = (trace spacedOrders (t + 76)).axil.coreSharesAr k := by
  decide +kernel

theorem fieldsValid_spacedOrders {t : Nat} (h : (trace spacedOrders t).uParser.fieldsValid = true) :
    t = 6 ∨ t = 22 ∨ t = 46 ∨ t = 136 := by
  have hlate : t < 137 := by
    by_contra hge
    have hquiet := fieldsValid_of_quiet (i := spacedOrders) (N := 135)
      (Schedule.sAxisTvalid_inputs (by decide)) (by omega : 135 + 2 ≤ t)
    rw [hquiet] at h
    cases h
  exact spacedOrders_facts.1 t hlate h

theorem arrives_spacedOrders {t : Nat} (h : arrives spacedOrders t = true) : t ∈ [46, 136] := by
  obtain ⟨hfirst, hsecond⟩ := spacedOrders_facts.2.1
  obtain ⟨t', heq, hvalid⟩ := fieldsValid_of_featExtFv h
  obtain rfl : t = t' := by omega
  obtain rfl | rfl | rfl | rfl := fieldsValid_spacedOrders hvalid
  · exact absurd (hfirst.symm.trans h) Bool.false_ne_true
  · exact absurd (hsecond.symm.trans h) Bool.false_ne_true
  · exact List.mem_cons_self
  · exact List.mem_cons_of_mem _ List.mem_cons_self

theorem calm_spacedOrders : Calm spacedOrders where
  apart t t' ht ht' hlt := by
    have h := arrives_spacedOrders ht
    have h' := arrives_spacedOrders ht'
    simp only [List.mem_cons, List.not_mem_nil, or_false] at h h'
    omega
  behind t ht := (spacedOrders_facts.2.2 t (arrives_spacedOrders ht)).1
  quantity t ht := (spacedOrders_facts.2.2 t (arrives_spacedOrders ht)).2.1
  shares t k ht _ := (spacedOrders_facts.2.2 t (arrives_spacedOrders ht)).2.2 k
  ready _ := show 6 ≤ count (fun _ => true) 76 by simp [count]

/-- Both are traded. -/
theorem spacedOrders_traded :
    Trader.orders (signals spacedOrders 137) = [⟨true, 990, 0, 100⟩, ⟨true, 1005, 0, 100⟩] ∧
    (∀ sym, (position spacedOrders (137 + 82) sym).toInt =
        Trader.positions (signals spacedOrders 137) sym ∧
      (position spacedOrders (137 + 82) sym).toInt.natAbs ≤ Trader.posLimit) ∧
    (accepted spacedOrders (137 + 82)).map Prod.fst =
      (Trader.orders (signals spacedOrders 137)).map Order.latched ∧
    transferred spacedOrders (137 + 82) ++ (trace spacedOrders (137 + 82)).uOuch.due =
      (packets 0 (accepted spacedOrders (137 + 82))).flatten :=
  ⟨by decide +kernel, trades_as_trader spacedOrders calm_spacedOrders 137⟩

end LliuTopV2

end Lliu
