import Lliu.Hdl.Hold
import Lliu.LliuTopV2.Scoring

/-!
# Lliu.LliuTopV2.Orders

From a score to its order.  The risk check takes the order fields from the hold
registers in the cycle of the best score, and the OUCH engine takes them again
six cycles later, together with the shares of the core that is the best one
*then*.  The hold registers are loaded by every message that reaches the feature
extractor, and without a best score core 0 is the best one.  So an order is the
one that was scored, or the one that was checked, only under conditions on what
reaches the extractor meanwhile (`sentAsScored_iff`, `sentAsChecked_iff`).
-/

namespace Lliu

namespace LliuTopV2

open Hdl OuchEngine

variable {i : Nat → LliuTopV2In}

/-! ## the hold registers -/

/-- `feat_ext_fv` in a run. -/
def loads (i : Nat → LliuTopV2In) (c : Nat) : Bool := (trace i c).featExtFv

/-- The last message to reach the extractor from cycle `t` on and before cycle `n`
has the fields `f` at stage `d1`, from which the hold registers are loaded. -/
def LastArrivalIs (i : Nat → LliuTopV2In) (t n : Nat) (f : OrderFields) : Prop :=
  LastLoadIs (loads i) (fun c => (trace i c).d1Fields) t n f

/-- Every message that reaches the extractor loads them. -/
theorem hold_held : Hold (loads i) (fun c => (trace i c).d1Fields) (fun n => (trace i n).held) :=
  fun _ => rfl

/-- Stage `d1` has the parser's outputs of the cycle before: those two cycles after
the pulse of the message that reaches the extractor. -/
theorem d1Fields_succ (c : Nat) : (trace i (c + 1)).d1Fields = msgFields i c := rfl

/-! ## orders -/

/-- The OUCH engine accepts an order in cycle `a`. -/
def OuchAccepts (i : Nat → LliuTopV2In) (a : Nat) : Prop :=
  (trace i a).uRisk.riskPass = true ∧ (trace i a).uOuch.state = .sIdle

/-- The order fields with which the risk check sees the best score of cycle `n`. -/
def checkedFields (i : Nat → LliuTopV2In) (n : Nat) : OrderFields :=
  ⟨(trace i n).riskIn.price, (trace i n).riskIn.side, (trace i n).riskIn.symbolId⟩

/-- The order with which the risk check sees it. -/
def checkedOrder (i : Nat → LliuTopV2In) (n : Nat) : LatchedOrder where
  symId := (trace i n).riskIn.symbolId.setWidth 7
  side := (trace i n).riskIn.side
  price := (trace i n).riskIn.price
  shares := (trace i n).riskIn.proposedShares

/-- The packet of the order accepted in cycle `a` carries `f`. -/
structure PacketCarries (i : Nat → LliuTopV2In) (a : Nat) (f : OrderFields) : Prop where
  price : packetPrice (trace i (a + 3)).uOuch.beatBuf = f.price
  side : packetSide (trace i (a + 3)).uOuch.beatBuf = sideByte f.side
  symId : (trace i (a + 3)).uOuch.latchSymId = f.symId.setWidth 7
  /-- It is on the bus until it is sent. -/
  sending : ∀ m, (∀ j, j ≤ m → (trace i (a + 3 + j)).uOuch.state = .sSend) →
    Sending (trace i (a + 3 + m)).uOuch (trace i (a + 3)).uOuch.beatBuf

theorem checkedOrder_eq (n : Nat) : checkedOrder i n =
    ⟨(trace i n).held.symId.setWidth 7, (trace i n).held.side, (trace i n).held.price,
      (trace i n).riskProposedShares⟩ := rfl

/-- An order is accepted as its fields stand in that cycle. -/
theorem OuchAccepts.latched {a : Nat} (h : OuchAccepts i a) : (trace i (a + 1)).uOuch.latched =
    ⟨(trace i a).held.symId.setWidth 7, (trace i a).held.side, (trace i a).held.price,
      (trace i a).riskProposedShares⟩ :=
  (step_accept _ ((trace i a).ouchIn (i a)) h.2 h.1).2

/-- Three cycles later the packet is assembled. -/
theorem OuchAccepts.packet {a : Nat} (h : OuchAccepts i a) :
    packetPrice (trace i (a + 3)).uOuch.beatBuf = (trace i a).held.price ∧
    packetSide (trace i (a + 3)).uOuch.beatBuf = sideByte (trace i a).held.side ∧
    (trace i (a + 3)).uOuch.latchSymId = (trace i a).held.symId.setWidth 7 ∧
    Sending (trace i (a + 3)).uOuch (trace i (a + 3)).uOuch.beatBuf := by
  obtain ⟨hfetch, hlatched⟩ := step_accept _ ((trace i a).ouchIn (i a)) h.2 h.1
  obtain ⟨hload, hlatched'⟩ := step_fetch _ ((trace i (a + 1)).ouchIn (i (a + 1))) hfetch
  obtain ⟨-, hlatched'', hbeats⟩ := step_load _ ((trace i (a + 2)).ouchIn (i (a + 2))) hload
  have horder : (trace i (a + 2)).uOuch.latched = _ := hlatched'.trans hlatched
  obtain ⟨hside, -, hprice⟩ := packet_beats (trace i (a + 2)).uOuch
  have hbuf : (trace i (a + 3)).uOuch.beatBuf = (trace i (a + 2)).uOuch.beats := hbeats
  refine ⟨?_, ?_, ?_, ?_⟩
  · rw [hbuf, hprice]
    exact congrArg LatchedOrder.price horder
  · rw [hbuf, hside]
    exact congrArg (fun o => sideByte (LatchedOrder.side o)) horder
  · exact congrArg LatchedOrder.symId (hlatched''.trans horder)
  · rw [hbuf]
    exact sending_load hload _

/-- The wider symbol of the OUCH engine tells the symbols apart. -/
theorem symId_inj {a b : SymId} (h : a.setWidth 7 = b.setWidth 7) : a = b := by
  have hback := congrArg (BitVec.setWidth obSymIdW) h
  rwa [BitVec.setWidth_setWidth_of_le a (by decide), BitVec.setWidth_setWidth_of_le b (by decide),
    BitVec.setWidth_eq, BitVec.setWidth_eq] at hback

/-- The packet carries `f` exactly if the hold registers have `f` when the order
is accepted. -/
theorem OuchAccepts.packetCarries_iff {a : Nat} (h : OuchAccepts i a) (f : OrderFields) :
    PacketCarries i a f ↔ (trace i a).held = f := by
  obtain ⟨hprice, hside, hsym, hsend⟩ := h.packet
  constructor
  · rintro ⟨hp, hs, hy, -⟩
    have hp' : (trace i a).held.price = f.price := hprice.symm.trans hp
    have hs' : (trace i a).held.side = f.side := sideByte_inj (hside.symm.trans hs)
    have hy' : (trace i a).held.symId = f.symId := symId_inj (hsym.symm.trans hy)
    exact OrderFields.ext hp' hs' hy'
  · rintro rfl
    refine ⟨hprice, hside, hsym, fun m hall => ?_⟩
    induction m with
    | zero => exact hsend
    | succ m ih =>
        exact (ih fun j hj => hall j (by omega)).step _ (hall (m + 1) (le_refl _))

/-- An order comes from a score of six cycles before. -/
theorem OuchAccepts.scored {a : Nat} (h : OuchAccepts i a) : ∃ t, a = t + 82 ∧ Scored i t := by
  obtain ⟨n, rfl, hbest⟩ := bestValid_of_riskPass h.1
  obtain ⟨t, rfl, ht⟩ := scored_of_bestValid hbest
  exact ⟨t, rfl, ht⟩

/-! ## order sent, order scored -/

/-- Every best score is checked with the price, side and symbol of the message
it is the score of, and every packet carries them. -/
structure SentAsScored (i : Nat → LliuTopV2In) : Prop where
  checked : ∀ n, (trace i n).uArb.bestValid = true →
    ∃ t, n = t + 76 ∧ Scored i t ∧ checkedFields i n = msgFields i t
  sent : ∀ a, OuchAccepts i a →
    ∃ t, a = t + 82 ∧ Scored i t ∧ PacketCarries i a (msgFields i t)

/-- What the hold registers have at a later cycle is decided by the last message
to reach the extractor. -/
theorem Scored.held_iff {t : Nat} (h : Scored i t) (n : Nat) (hn : t + 3 < n) (f : OrderFields) :
    (trace i n).held = f ↔ LastArrivalIs i (t + 3) n f :=
  hold_held.eq_iff h.arrived hn

/-- A message that reaches the extractor alone, with no shorter frame emitted right
behind it, is the last to arrive and brings its own fields. -/
theorem Scored.lastArrivalIs {t n : Nat} (h : Scored i t)
    (hemit : (trace i (t + 1)).uParser.state ≠ .sEmit)
    (halone : ∀ c, t + 3 < c → c < n → (trace i c).featExtFv = false) :
    LastArrivalIs i (t + 3) n (msgFields i t) := by
  intro c hc
  obtain rfl : t + 3 = c := by
    by_contra hne
    have := hc.ge
    exact Bool.false_ne_true ((halone c (by omega) hc.lt).symm.trans hc.load)
  have hidle : (trace i t).uParser.state ≠ .sEmit := by rw [state_of_fieldsValid h.pulse]; decide
  calc (trace i (t + 2 + 1)).d1Fields
      = msgFields i (t + 1 + 1) := d1Fields_succ _
    _ = msgFields i (t + 1) := msgFields_succ hemit
    _ = msgFields i t := msgFields_succ hidle

/-- **Order sent, order scored**: every order is checked and sent with the fields
of the message that was scored if and only if the last message to reach the
extractor up to the risk check, and up to the OUCH engine when it accepts the
order, brings these fields to the hold registers. -/
theorem sentAsScored_iff (i : Nat → LliuTopV2In) : SentAsScored i ↔
    ∀ t, Scored i t → LastArrivalIs i (t + 3) (t + 76) (msgFields i t) ∧
      (OuchAccepts i (t + 82) → LastArrivalIs i (t + 3) (t + 82) (msgFields i t)) := by
  constructor
  · rintro ⟨hchecked, hsent⟩ t ht
    constructor
    · obtain ⟨t', heq, -, hfields⟩ := hchecked (t + 76) ht.valid
      obtain rfl : t = t' := by omega
      exact (ht.held_iff _ (by omega) _).mp hfields
    · intro ha
      obtain ⟨t', heq, -, hpacket⟩ := hsent (t + 82) ha
      obtain rfl : t = t' := by omega
      exact (ht.held_iff _ (by omega) _).mp ((ha.packetCarries_iff _).mp hpacket)
  · intro h
    refine ⟨fun n hn => ?_, fun a ha => ?_⟩
    · obtain ⟨t, rfl, ht⟩ := scored_of_bestValid hn
      exact ⟨t, rfl, ht, (ht.held_iff _ (by omega) _).mpr (h t ht).1⟩
    · obtain ⟨t, rfl, ht⟩ := ha.scored
      exact ⟨t, rfl, ht, (ha.packetCarries_iff _).mpr ((ht.held_iff _ (by omega) _).mpr ((h t ht).2 ha))⟩

/-- The AXI4-Lite writes that put `"AAPL    "` on the watchlist. -/
def watchAapl : List (Nat × BitVec 12 × BitVec 32) :=
  [(0, 0x018#12, 0x20202020#32), (2, 0x01C#12, 0x4141504C#32), (4, 0x020#12, 3#32)]

/-- Quotes at 1000 on both sides, for a stock that is not on it. -/
def quotes : List (Nat × Nat × BitVec 64) :=
  frameAt 0 (addFrame 1 buy 10 1000 0x4D53465420202020#64) ++
    frameAt 16 (addFrame 2 sell 10 1000 0x4D53465420202020#64)

/-- Two watched Add Orders back to back, at 990 and at 1005. -/
def twoOrders : Nat → LliuTopV2In :=
  Schedule.inputs
    { axis := quotes ++ frameAt 40 (addFrame 3 buy 10 990 aapl) ++
        frameAt 46 (addFrame 4 buy 10 1005 aapl)
      axil := watchAapl }

/-- The score of the first is checked and sent with the price of the second. -/
theorem second_price_sent : (msgFields twoOrders 46).price = 990 ∧
    packetPrice (trace twoOrders 131).uOuch.beatBuf = 1005 ∧ ¬ SentAsScored twoOrders := by
  have hrun : (trace twoOrders 122).uArb.bestValid = true ∧
      checkedFields twoOrders 122 ≠ msgFields twoOrders 46 ∧
      (msgFields twoOrders 46).price = 990 ∧
      packetPrice (trace twoOrders 131).uOuch.beatBuf = 1005 := by decide +kernel
  obtain ⟨hvalid, hne, hprice, hpacket⟩ := hrun
  refine ⟨hprice, hpacket, fun h => ?_⟩
  obtain ⟨t, heq, -, hfields⟩ := h.checked 122 hvalid
  obtain rfl : t = 46 := by omega
  exact hne hfields

/-! ## order sent, order checked -/

/-- The verdict of the risk check on the proposal of cycle `n`, at the position
read three cycles later. -/
def verdictOn (i : Nat → LliuTopV2In) (n : Nat) : Bool × BlockReason :=
  RiskCheck.verdict (RiskCheck.checks (trace i n).riskIn
    ((trace i (n + 3)).uRisk.posMem (trace i n).riskIn.symbolId)) (trace i (n + 5)).riskIn.posLimit

/-- It is out six cycles after the proposal. -/
theorem riskPass_add (n : Nat) : (trace i (n + 6)).uRisk.riskPass = (verdictOn i n).1 :=
  congrArg (fun r => (RiskCheck.verdict r (trace i (n + 5)).riskIn.posLimit).1)
    (RiskCheck.p2_step _ _ _ _ _ _)

/-- Every order that the OUCH engine accepts is, with its shares, price, side and
symbol, the one that has passed the checks. -/
def SentAsChecked (i : Nat → LliuTopV2In) : Prop :=
  ∀ a, OuchAccepts i a → ∃ n, a = n + 6 ∧ (verdictOn i n).1 = true ∧
    (trace i (a + 1)).uOuch.latched = checkedOrder i n

/-- When an order is accepted, core 0 is the best core. -/
theorem Scored.shares_at_latch {t : Nat} (h : Scored i t) :
    (trace i (t + 82)).riskProposedShares = (trace i (t + 82)).axil.coreSharesAr 0 := by
  have hid : (trace i (t + 82)).uArb.bestCoreId = 0 :=
    bestCoreId_after (m := 6) h.taken (by omega) (by omega)
  have hcore : Fin.ofNat numCores (0 : BitVec 3).toNat = 0 := rfl
  rw [riskProposedShares, hid, hcore]

/-- The latched order is the checked one exactly if the hold registers and the
shares agree. -/
theorem OuchAccepts.latched_eq_iff {t : Nat} (h : OuchAccepts i (t + 82)) (ht : Scored i t) :
    (trace i (t + 82 + 1)).uOuch.latched = checkedOrder i (t + 76) ↔
      (trace i (t + 82)).axil.coreSharesAr 0 = (trace i (t + 76)).riskProposedShares ∧
      (trace i (t + 82)).held = (trace i (t + 76)).held := by
  rw [h.latched, ht.shares_at_latch, checkedOrder_eq, LatchedOrder.mk.injEq, OrderFields.ext_iff]
  constructor
  · rintro ⟨hsym, hside, hprice, hshares⟩
    exact ⟨hshares, hprice, hside, symId_inj hsym⟩
  · rintro ⟨hshares, hprice, hside, hsym⟩
    exact ⟨congrArg _ hsym, hside, hprice, hshares⟩

/-- **Order sent, order checked**: every accepted order is the checked one if and
only if core 0 has the share count that the best core had at the check, and the
last message to reach the extractor since, if any, has the fields held then. -/
theorem sentAsChecked_iff (i : Nat → LliuTopV2In) : SentAsChecked i ↔
    ∀ t, OuchAccepts i (t + 82) →
      (trace i (t + 82)).axil.coreSharesAr 0 = (trace i (t + 76)).riskProposedShares ∧
      LastArrivalIs i (t + 76) (t + 82) (trace i (t + 76)).held := by
  constructor
  · intro h t ha
    obtain ⟨n, heq, -, hlatched⟩ := h _ ha
    obtain rfl : n = t + 76 := by omega
    obtain ⟨t', heq', ht⟩ := ha.scored
    obtain rfl : t = t' := by omega
    obtain ⟨hshares, hheld⟩ := (ha.latched_eq_iff ht).mp hlatched
    exact ⟨hshares, (hold_held.kept_iff (by omega)).mp hheld⟩
  · intro h a ha
    obtain ⟨t, rfl, ht⟩ := ha.scored
    obtain ⟨hshares, hlast⟩ := h t ha
    exact ⟨t + 76, rfl, (riskPass_add (t + 76)).symm.trans ha.1,
      (ha.latched_eq_iff ht).mpr ⟨hshares, (hold_held.kept_iff (by omega)).mpr hlast⟩⟩

/-- A watched Add Order for which core 1 scores best; core 0 has 20000 shares,
beyond the 10000 that the fat finger check lets pass, core 1 has 100. -/
def coreOneBest : Nat → LliuTopV2In :=
  Schedule.inputs
    { axis := quotes ++ frameAt 40 (addFrame 3 buy 10 990 aapl)
      axil := watchAapl ++ [(6, 0xC00#12, 20000#32), (8, 0x884#12, 0x3F80#32)] }

/-- The 100 shares of core 1 are checked, the 20000 of core 0 sent. -/
theorem unchecked_shares_sent : (checkedOrder coreOneBest 122).shares = 100 ∧
    packetShares (trace coreOneBest 131).uOuch.beatBuf = 20000 ∧ ¬ SentAsChecked coreOneBest := by
  have hrun : ((trace coreOneBest 128).uRisk.riskPass = true ∧
      (trace coreOneBest 128).uOuch.state = .sIdle) ∧
      (trace coreOneBest 129).uOuch.latched ≠ checkedOrder coreOneBest 122 ∧
      (checkedOrder coreOneBest 122).shares = 100 ∧
      packetShares (trace coreOneBest 131).uOuch.beatBuf = 20000 := by decide +kernel
  obtain ⟨haccept, hne, hchecked, hpacket⟩ := hrun
  refine ⟨hchecked, hpacket, fun h => ?_⟩
  obtain ⟨n, heq, -, hlatched⟩ := h 128 haccept
  obtain rfl : n = 122 := by omega
  exact hne hlatched

end LliuTopV2

end Lliu
