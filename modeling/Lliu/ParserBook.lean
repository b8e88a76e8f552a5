import Lliu.LliuTopV2.Updates
import Lliu.OrderBook.Isolation

/-!
# Lliu.ParserBook

`itch_parser_v2` followed by `order_book`, wired as in `lliu_top_v2.sv`: the
book takes the parser's outputs while `fields_valid` is high.

A Replace has no side field, and the parser's side output is low for it.  The
book enters the new order under that side and not under the one it has looked
up, so only a resting ask keeps its side (`replace_side_iff`).
-/

namespace Lliu

open Hdl

/-! ## the composition -/

/-- The two modules. -/
structure ParserBook where
  parser : ItchParserV2
  ob : OrderBook

namespace ParserBook

/-- Both modules after reset. -/
def reset : ParserBook := ⟨ItchParserV2.reset, OrderBook.reset⟩

/-- The message at the parser's outputs. -/
def msg (s : ParserBook) : BookMsg where
  msgType := s.parser.msgType
  orderRef := s.parser.orderRef
  newOrderRef := s.parser.newOrderRef
  price := s.parser.price
  shares := s.parser.shares
  side := s.parser.side
  symId := s.parser.symId

/-- The inputs of `u_ob`. -/
def obIn (s : ParserBook) : OrderBookIn where
  msg := s.msg
  fieldsValid := s.parser.fieldsValid
  bboQuerySym := s.parser.symId

/-- One clock edge. -/
def step (s : ParserBook) (i : ItchParserV2In) : ParserBook :=
  ⟨s.parser.step i, s.ob.step s.obIn⟩

/-- What the order book sees in a run. -/
def bookIn (i : Nat → ItchParserV2In) (n : Nat) : OrderBookIn := (run step reset i n).obIn

/-- The order book runs on the parser's outputs. -/
theorem ob_run (i : Nat → ItchParserV2In) (n : Nat) :
    (run step reset i n).ob = run OrderBook.step OrderBook.reset (bookIn i) n :=
  run_map (fun _ => rfl) n

/-- The parser and the book of the top level are such a composition. -/
theorem run_trace (i : Nat → LliuTopV2In) (n : Nat) :
    ParserBook.mk (LliuTopV2.trace i n).uParser (LliuTopV2.trace i n).uOb =
      run step reset (fun k => (LliuTopV2.trace i k).parserIn (i k)) n :=
  run_map (f := fun s : LliuTopV2 => ParserBook.mk s.uParser s.uOb) (fun _ => rfl) n

/-! ## the side of a message without one -/

/-- The parser's side output is low for the types that carry no side. -/
theorem side_eq_false {i : Nat → ItchParserV2In} {n : Nat}
    (h : ItchParserV2.carriesStock (run step reset i n).parser.msgType = false) :
    (run step reset i n).parser.side = false := by
  revert h
  refine run_invariant (P := fun _ (s : ParserBook) =>
    ItchParserV2.carriesStock s.parser.msgType = false → s.parser.side = false)
    (fun _ => rfl) (fun n ih h => ?_) n
  simp only [step, ItchParserV2.step] at h ⊢
  cases hst : (run step reset i n).parser.state with
  | sIdle =>
      simp only [hst, ItchParserV2.stepIdle] at h ⊢
      split_ifs at h ⊢ <;> exact ih h
  | sAccumulate =>
      simp only [hst, ItchParserV2.stepAccumulate] at h ⊢
      split_ifs at h ⊢ <;> exact ih h
  | sEmit =>
      simp only [hst, ItchParserV2.stepEmit] at h ⊢
      rw [ItchParserV2.sideOf, h, Bool.false_and]

end ParserBook

/-! ## tables without collisions -/

/-- Every stored reference is one of `R`, in its home slot. -/
def Book.AtHome (R : Set OrderRef) (b : Book) : Prop :=
  ∀ a k, b.keyAt a = some k → k ∈ R ∧ a = refSlot k 0

section AtHome

variable {R : Set OrderRef} {b : Book} {m : BookMsg}

theorem Book.atHome_zero : Book.zero.AtHome R := fun _ _ h => nomatch h

/-- **Step lemma**: a message that names references of `R` stores them at home. -/
theorem Book.AtHome.exec (h : b.AtHome R) (hR : DistinctHomes R) (hn : NamesIn R m) :
    (b.exec m).AtHome R := by
  have hadd : bookOp m.msgType = some .add → b.resolve m = some 0 := by
    intro hop
    have hfree : b.HomeFree m.orderRef := by
      cases hk : b.keyAt (refSlot m.orderRef 0) with
      | none => exact Or.inl hk
      | some k =>
          obtain ⟨hkR, hslot⟩ := h _ _ hk
          rw [hR _ hn.1 _ hkR hslot]
          rw [hR _ hn.1 _ hkR hslot] at hk
          exact Or.inr hk
    exact (Book.resolve_add_iff hop).mpr hfree.endsAt
  intro a k hk
  rcases Book.keyAt_exec hadd hk with hold | ⟨ha, hk | ⟨hop, hk⟩⟩
  · exact h a k hold
  · exact ⟨hk ▸ hn.1, ha⟩
  · exact ⟨hk ▸ hn.2 hop, ha⟩

/-- **Run lemma**: the same after any messages that name references of `R`. -/
theorem Book.AtHome.execs (h : b.AtHome R) (hR : DistinctHomes R) :
    ∀ ms : List BookMsg, (∀ m ∈ ms, NamesIn R m) → (b.execs ms).AtHome R := by
  intro ms
  induction ms generalizing b with
  | nil => exact fun _ => h
  | cons m ms ih =>
      intro hn
      exact ih (h.exec hR (hn m List.mem_cons_self)) fun m' hm' => hn m' (List.mem_cons_of_mem _ hm')

end AtHome

/-! ## the side of a replaced order -/

/-- From `b` to `b'` the Replace `m`, which finds its order in slot `p`, keeps
that order's side: the new order is found with it, takes over the level of the
old one, and the levels and BBO of the other side have not changed. -/
structure Book.KeepsSide (b b' : Book) (m : BookMsg) (p : Nat) : Prop where
  entry : ∃ q, b'.Reaches m.newOrderRef q ∧ b'.Holds m.newOrderRef q ∧
    (b'.refMem (refSlot m.newOrderRef q)).side = (b.refMem (refSlot m.orderRef p)).side
  level : ∀ k, b.targetLevel m (refSlot m.orderRef p) = some k →
    b'.levels m.symId (b.refMem (refSlot m.orderRef p)).side k = ⟨m.price, m.shares24⟩
  other : ∀ sym, b.SameSide b' sym (!(b.refMem (refSlot m.orderRef p)).side)

section Replace

variable {b : Book} {m : BookMsg} {p : Nat}

/-- The level of the old order after a replace on its side. -/
theorem Book.level_exec_replace (hop : bookOp m.msgType = some .replace)
    (hp : b.lookup m.orderRef = .hit p) {k : Fin obLevels}
    (hk : b.targetLevel m (refSlot m.orderRef p) = some k) :
    (b.exec m).levels m.symId m.side k = ⟨m.price, m.shares24⟩ := by
  have hr : b.resolve m = some p := (resolve_modify_iff (by simp [hop])).mpr hp
  rw [levels_exec hr (by simp [hop]), UpdateRegs.updateBook, show UpdateRegs.op _ = _ from hop]
  simp only [UpdateRegs.levels_bboAdd, UpdateRegs.levels_bboClear]
  rw [UpdateRegs.levels_writeTarget _ _ _ rfl rfl, if_pos ⟨rfl, rfl⟩,
    show (b.counted m).targetLevel m (refSlot m.orderRef p) = some k from hk]
  exact Function.update_self ..

/-- The side a replace changes, when it enters the new order on the side of the
old one. -/
theorem Book.eq_of_changesSide (hop : bookOp m.msgType = some .replace)
    (hp : b.lookup m.orderRef = .hit p) (hside : m.side = (b.refMem (refSlot m.orderRef p)).side)
    {side : Bool} (h : b.ChangesSide m side) : side = m.side := by
  rw [ChangesSide, hop] at h
  obtain ⟨q, hreach, hholds, hchange⟩ := h
  have hq := lookup_hit_iff.mpr ⟨hreach, hholds⟩
  rw [hp] at hq
  obtain rfl := ProbeResult.hit.inj hq
  rw [← hside, or_self] at hchange
  exact hchange

/-- **Replace**: with the side low, as the parser gives it, a replace keeps the
side of asks whose slot is not that of the new reference, and of no others. -/
theorem Book.keepsSide_exec_iff (hop : bookOp m.msgType = some .replace) (hside : m.side = false)
    (hp : b.lookup m.orderRef = .hit p) :
    b.KeepsSide (b.exec m) m p ↔ (b.refMem (refSlot m.orderRef p)).side = false ∧
      refSlot m.newOrderRef 0 ≠ refSlot m.orderRef p := by
  by_cases hslot : refSlot m.newOrderRef 0 = refSlot m.orderRef p
  · refine ⟨fun ⟨⟨q, hreach, hholds, _⟩, _, _⟩ => ?_, fun h => absurd hslot h.2⟩
    exact absurd (lookup_hit_iff.mpr ⟨hreach, hholds⟩) (lookup_newOrderRef_of_eq hop hp hslot q)
  · have hlook := lookup_newOrderRef_of_ne hop hp hslot
    have hnew : (b.exec m).refMem (refSlot m.newOrderRef 0) = RefEntry.ofMsg m m.newOrderRef := by
      rw [refMem_exec_replace hop hp, Function.update_of_ne hslot, Function.update_self]
    constructor
    · rintro ⟨⟨q, hreach, hholds, hq⟩, -, -⟩
      rw [lookup_hit_iff.mpr ⟨hreach, hholds⟩] at hlook
      rw [ProbeResult.hit.inj hlook, hnew] at hq
      exact ⟨hq.symm.trans hside, hslot⟩
    · rintro ⟨hask, -⟩
      have hsame : m.side = (b.refMem (refSlot m.orderRef p)).side := hside.trans hask.symm
      obtain ⟨hreach, hholds⟩ := lookup_hit_iff.mp hlook
      refine ⟨⟨0, hreach, hholds, ?_⟩, fun k hk => ?_, fun sym => sameSide_exec fun hc => ?_⟩
      · rw [hnew]
        exact hsame
      · rw [← hsame]
        exact level_exec_replace hop hp hk
      · have hnot := eq_of_changesSide hop hp hsame hc.2
        rw [hask, hside] at hnot
        cases hnot

end Replace

namespace ParserBook

/-- The messages that the book takes up to cycle `n` name references of `R`. -/
def NamesUpTo (R : Set OrderRef) (i : Nat → ItchParserV2In) (n : Nat) : Prop :=
  ∀ k, k ≤ n → (run step reset i k).ob.bookReady = true →
    (run step reset i k).parser.fieldsValid = true → NamesIn R (run step reset i k).msg

section Replace

variable {R : Set OrderRef} {i : Nat → ItchParserV2In} {n j p : Nat}

theorem namesIn_of_mem_accepted (h : NamesUpTo R i n) {m : BookMsg} {k : Nat} (hk : k ≤ n)
    (hm : m ∈ OrderBook.accepted OrderBook.reset (bookIn i) k) : NamesIn R m := by
  induction k with
  | zero => exact absurd hm List.not_mem_nil
  | succ k ih =>
      rw [OrderBook.accepted, ← ob_run] at hm
      split at hm
      · rename_i htaken
        rw [Bool.and_eq_true] at htaken
        rcases List.mem_append.mp hm with hm | hm
        · exact ih (by omega) hm
        · rw [List.mem_singleton.mp hm]
          exact h k (by omega) htaken.1 htaken.2
      · exact ih (by omega) hm

/-- Without colliding references every stored one is in its home slot. -/
theorem atHome_of_names (hR : DistinctHomes R) (h : NamesUpTo R i n)
    (hn : (run step reset i n).ob.bookReady = true) : (run step reset i n).ob.book.AtHome R := by
  rw [ob_run] at hn ⊢
  rw [OrderBook.book_of_ready OrderBook.ready_reset hn]
  exact Book.atHome_zero.execs hR _ fun m hm => namesIn_of_mem_accepted h (le_refl n) hm

/-- **Side of a Replace**: in every run without colliding references, a Replace
that the book takes in cycle `n` and that finds its order in slot `p` keeps the
side of that order, as the book stands when it is ready again, if and only if
the order is an ask and gets another reference. -/
theorem replace_side_iff (hR : DistinctHomes R) (hnames : NamesUpTo R i n)
    (hd : OrderBook.During OrderBook.reset (bookIn i) n j)
    (hj : (run step reset i j).ob.bookReady = true)
    (hop : (run step reset i n).parser.msgType = itchMsgOrderReplace)
    (hreach : (run step reset i n).ob.book.Reaches (run step reset i n).parser.orderRef p)
    (hholds : (run step reset i n).ob.book.Holds (run step reset i n).parser.orderRef p) :
    (run step reset i n).ob.book.KeepsSide (run step reset i j).ob.book (run step reset i n).msg p ↔
      ((run step reset i n).ob.book.refMem
        (refSlot (run step reset i n).parser.orderRef p)).side = false ∧
      (run step reset i n).parser.newOrderRef ≠ (run step reset i n).parser.orderRef := by
  have hready : (run step reset i n).ob.bookReady = true := by
    rw [ob_run]
    exact hd.ready
  have hbook : (run step reset i j).ob.book =
      (run step reset i n).ob.book.exec (run step reset i n).msg := by
    rw [ob_run] at hj
    rw [ob_run, ob_run, OrderBook.book_next_ready OrderBook.ready_reset hd.lt hd.ready hd.valid hj
      hd.busy]
    rfl
  have hmsg : bookOp (run step reset i n).msg.msgType = some .replace := by
    rw [show (run step reset i n).msg.msgType = _ from hop]
    rfl
  have hnamed := hnames n (le_refl n) hready hd.valid
  have hhome := atHome_of_names hR hnames hready
  have hslot : refSlot (run step reset i n).parser.newOrderRef 0 =
      refSlot (run step reset i n).parser.orderRef p ↔
      (run step reset i n).parser.newOrderRef = (run step reset i n).parser.orderRef := by
    rw [(hhome _ _ (Book.holds_iff.mp hholds)).2]
    exact ⟨hR _ (hnamed.2 hmsg) _ hnamed.1, fun he => by rw [he]⟩
  rw [hbook, ← hslot.ne]
  exact Book.keepsSide_exec_iff hmsg (side_eq_false (by rw [hop]; rfl))
    (Book.lookup_hit_iff.mpr ⟨hreach, hholds⟩)

/-- The five beats of an Order Replace frame: length 35, type `'U'`, the two
references, shares and price. -/
def replaceFrame (orderRef newOrderRef : OrderRef) (shares price : BitVec 32) :
    List (BitVec 64) :=
  [0x0023#16 ++ 0x55#8 ++ 0#40,
    0#40 ++ orderRef.extractLsb' 40 24,
    orderRef.setWidth 40 ++ newOrderRef.extractLsb' 40 24,
    newOrderRef.setWidth 40 ++ shares.extractLsb' 8 24,
    shares.setWidth 8 ++ price ++ 0#24]

/-- The beats of frames offered in given cycles, without backpressure. -/
def offered (axis : List (Nat × Nat × BitVec 64)) (n : Nat) : ItchParserV2In where
  sAxisTdata := ((axis.find? fun b => b.1 = n).map (·.2.2)).getD 0
  sAxisTvalid := axis.any fun b => b.1 = n
  sAxisTlast := false
  pipelineHold := false

/-- An order of ten shares at 100, and a replace of it at 101. -/
def addThenReplace (side : BitVec 8) : Nat → ItchParserV2In :=
  offered (LliuTopV2.frameAt 0 (LliuTopV2.addFrame 1 side 10 100 LliuTopV2.aapl) ++
    LliuTopV2.frameAt 30 (replaceFrame 1 2 10 101))

theorem namesUpTo_addThenReplace {side : BitVec 8} (hs : side = LliuTopV2.buy ∨ side = LliuTopV2.sell) :
    NamesUpTo {1#64, 2#64} (addThenReplace side) 36 := by
  have h : ∀ side ∈ [LliuTopV2.buy, LliuTopV2.sell], ∀ k, k < 37 →
      (run step reset (addThenReplace side) k).ob.bookReady = true →
      (run step reset (addThenReplace side) k).parser.fieldsValid = true →
      ((run step reset (addThenReplace side) k).msg.orderRef = 1#64 ∨
        (run step reset (addThenReplace side) k).msg.orderRef = 2#64) ∧
      ((run step reset (addThenReplace side) k).msg.newOrderRef = 1#64 ∨
        (run step reset (addThenReplace side) k).msg.newOrderRef = 2#64 ∨
        bookOp (run step reset (addThenReplace side) k).msg.msgType ≠ some .replace) := by
    decide +kernel
  intro k hk hr hv
  obtain ⟨h1, h2⟩ := h side (by simpa using hs) k (by omega) hr hv
  exact ⟨h1, fun hop => by
    rcases h2 with h2 | h2 | h2
    · exact Or.inl h2
    · exact Or.inr h2
    · exact absurd hop h2⟩

theorem during_addThenReplace {side : BitVec 8} (hs : side = LliuTopV2.buy ∨ side = LliuTopV2.sell) :
    OrderBook.During OrderBook.reset (bookIn (addThenReplace side)) 36 47 := by
  have h : ∀ side ∈ [LliuTopV2.buy, LliuTopV2.sell],
      (run step reset (addThenReplace side) 36).ob.bookReady = true ∧
      (run step reset (addThenReplace side) 36).parser.fieldsValid = true ∧
      ∀ k, k < 47 → 36 < k → (run step reset (addThenReplace side) k).ob.bookReady = false := by
    decide +kernel
  obtain ⟨hr, hv, hb⟩ := h side (by simpa using hs)
  simp only [ob_run] at hr hb
  exact ⟨hr, hv, by decide, fun k hk hkj => hb k hkj hk⟩

theorem replace_side_iff_sell :
    (run step reset (addThenReplace LliuTopV2.sell) 36).ob.book.KeepsSide
      (run step reset (addThenReplace LliuTopV2.sell) 47).ob.book
      (run step reset (addThenReplace LliuTopV2.sell) 36).msg 0 ↔
    ((run step reset (addThenReplace LliuTopV2.sell) 36).ob.book.refMem
      (refSlot (run step reset (addThenReplace LliuTopV2.sell) 36).parser.orderRef 0)).side = false ∧
    (run step reset (addThenReplace LliuTopV2.sell) 36).parser.newOrderRef ≠
      (run step reset (addThenReplace LliuTopV2.sell) 36).parser.orderRef :=
  replace_side_iff OrderBook.distinctHomes_one_two (namesUpTo_addThenReplace (Or.inr rfl))
    (during_addThenReplace (Or.inr rfl)) (by decide +kernel) (by decide +kernel)
    ⟨by decide, fun _ h => absurd h (Nat.not_lt_zero _)⟩
    ⟨by decide +kernel, by decide +kernel⟩

/-- A resting bid becomes an ask: it is found as a bid before its replace, and
the level written is on the ask side. -/
theorem bid_becomes_ask :
    DistinctHomes {1#64, 2#64} ∧ NamesUpTo {1#64, 2#64} (addThenReplace LliuTopV2.buy) 36 ∧
    OrderBook.During OrderBook.reset (bookIn (addThenReplace LliuTopV2.buy)) 36 47 ∧
    (run step reset (addThenReplace LliuTopV2.buy) 47).ob.bookReady = true ∧
    (run step reset (addThenReplace LliuTopV2.buy) 36).ob.book.Holds 1#64 0 ∧
    (run step reset (addThenReplace LliuTopV2.buy) 36).msg =
      ⟨itchMsgOrderReplace, 1, 2, 101, 10, false, 0⟩ ∧
    ((run step reset (addThenReplace LliuTopV2.buy) 36).ob.book.refMem (refSlot 1#64 0)).side = true ∧
    ((run step reset (addThenReplace LliuTopV2.buy) 47).ob.book.refMem (refSlot 2#64 0)) =
      ⟨true, 2, 101, 10, false⟩ ∧
    ¬ (run step reset (addThenReplace LliuTopV2.buy) 36).ob.book.KeepsSide
      (run step reset (addThenReplace LliuTopV2.buy) 47).ob.book
      (run step reset (addThenReplace LliuTopV2.buy) 36).msg 0 := by
  refine ⟨OrderBook.distinctHomes_one_two, namesUpTo_addThenReplace (Or.inl rfl),
    during_addThenReplace (Or.inl rfl), by decide +kernel, ⟨by decide +kernel, by decide +kernel⟩,
    by decide +kernel, by decide +kernel, by decide +kernel, fun h => ?_⟩
  have hlevel := congrFun (h.other 0).levels 0
  revert hlevel
  decide +kernel

end Replace

end ParserBook

end Lliu
