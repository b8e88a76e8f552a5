import Lliu.LliuTopV2.AxiWrite
import Lliu.SymbolFilter.Lookup

/-!
# Lliu.LliuTopV2.Watchlist

Programming the watchlist.  Index and ticker are staged in registers of their own, and a
write of `CAM_CTRL` commits them to an entry (`programmed`).  The index has ten bits and
`cam_wr_index` seven: an index from 128 on is taken modulo 128, and a commit that should
change nothing replaces the ticker of another entry (`watchlist_iff`).
-/

namespace Lliu

/-- The tickers by their entries. -/
abbrev Watchlist := Fin symFilterEntries → Option (BitVec 64)

namespace Watchlist

/-- No entry is valid. -/
def empty : Watchlist := fun _ => none

/-- The entry with the index `c.1` becomes `c.2`; there may be none. -/
def commit (l : Watchlist) (c : Nat × Option (BitVec 64)) : Watchlist := fun k =>
  if k.val = c.1 then c.2 else l k

/-- The tickers watched. -/
def tickers (l : Watchlist) : Set (BitVec 64) := fun t => ∃ k, l k = some t

end Watchlist

/-- What a write commits: the index and the ticker that are staged; without the enable bit the
entry is made invalid. -/
def ControlRegs.commitOf (r : ControlRegs) (x : BitVec 12 × BitVec 32) :
    Option (Nat × Option (BitVec 64)) :=
  if x.1 = 0x020#12 ∧ x.2.getLsbD 0 = true then
    some ((r.camIdxHi ++ r.camIdxLo).toNat,
      if x.2.getLsbD 1 then some (r.camDatHi ++ r.camDatLo) else none)
  else none

/-- The registers and the watchlist after a write, with the index as `index` makes it. -/
def programStep (index : Nat → Nat) (s : ControlRegs × Watchlist) (x : BitVec 12 × BitVec 32) :
    ControlRegs × Watchlist :=
  ((s.1.write x).1, ((s.1.commitOf x).map (Prod.map index id)).elim s.2 s.2.commit)

/-- After a list of writes. -/
def program (index : Nat → Nat) (ws : List (BitVec 12 × BitVec 32)) : ControlRegs × Watchlist :=
  ws.foldl (programStep index) (Axil.reset.controlRegs, .empty)

/-- With the full index. -/
def programmed (ws : List (BitVec 12 × BitVec 32)) : ControlRegs × Watchlist := program id ws

/-- The watchlist in the registers. -/
def SymbolFilter.watchlist (s : SymbolFilter) : Watchlist := s.entry

/-! ## the commit -/

namespace Axil

variable {s : Axil} {i : LliuTopV2In} {rd blocked : Bool}

/-- What the symbol filter is told to commit. -/
def camCommit (s : Axil) : Option (Nat × Option (BitVec 64)) :=
  if s.camWrValid then
    some (s.camWrIndex.toNat, if s.camWrEnBit then some s.camWrData else none)
  else none

/-- A write that commits tells the symbol filter in the next cycle, with seven bits of the
index. -/
theorem camCommit_fire (h : s.fire = true) : (s.step i rd blocked).camCommit =
    (s.controlRegs.commitOf (s.wrAddrR, s.wrDataR)).map (Prod.map (· % 128) id) := by
  have hindex : ((s.camIdxHiR ++ s.camIdxLoR).setWidth (symFilterIdxW + 1)).toNat =
      (s.camIdxHiR ++ s.camIdxLoR).toNat % 128 := BitVec.toNat_setWidth _ _
  rw [step]
  simp only [if_pos h]
  by_cases hw : s.wrAddrR.extractLsb' 10 2 = 2#2
  · have haddr : s.wrAddrR ≠ 0x020#12 := fun ha => absurd (ha ▸ hw) (by decide)
    rw [if_pos hw, ControlRegs.commitOf, if_neg fun hc => haddr hc.1]
    rfl
  · rw [if_neg hw, ControlRegs.commitOf]
    have hfire : s.camFire = true ↔ s.wrAddrR = 0x020#12 ∧ s.wrDataR.getLsbD 0 = true := by
      rw [camFire, Bool.and_eq_true, beq_iff_eq]
    by_cases hc : s.camFire = true
    · rw [if_pos (hfire.mp hc)]
      simp only [camCommit, writeReg, hc, if_true, hindex]
      rfl
    · rw [if_neg fun hp => hc (hfire.mpr hp)]
      simp [camCommit, writeReg, hc]

end Axil

/-- What a symbol filter is told to commit. -/
def SymbolFilterIn.commit (i : SymbolFilterIn) : Option (Nat × Option (BitVec 64)) :=
  if i.camWrValid then some (i.camWrIndex.toNat, SymbolFilter.written i) else none

/-- It does what it is told. -/
theorem SymbolFilter.watchlist_step (s : SymbolFilter) (i : SymbolFilterIn) :
    (s.step i).watchlist = i.commit.elim s.watchlist s.watchlist.commit := by
  funext k
  rw [watchlist, entry_step, SymbolFilterIn.commit]
  have hwrite := camWrite_iff (i := i) (k := k)
  cases hv : i.camWrValid with
  | false =>
      rw [if_neg fun h => absurd (hwrite.mp h).1 (by rw [hv]; decide)]
      rfl
  | true =>
      have hindex : camWrite i k = true ↔ k.val = i.camWrIndex.toNat := by
        rw [hwrite, hv, eq_comm (a := k.val)]
        exact and_iff_right rfl
      simp only [hindex]
      rfl

namespace LliuTopV2

open Hdl

/-! ## runs -/

section Run

variable {i : Nat → LliuTopV2In}

/-- The writes applied before cycle `n`. -/
def writesApplied (i : Nat → LliuTopV2In) (n : Nat) : List (BitVec 12 × BitVec 32) :=
  collect (writeApplied i) n

/-- The watchlist in cycle `n`. -/
def watchlist (i : Nat → LliuTopV2In) (n : Nat) : Watchlist := (trace i n).uSymFilter.watchlist

theorem program_concat (index : Nat → Nat) (ws : List (BitVec 12 × BitVec 32))
    (x : BitVec 12 × BitVec 32) :
    program index (ws ++ [x]) = programStep index (program index ws) x := by
  rw [program, List.foldl_concat, ← program]

/-- The staging does not depend on the index. -/
theorem program_fst (index : Nat → Nat) (ws : List (BitVec 12 × BitVec 32)) :
    (program index ws).1 = (programmed ws).1 := by
  induction ws using List.reverseRecOn with
  | nil => rfl
  | append_singleton ws x ih =>
      rw [programmed, program_concat, program_concat, programStep, ih]
      rfl

/-- **Refinement**: registers and watchlist are those of the writes applied, with seven bits of
the index. -/
theorem program_trace (n : Nat) :
    (trace i n).axil.controlRegs = (program (· % 128) (writesApplied i n)).1 ∧
    watchlist i (n + 1) = (program (· % 128) (writesApplied i n)).2 := by
  induction n with
  | zero => exact ⟨rfl, rfl⟩
  | succ n ih =>
      obtain ⟨hregs, hlist⟩ := ih
      have hstep : watchlist i (n + 2) =
          (trace i (n + 1)).axil.camCommit.elim (watchlist i (n + 1)) (watchlist i (n + 1)).commit :=
        SymbolFilter.watchlist_step _ _
      have hwrites : writesApplied i (n + 1) = writesApplied i n ++ (writeApplied i n).toList := rfl
      rw [hstep, hwrites, axil_succ]
      cases hf : (trace i n).axil.fire with
      | false =>
          have hnone : writeApplied i n = none := by rw [writeApplied, hf]; rfl
          rw [Axil.step_of_not_fire hf, hnone, Option.toList_none, List.append_nil]
          exact ⟨hregs, hlist⟩
      | true =>
          have hsome : writeApplied i n =
              some ((trace i n).axil.wrAddrR, (trace i n).axil.wrDataR) := by
            rw [writeApplied, hf, if_pos rfl]
          rw [hsome, Option.toList_some, program_concat, programStep, ← hregs, ← hlist,
            Axil.camCommit_fire hf]
          exact ⟨(Axil.controlRegs_fire hf).1, rfl⟩

/-- In every cycle the watchlist is that of the writes applied by then, entry by entry. -/
def AsProgrammed (i : Nat → LliuTopV2In) : Prop :=
  ∀ n, watchlist i (n + 1) = (programmed (writesApplied i n)).2 ∧
    (watchlist i (n + 1)).tickers = (programmed (writesApplied i n)).2.tickers

/-- If the write applied in cycle `n` commits to an index from 128 on that is an entry modulo
128, then it commits what this entry should hold already. -/
def CommitKept (i : Nat → LliuTopV2In) (n : Nat) : Prop :=
  ∀ x c k, writeApplied i n = some x →
    (programmed (writesApplied i n)).1.commitOf x = some c → 128 ≤ c.1 → k.val = c.1 % 128 →
    (programmed (writesApplied i n)).2 k = c.2

theorem program_succ (index : Nat → Nat) {n : Nat} {x : BitVec 12 × BitVec 32}
    (h : writeApplied i n = some x) : program index (writesApplied i (n + 1)) =
      programStep index (program index (writesApplied i n)) x := by
  rw [writesApplied, collect_succ, h, Option.toList_some, program_concat]
  rfl

/-- One commit. -/
theorem commit_mod_iff {l : Watchlist} {c : Nat × Option (BitVec 64)} :
    l.commit (c.1 % 128, c.2) = l.commit c ↔ ∀ k, 128 ≤ c.1 → k.val = c.1 % 128 → l k = c.2 := by
  constructor
  · intro h k hge hk
    have hlt : k.val < 64 := k.isLt
    have hentry := congrFun h k
    rw [Watchlist.commit, Watchlist.commit, if_pos hk, if_neg (by omega)] at hentry
    exact hentry.symm
  · intro h
    funext k
    have hlt : k.val < 64 := k.isLt
    rw [Watchlist.commit, Watchlist.commit]
    by_cases hk : k.val = c.1 % 128
    · rw [if_pos hk]
      by_cases hge : 128 ≤ c.1
      · rw [if_neg (by omega), h k hge hk]
      · rw [if_pos (by omega)]
    · rw [if_neg hk, if_neg (by omega)]

/-- One cycle. -/
theorem program_succ_iff {n : Nat}
    (h : (program (· % 128) (writesApplied i n)).2 = (programmed (writesApplied i n)).2) :
    (program (· % 128) (writesApplied i (n + 1))).2 = (programmed (writesApplied i (n + 1))).2 ↔
      CommitKept i n := by
  cases hw : writeApplied i n with
  | none =>
      have hsame : writesApplied i (n + 1) = writesApplied i n := by
        rw [writesApplied, collect_succ, hw, Option.toList_none, List.append_nil, ← writesApplied]
      rw [hsame]
      exact iff_of_true h fun x c k hx => absurd hx (by rw [hw]; simp)
  | some x =>
      rw [program_succ _ hw, programmed, program_succ _ hw, programStep, programStep, program_fst,
        h, ← programmed]
      cases hc : (programmed (writesApplied i n)).1.commitOf x with
      | none =>
          refine iff_of_true rfl fun x' c k hx hcommit => ?_
          rw [hw, Option.some.injEq] at hx
          rw [← hx, hc] at hcommit
          exact absurd hcommit (by simp)
      | some c =>
          refine commit_mod_iff.trans ⟨fun hkept x' c' k hx hcommit => ?_, fun hkept k => ?_⟩
          · rw [hw, Option.some.injEq] at hx
            rw [← hx, hc, Option.some.injEq] at hcommit
            rw [← hcommit]
            exact hkept k
          · exact hkept x c k hw hc

/-- **Programming**: the watchlist is as programmed in all cycles if and only if no commit to an
index from 128 on changes an entry. -/
theorem watchlist_iff (i : Nat → LliuTopV2In) : AsProgrammed i ↔ ∀ n, CommitKept i n := by
  constructor
  · intro h n
    have hlist : ∀ m, (program (· % 128) (writesApplied i m)).2 = (programmed (writesApplied i m)).2 :=
      fun m => (program_trace m).2.symm.trans (h m).1
    exact (program_succ_iff (hlist n)).mp (hlist (n + 1))
  · intro h n
    have hlist : watchlist i (n + 1) = (programmed (writesApplied i n)).2 := by
      rw [(program_trace n).2]
      induction n with
      | zero => rfl
      | succ n ih => exact (program_succ_iff ih).mpr (h n)
    exact ⟨hlist, by rw [hlist]⟩

end Run

/-! ## index 128 -/

/-- `"AAPL    "` is committed to index 0, and `"MSFT    "` to index 128. -/
def farCommit : Nat → LliuTopV2In :=
  Schedule.inputs
    { axis := []
      axil := [(0, 0x018#12, 0x20202020#32), (3, 0x01C#12, 0x4141504C#32), (6, 0x020#12, 3#32),
        (9, 0x01C#12, 0x4D534654#32), (12, 0x014#12, 0x80#32), (15, 0x020#12, 3#32)] }

/-- Its writes. -/
def farWrites : List (BitVec 12 × BitVec 32) :=
  [(0x018#12, 0x20202020#32), (0x01C#12, 0x4141504C#32), (0x020#12, 3#32),
    (0x01C#12, 0x4D534654#32), (0x014#12, 0x80#32), (0x020#12, 3#32)]

/-- The second commit replaces the first ticker, and should change nothing. -/
theorem not_asProgrammed_farCommit :
    writesApplied farCommit 20 = farWrites ∧
    aapl ∈ (programmed (writesApplied farCommit 20)).2.tickers ∧
    aapl ∉ (watchlist farCommit 21).tickers ∧ ¬ AsProgrammed farCommit := by
  have hwrites : writesApplied farCommit 20 = farWrites := by decide +kernel
  have hshould : aapl ∈ (programmed farWrites).2.tickers := ⟨0, by decide⟩
  have hentries : ∀ k, (program (· % 128) farWrites).2 k ≠ some aapl := by decide
  have hdoes : aapl ∉ (watchlist farCommit 21).tickers := by
    rintro ⟨k, hk⟩
    rw [(program_trace 20).2, hwrites] at hk
    exact hentries k hk
  rw [hwrites]
  refine ⟨rfl, hshould, hdoes, fun h => hdoes ?_⟩
  rw [(h 20).2, hwrites]
  exact hshould

end LliuTopV2

end Lliu
