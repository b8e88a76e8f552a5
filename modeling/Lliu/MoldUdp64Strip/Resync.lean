import Lliu.MoldUdp64Strip.Headers

/-!
# Lliu.MoldUdp64Strip.Resync

Which beats are taken for header beats.  While the strip follows the datagrams
(`InStep`) its header states take the first three beats of each, and the rest is
payload or dropped.

A third beat without the end of the header is dropped with the rest of its
datagram.  A first or second beat that is not full sends the strip back to
`S_HEADER_B0` at once, also in the middle of the datagram, and then the next beat
is taken for the first one of another (`resync_iff`).
-/

namespace Lliu

namespace MoldUdp64Strip

open Hdl

/-! ## the beats of a datagram -/

/-- The beats taken of a datagram, when another is taken. -/
def extend (cur : List Beat) : Option Beat → List Beat
  | none => cur
  | some b => if b.tlast then [] else cur ++ [b]

/-- The beats of the current datagram taken before cycle `n`. -/
def current (i : Nat → MoldUdp64StripIn) : Nat → List Beat
  | 0 => []
  | n + 1 => extend (current i n) ((trace i n).got (i n))

/-- The position in its datagram of the beat a header state takes. -/
def headerBeat : MoldState → Option Nat
  | .sHeaderB0 => some 0
  | .sHeaderB1 => some 1
  | .sHeaderB2 => some 2
  | _ => none

/-- A header beat does not carry all its header bytes: eight in the first two,
four in the third. -/
def Malformed (cur : List Beat) : Prop :=
  (∃ b ∈ cur.take 2, b.tkeep ≠ 0xFF#8) ∨
  ∃ b, cur[2]? = some b ∧ b.tkeep.extractLsb' 0 4 ≠ 0xF#4

/-- The next beat of the datagram `cur` is taken as what it is: as a header beat
only in that position, and dropped if the header is malformed. -/
structure TakenRight (st : MoldState) (cur : List Beat) : Prop where
  header : ∀ k, headerBeat st = some k → cur.length = k
  dropped : Malformed cur → st = .sDrop

/-- Every beat is taken as what it is. -/
def Resynchronises (i : Nat → MoldUdp64StripIn) : Prop :=
  ∀ n, (trace i n).got (i n) ≠ none → TakenRight (trace i n).state (current i n)

/-! ## following the datagrams -/

/-- The beats `cur` of a datagram have brought the strip to state `st`. -/
inductive InStep : MoldState → List Beat → Prop where
  | headerB0 : InStep .sHeaderB0 []
  | headerB1 (b₀ : Beat) (h₀ : b₀.tkeep = 0xFF#8) : InStep .sHeaderB1 [b₀]
  | headerB2 (b₀ b₁ : Beat) (h₀ : b₀.tkeep = 0xFF#8) (h₁ : b₁.tkeep = 0xFF#8) :
      InStep .sHeaderB2 [b₀, b₁]
  | payload (b₀ b₁ b₂ : Beat) (bs : List Beat) (h₀ : b₀.tkeep = 0xFF#8) (h₁ : b₁.tkeep = 0xFF#8)
      (h₂ : b₂.tkeep.extractLsb' 0 4 = 0xF#4) : InStep .sPayload (b₀ :: b₁ :: b₂ :: bs)
  | drop (b₀ b₁ b₂ : Beat) (bs : List Beat) (h₀ : b₀.tkeep = 0xFF#8) (h₁ : b₁.tkeep = 0xFF#8) :
      InStep .sDrop (b₀ :: b₁ :: b₂ :: bs)
  | flushShort : InStep .sFlushShort []

/-- The strip is back at the first header state in the middle of a datagram. -/
structure Lost (st : MoldState) (cur : List Beat) : Prop where
  state : st = .sHeaderB0
  short : ∃ b ∈ cur.take 2, b.tkeep ≠ 0xFF#8

section Step

variable {s : MoldUdp64Strip} {i : MoldUdp64StripIn} {st : MoldState} {cur : List Beat}

theorem InStep.full (h : InStep st cur) : ∀ b ∈ cur.take 2, b.tkeep = 0xFF#8 := by
  cases h <;> simp_all

theorem InStep.takenRight (h : InStep st cur) : TakenRight st cur := by
  refine ⟨fun k hk => ?_, fun hm => ?_⟩
  · cases h <;> simp_all [headerBeat]
  · rcases hm with ⟨b, hb, hne⟩ | ⟨b, hb, hne⟩
    · exact absurd (h.full b hb) hne
    · cases h <;> simp_all

theorem Lost.not_takenRight (h : Lost st cur) : ¬ TakenRight st cur := by
  intro ht
  have hd := ht.dropped (Or.inl h.short)
  rw [h.state] at hd
  cases hd

/-- In `S_PAYLOAD` a half beat is staged. -/
def Staged (s : MoldUdp64Strip) : Prop := s.state = .sPayload → s.stageHiValid = true

theorem Staged.step (h : s.Staged) : (s.step i).Staged := by
  intro hst
  cases hs : s.state with
  | sHeaderB0 =>
      simp only [MoldUdp64Strip.step, next, hs, stepHeaderB0] at hst
      split_ifs at hst
      simp_all
  | sHeaderB1 =>
      simp only [MoldUdp64Strip.step, next, hs, stepHeaderB1] at hst
      split_ifs at hst
      simp_all
  | sHeaderB2 =>
      simp only [MoldUdp64Strip.step, next, hs, stepHeaderB2] at hst ⊢
      split_ifs at hst ⊢ <;> simp_all
  | sPayload =>
      have hv := h hs
      simp only [MoldUdp64Strip.step, next, hs, stepPayload] at hst ⊢
      split_ifs at hst ⊢ <;> simp_all
  | sDrop =>
      simp only [MoldUdp64Strip.step, next, hs] at hst
      split_ifs at hst
      simp_all
  | sFlushShort =>
      simp only [MoldUdp64Strip.step, next, hs] at hst
      split_ifs at hst
      simp_all

/-! ### the states after a beat -/

@[simp] theorem beat_tlast : i.beat.tlast = i.sTlast := rfl

@[simp] theorem beat_tkeep : i.beat.tkeep = i.sTkeep := rfl

@[simp] theorem beat_tdata : i.beat.tdata = i.sTdata := rfl

/-- The beat that a valid input offers is taken, unless the strip waits for its
receiver. -/
theorem got_eq (hv : i.sTvalid = true) (hr : s.sTready i.mTready = true) : s.got i = some i.beat := by
  rw [got, hv, hr]
  rfl

theorem of_got_eq_some {b : Beat} (hg : s.got i = some b) :
    i.sTvalid = true ∧ s.sTready i.mTready = true ∧ b = i.beat := by
  rw [got] at hg
  split at hg
  · rename_i hc
    rw [Bool.and_eq_true] at hc
    exact ⟨hc.1, hc.2, (Option.some.inj hg).symm⟩
  · cases hg

theorem state_headerB0 (hst : s.state = .sHeaderB0) (hv : i.sTvalid = true) :
    (s.step i).state = if i.sTlast || !headerB0Valid i then .sHeaderB0 else .sHeaderB1 := by
  simp only [MoldUdp64Strip.step, next, hst, stepHeaderB0, hv, if_true]
  cases i.sTlast <;> cases headerB0Valid i <;> rfl

theorem state_headerB1 (hst : s.state = .sHeaderB1) (hv : i.sTvalid = true) :
    (s.step i).state = if i.sTlast || !headerB1Valid i then .sHeaderB0 else .sHeaderB2 := by
  simp only [MoldUdp64Strip.step, next, hst, stepHeaderB1, hv, if_true]
  cases i.sTlast <;> cases headerB1Valid i <;> rfl

theorem state_headerB2 (hst : s.state = .sHeaderB2) (hv : i.sTvalid = true) :
    (s.step i).state = if headerB2Valid i && s.headerInOrderB2 i then
      (if i.sTlast then .sFlushShort else .sPayload) else (if i.sTlast then .sHeaderB0 else .sDrop) := by
  simp only [MoldUdp64Strip.step, next, hst, stepHeaderB2, hv, if_true]
  cases headerB2Valid i <;> cases s.headerInOrderB2 i <;> rfl

theorem state_payload (hst : s.state = .sPayload) (hs : s.Staged) (hv : i.sTvalid = true)
    (hm : i.mTready = true) : (s.step i).state = if i.sTlast then .sHeaderB0 else .sPayload := by
  simp only [MoldUdp64Strip.step, next, hst, stepPayload, hv, hs hst, hm, Bool.and_self, if_true]

/-- In `S_PAYLOAD` nothing happens without a transfer. -/
theorem step_payload_stalled (hst : s.state = .sPayload) (hs : s.Staged) (hg : s.got i = none) :
    s.step i = s := by
  have hacc : s.headerAcceptB2 i = false := headerAcceptB2_of_ne (by simp [hst])
  have hstall : (i.sTvalid && i.mTready) = false := by
    simpa [got, sTready, hst] using hg
  have hnext : s.next i = s := by
    simp only [next, hst, stepPayload, hs hst, Bool.and_true, Bool.not_true, Bool.false_eq_true, if_false]
    cases hv : i.sTvalid <;> cases hm : i.mTready <;> simp_all
  simp only [MoldUdp64Strip.step, hnext, hacc, Bool.false_and, Bool.false_eq_true, if_false]

theorem state_drop (hst : s.state = .sDrop) (hv : i.sTvalid = true) :
    (s.step i).state = if i.sTlast then .sHeaderB0 else .sDrop := by
  simp only [MoldUdp64Strip.step, next, hst, hv, Bool.true_and]
  cases i.sTlast with
  | true => rfl
  | false => exact hst

theorem state_flushShort (hst : s.state = .sFlushShort) :
    (s.step i).state = if i.mTready then .sHeaderB0 else .sFlushShort := by
  simp only [MoldUdp64Strip.step, next, hst]
  cases i.mTready with
  | true => rfl
  | false => exact hst

/-- The other states wait for a beat. -/
theorem step_of_not_valid (h1 : s.state ≠ .sFlushShort) (h2 : s.state ≠ .sPayload)
    (hv : i.sTvalid = false) : s.step i = s := by
  have hacc : s.headerAcceptB2 i = false := by simp [headerAcceptB2, hv]
  simp only [MoldUdp64Strip.step, next, hacc, Bool.false_and, Bool.false_eq_true, if_false]
  cases hst : s.state with
  | sFlushShort => exact absurd hst h1
  | sPayload => exact absurd hst h2
  | sHeaderB0 | sHeaderB1 | sHeaderB2 | sDrop =>
      simp [stepHeaderB0, stepHeaderB1, stepHeaderB2, hv]

theorem not_valid_of_got_eq_none (h1 : s.state ≠ .sFlushShort) (h2 : s.state ≠ .sPayload)
    (hg : s.got i = none) : i.sTvalid = false := by
  by_contra hv
  rw [Bool.not_eq_false] at hv
  rw [got_eq hv (by cases hst : s.state <;> simp_all [sTready])] at hg
  cases hg

/-- Nothing happens without a beat, but for the beat that `S_FLUSH_SHORT` sends. -/
theorem step_of_got_eq_none (hs : s.Staged) (h : s.state ≠ .sFlushShort) (hg : s.got i = none) :
    s.step i = s := by
  by_cases hp : s.state = .sPayload
  · exact step_payload_stalled hp hs hg
  · exact step_of_not_valid h hp (not_valid_of_got_eq_none h hp hg)

/-! ### one step -/

/-- A first or second beat leads on if it is full and not the last; if it is
neither, the strip is lost. -/
theorem inStep_or_lost_header {b : Beat} {next : MoldState} (hlen : cur.length < 2)
    (hfull : b.tkeep = 0xFF#8 → b.tlast = false → InStep next (cur ++ [b])) :
    InStep (if b.tlast || !(b.tkeep == 0xFF#8) then .sHeaderB0 else next) (extend cur (some b)) ∨
    Lost (if b.tlast || !(b.tkeep == 0xFF#8) then .sHeaderB0 else next) (extend cur (some b)) := by
  cases hl : b.tlast with
  | true => exact Or.inl (by simpa [extend, hl] using InStep.headerB0)
  | false =>
      by_cases hk : b.tkeep = 0xFF#8
      · exact Or.inl (by simpa [extend, hl, hk] using hfull hk hl)
      · refine Or.inr ⟨by simp [hk], b, ?_, hk⟩
        rw [extend, if_neg (by simp [hl]), List.take_of_length_le (by simp; omega)]
        simp

/-- **Step lemma**: a strip in step stays so, or is lost in the middle of a
datagram. -/
theorem InStep.step (h : InStep s.state cur) (hs : s.Staged) :
    InStep (s.step i).state (extend cur (s.got i)) ∨ Lost (s.step i).state (extend cur (s.got i)) := by
  by_cases hflush : s.state = .sFlushShort
  · have hnone : s.got i = none := by simp [got, sTready, hflush]
    rw [hnone, extend, state_flushShort hflush]
    rw [hflush] at h
    cases h
    split
    · exact Or.inl .headerB0
    · exact Or.inl .flushShort
  cases hg : s.got i with
  | none =>
      rw [step_of_got_eq_none hs hflush hg]
      exact Or.inl h
  | some b =>
      obtain ⟨hv, hr, rfl⟩ := of_got_eq_some hg
      cases hst : s.state with
      | sFlushShort => exact absurd hst hflush
      | sHeaderB0 =>
          rw [hst] at h
          cases h
          rw [state_headerB0 hst hv]
          exact inStep_or_lost_header (b := i.beat) (by simp) fun hk _ => .headerB1 _ hk
      | sHeaderB1 =>
          rw [hst] at h
          rw [state_headerB1 hst hv]
          cases h with
          | headerB1 b₀ h₀ =>
              exact inStep_or_lost_header (b := i.beat) (by simp) fun hk _ => .headerB2 _ _ h₀ hk
      | sHeaderB2 =>
          rw [hst] at h
          left
          rw [state_headerB2 hst hv, extend, beat_tlast]
          cases h with
          | headerB2 b₀ b₁ h₀ h₁ =>
              cases i.sTlast with
              | true =>
                  simp only [if_true]
                  split
                  · exact .flushShort
                  · exact .headerB0
              | false =>
                  simp only [Bool.false_eq_true, if_false]
                  split
                  · rename_i hc
                    rw [Bool.and_eq_true, headerB2Valid, beq_iff_eq] at hc
                    exact .payload b₀ b₁ i.beat [] h₀ h₁ hc.1
                  · exact .drop b₀ b₁ i.beat [] h₀ h₁
      | sPayload =>
          have hm : i.mTready = true := by simpa [sTready, hst] using hr
          rw [hst] at h
          left
          rw [state_payload hst hs hv hm, extend, beat_tlast]
          cases h with
          | payload b₀ b₁ b₂ bs h₀ h₁ h₂ =>
              cases i.sTlast with
              | true => exact .headerB0
              | false => exact .payload b₀ b₁ b₂ (bs ++ [i.beat]) h₀ h₁ h₂
      | sDrop =>
          rw [hst] at h
          left
          rw [state_drop hst hv, extend, beat_tlast]
          cases h with
          | drop b₀ b₁ b₂ bs h₀ h₁ =>
              cases i.sTlast with
              | true => exact .headerB0
              | false => exact .drop b₀ b₁ b₂ (bs ++ [i.beat]) h₀ h₁

/-- A lost strip waits for a beat. -/
theorem Lost.step (h : Lost s.state cur) (hg : s.got i = none) :
    Lost (s.step i).state (extend cur (s.got i)) := by
  have hst := h.state
  have hv := not_valid_of_got_eq_none (by simp [hst]) (by simp [hst]) hg
  rw [hg, step_of_not_valid (by simp [hst]) (by simp [hst]) hv]
  exact h

end Step

/-! ## runs -/

section Run

variable {i : Nat → MoldUdp64StripIn} {n : Nat}

theorem staged_trace (n : Nat) : (trace i n).Staged :=
  run_invariant (P := fun _ (s : MoldUdp64Strip) => s.Staged)
    (fun h => absurd h (by decide)) (fun _ h => h.step) n

/-- A beat taken by a lost strip. -/
def LostAt (i : Nat → MoldUdp64StripIn) (n : Nat) : Prop :=
  (trace i n).got (i n) ≠ none ∧ Lost (trace i n).state (current i n)

/-- **Run lemma**: as long as no lost strip has taken a beat, the strip is in
step or lost. -/
theorem inStep_or_lost (hbefore : ∀ k, k < n → ¬ LostAt i k) :
    InStep (trace i n).state (current i n) ∨ Lost (trace i n).state (current i n) := by
  induction n with
  | zero => exact Or.inl .headerB0
  | succ n ih =>
      rw [trace_succ, current]
      rcases ih fun k hk => hbefore k (Nat.lt_succ_of_lt hk) with h | h
      · exact h.step (staged_trace n)
      · refine Or.inr (h.step ?_)
        by_contra hg
        exact hbefore n (Nat.lt_succ_self n) ⟨hg, h⟩

/-- **Resynchronisation**: every beat is taken as what it is if and only if no
datagram goes on after a first or second beat that is not full. -/
theorem resync_iff (i : Nat → MoldUdp64StripIn) : Resynchronises i ↔
    ∀ n, (trace i n).got (i n) ≠ none → ∀ b ∈ (current i n).take 2, b.tkeep = 0xFF#8 := by
  constructor
  · intro h
    have hnever : ∀ k, ¬ LostAt i k := fun k hk => hk.2.not_takenRight (h k hk.1)
    intro n hg
    rcases inStep_or_lost fun k _ => hnever k with hs | hl
    · exact hs.full
    · exact absurd ⟨hg, hl⟩ (hnever n)
  · intro h
    have hnever : ∀ k, ¬ LostAt i k := by
      intro k hk
      obtain ⟨b, hb, hne⟩ := hk.2.short
      exact hne (h k hk.1 b hb)
    intro n hg
    rcases inStep_or_lost fun k _ => hnever k with hs | hl
    · exact hs.takenRight
    · exact absurd ⟨hg, hl⟩ (hnever n)

/-- A datagram whose first beat has seven bytes, and whose other beats look like
a datagram of their own. -/
def embeddedDatagram : List Beat := ⟨0x0020202020202020#64, 0x7F#8, false⟩ :: firstDatagram

/-- Its second, third and fourth beat are accepted as a header. -/
theorem payload_taken_as_header :
    current (offered embeddedDatagram) 1 = embeddedDatagram.take 1 ∧
    (trace (offered embeddedDatagram) 1).state = .sHeaderB0 ∧
    (trace (offered embeddedDatagram) 1).got (offered embeddedDatagram 1) = firstDatagram[0]? ∧
    (trace (offered embeddedDatagram) 3).seqValid (offered embeddedDatagram 3) = true ∧
    ¬ Resynchronises (offered embeddedDatagram) := by
  have hrun : current (offered embeddedDatagram) 1 = embeddedDatagram.take 1 ∧
      (trace (offered embeddedDatagram) 1).state = .sHeaderB0 ∧
      (trace (offered embeddedDatagram) 1).got (offered embeddedDatagram 1) = firstDatagram[0]? ∧
      (trace (offered embeddedDatagram) 3).seqValid (offered embeddedDatagram 3) = true := by
    decide +kernel
  obtain ⟨hcur, hst, hgot, hacc⟩ := hrun
  refine ⟨hcur, hst, hgot, hacc, fun h => ?_⟩
  have hlen := (h 1 (by rw [hgot]; exact Option.some_ne_none _)).header 0 (by rw [hst]; rfl)
  rw [hcur] at hlen
  exact absurd hlen (by decide)

end Run

end MoldUdp64Strip

end Lliu
