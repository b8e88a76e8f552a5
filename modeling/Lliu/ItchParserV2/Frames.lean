import Mathlib.Data.List.Forall2
import Lliu.Hdl.Frames
import Lliu.ItchParserV2.Messages

/-!
# Lliu.ItchParserV2.Frames

What the parser gives for a frame of any declared length, in any history.

The buffer is never cleared, the fields are read from it whatever the length says, and
its write address wraps after 62 bytes.  So a frame that is too short for the fields of
its type is completed with what an earlier frame has left, and the ninth beat of one of
63 to 70 bytes overwrites its first six bytes, the type among them.  A longer frame is
never complete; what follows it up to `tlast` is skipped.
-/

namespace Lliu

namespace ItchParserV2

open Hdl

/-! ## frames -/

/-- The declared length of a frame. -/
def lenOf : List ItchBeat → Nat
  | [] => 0
  | b :: _ => (beatLen b.tdata).toNat

/-- The bytes of a frame after its length prefix. -/
def body (f : List ItchBeat) : List Byte := (f.flatMap ItchBeat.lanes).drop 2

/-- The declared bytes of a frame. -/
def declared (f : List ItchBeat) : List Byte := (body f).take (lenOf f)

/-- All the declared bytes are there. -/
def complete (f : List ItchBeat) : Bool := lenOf f + 2 ≤ 8 * f.length

/-- The last beat is the last one of a packet. -/
def ended (f : List ItchBeat) : Bool := f.getLast?.any ItchBeat.tlast

/-- A frame ends when it is complete or cut off. -/
def closes (f : List ItchBeat) : Bool := complete f || ended f

/-- The message type of a frame. -/
def typeOf (f : List ItchBeat) : BitVec 8 := (body f).getD 0 0

/-- The fields that a frame shall lead to, those of its declared bytes. -/
def due (f : List ItchBeat) : List Fields :=
  if complete f ∧ supported (typeOf f) = true ∧ extent (typeOf f) ≤ lenOf f then
    [fieldsOf fun a => (declared f).getD a.toNat 0]
  else []

/-- The byte that the parser takes for the type: the ninth beat overwrites byte 0. -/
def typeRead (f : List ItchBeat) : BitVec 8 := (body f).getD (if lenOf f ≤ 62 then 0 else 64) 0

/-- A frame with a supported type as read has this type, and declares all its fields. -/
def Faithful (f : List ItchBeat) : Prop :=
  complete f = true → lenOf f ≤ 70 → supported (typeRead f) = true →
    typeRead f = typeOf f ∧ extent (typeOf f) ≤ lenOf f

/-- Whether the parser skips what follows a frame: it has not ended a packet, and is
too long or was skipped itself. -/
def skips (skipped : Bool) (f : List ItchBeat) : Bool :=
  (skipped || decide (70 < lenOf f)) && !ended f

/-- All the frames that are not skipped are faithful. -/
def AllFaithful : Bool → List (List ItchBeat) → Prop
  | _, [] => True
  | skipped, f :: fs => (skipped = false → Faithful f) ∧ AllFaithful (skips skipped f) fs

/-- What the parser gives for each frame. -/
def framePulses (s : ItchParserV2) : List (List ItchBeat) → List (List Fields)
  | [] => []
  | f :: fs => (feed take s f).2 :: framePulses (feed take s f).1 fs

section Frames

variable {f g : List ItchBeat} {b : ItchBeat}

theorem lenOf_concat (h : g ≠ []) : lenOf (g ++ [b]) = lenOf g := by
  cases g with
  | nil => exact absurd rfl h
  | cons b' g => rfl

theorem length_flatMap_lanes (f : List ItchBeat) : (f.flatMap ItchBeat.lanes).length = 8 * f.length := by
  induction f with
  | nil => rfl
  | cons b f ih =>
      rw [List.flatMap_cons, List.length_append, length_lanes, ih, List.length_cons]
      omega

theorem length_body (f : List ItchBeat) : (body f).length = 8 * f.length - 2 := by
  unfold body
  rw [List.length_drop, length_flatMap_lanes]

theorem body_concat (h : g ≠ []) : body (g ++ [b]) = body g ++ b.lanes := by
  have hpos := List.length_pos_of_ne_nil h
  have hlen := length_flatMap_lanes g
  unfold body
  rw [List.flatMap_append, List.drop_append_of_le_length (by omega)]
  simp

theorem body_singleton (b : ItchBeat) : body [b] = b.lanes.drop 2 := by
  unfold body
  simp

theorem ended_concat : ended (g ++ [b]) = b.tlast := by
  unfold ended
  simp

end Frames

/-! ## reading a frame -/

/-- In `S_ACCUMULATE`, with the beats `g` of a frame stored. -/
structure Holding (s : ItchParserV2) (g : List ItchBeat) : Prop where
  state : s.state = .sAccumulate
  len : s.msgLen.toNat = lenOf g
  cnt : s.byteCnt.toNat = (8 * g.length - 2) % 64
  agrees : g.length ≤ 8 → Agrees s.msgBuf (body g) (8 * g.length - 2)

/-- Skipping what follows a frame that is too long. -/
structure Skipping (s : ItchParserV2) : Prop where
  state : s.state = .sAccumulate
  len : 70 < s.msgLen.toNat
  cnt : s.byteCnt.toNat % 8 = 6

/-- At the start of a frame, which is skipped or not. -/
def AtFrame (skipped : Bool) (s : ItchParserV2) : Prop :=
  if skipped then Skipping s else s.state = .sIdle

/-- The buffer as a complete frame leaves it. -/
structure Leaves (f : List ItchBeat) (buf : BitVec 6 → BitVec 8) : Prop where
  type : buf 0 = typeRead f
  agrees : ∀ a : BitVec 6, 11 ≤ a.toNat → a.toNat < 62 → a.toNat + 2 < 8 * f.length →
    buf a = (body f).getD a.toNat 0

/-- What the parser gives for a frame that it has not skipped. -/
def Gives (f : List ItchBeat) (out : List Fields) : Prop :=
  if complete f = true ∧ lenOf f ≤ 70 then
    ∃ buf, Leaves f buf ∧ out = if supported (buf 0) then [fieldsOf buf] else []
  else out = []

section Reads

variable {s : ItchParserV2} {f g : List ItchBeat} {b : ItchBeat} {buf : BitVec 6 → BitVec 8}

theorem Agrees.append {x y : List Byte} {c : Nat} (h : Agrees buf x c) (hc : c ≤ x.length) :
    Agrees buf (x ++ y) c := fun a ha => by
  rw [h a ha, List.getD_append _ _ _ _ (by omega)]

/-- Up to eight beats, nothing is overwritten. -/
theorem Leaves.of_agrees (hc : complete f = true) (hne : f ≠ []) (hlen : f.length ≤ 8)
    (h : Agrees buf (body f) (8 * f.length - 2)) : Leaves f buf := by
  have hpos := List.length_pos_of_ne_nil hne
  simp only [complete, decide_eq_true_eq] at hc
  refine ⟨?_, fun a _ _ ha => h a (by omega)⟩
  rw [typeRead, if_pos (by omega)]
  exact h 0 (by simp; omega)

/-- A frame that is emitted. -/
theorem gives_emit (hc : complete f = true) (hlen : lenOf f ≤ 70)
    (hst : (s.step (ready b)).state = .sEmit) (h : Leaves f (s.step (ready b)).msgBuf) :
    Gives f (take s b).2 ∧ (take s b).1.state = .sIdle := by
  rw [Gives, if_pos ⟨hc, hlen⟩]
  refine ⟨⟨_, h, ?_⟩, by simp [take, settled, hst, stepEmit]⟩
  rw [take, emitted]
  simp only [hst, true_and]

/-! ### the first beat -/

theorem complete_singleton : complete [b] = true ↔ beatLen b.tdata ≤ 6 := by
  rw [complete, decide_eq_true_eq, BitVec.le_def]
  change (beatLen b.tdata).toNat + 2 ≤ 8 ↔ (beatLen b.tdata).toNat ≤ 6
  omega

theorem agrees_first (buf : BitVec 6 → BitVec 8) (b : ItchBeat) :
    Agrees (storeFirst buf b.tdata) (body [b]) 6 := by
  have hlanes : b.lanes = beatByte b.tdata 0 :: beatByte b.tdata 1 :: b.lanes.drop 2 := rfl
  have hbody : b.lanes.drop 2 <+: body [b] := by rw [body_singleton]
  have hstore := (agrees_storeFirst buf (by rw [← hlanes]) hbody).1
  rwa [List.length_drop, length_lanes] at hstore

theorem skips_singleton (h : closes [b] = true) : skips false [b] = false := by
  have hlen : complete [b] = true → ¬ 70 < lenOf [b] := fun hc => by
    simp only [complete, decide_eq_true_eq, List.length_singleton] at hc
    omega
  unfold closes at h
  unfold skips
  cases hc : complete [b] with
  | true => simp [hlen hc]
  | false => simp_all

theorem first_closed (hst : s.state = .sIdle) (h : closes [b] = true) :
    Gives [b] (take s b).2 ∧ AtFrame (skips false [b]) (take s b).1 := by
  rw [skips_singleton h]
  change Gives [b] (take s b).2 ∧ (take s b).1.state = .sIdle
  by_cases hc : complete [b] = true
  · have hle := complete_singleton.mp hc
    have hlen : lenOf [b] ≤ 70 := by
      change (beatLen b.tdata).toNat ≤ 70
      have : (beatLen b.tdata).toNat ≤ 6 := hle
      omega
    refine gives_emit hc hlen ?_ ?_ <;> rw [step_idle hst]
    · exact if_pos hle
    · exact .of_agrees hc (List.cons_ne_nil b []) (by simp) (agrees_first s.msgBuf b)
  · have hlast : b.tlast = true := by simpa [closes, hc, ended] using h
    have hstate : (s.step (ready b)).state = .sIdle := by
      rw [step_idle hst]
      exact (if_neg (mt complete_singleton.mpr hc)).trans (if_pos hlast)
    obtain ⟨hs', hout⟩ := take_more (s := s) (b := b) (by simp [hstate])
    rw [Gives, if_neg fun hne => hc hne.1, hs']
    exact ⟨hout, hstate⟩

theorem first_open (hst : s.state = .sIdle) (h : closes [b] = false) :
    (take s b).2 = [] ∧ Holding (take s b).1 [b] := by
  simp only [closes, Bool.or_eq_false_iff] at h
  have hc : ¬ beatLen b.tdata ≤ 6 := by rw [← complete_singleton, h.1]; simp
  have hlast : b.tlast = false := by simpa [ended] using h.2
  have hstate : (s.step (ready b)).state = .sAccumulate := by
    rw [step_idle hst]
    exact (if_neg hc).trans (by simp [hlast])
  obtain ⟨hs', hout⟩ := take_more (s := s) (b := b) (by simp [hstate])
  rw [hs']
  refine ⟨hout, hstate, ?_, ?_, fun _ => ?_⟩ <;> rw [step_idle hst]
  · rfl
  · rfl
  · exact agrees_first s.msgBuf b

/-! ### the later beats -/

/-- The counter compares on 16 bits, but never gets past 62. -/
theorem Holding.emits_iff (h : Holding s g) (ho : Open closes g) (hne : g ≠ []) :
    s.msgLen ≤ s.byteCnt.setWidth 16 + 8 ↔ complete (g ++ [b]) = true ∧ lenOf (g ++ [b]) ≤ 70 := by
  have hpos := List.length_pos_of_ne_nil hne
  have hopen := ho.not_closes hne
  have hlen := h.len
  have hcnt := h.cnt
  simp only [closes, complete, Bool.or_eq_false_iff, decide_eq_false_iff_not] at hopen
  rw [BitVec.le_def, BitVec.toNat_add, BitVec.toNat_setWidth, complete, lenOf_concat hne,
    decide_eq_true_eq, List.length_append, List.length_singleton,
    show (8 : BitVec 16).toNat = 8 from rfl]
  omega

/-- Up to the eighth beat. -/
theorem Holding.agrees_store (h : Holding s g) (hne : g ≠ []) (hlen : g.length < 8) :
    Agrees (storeBeat s.msgBuf s.byteCnt b.tdata) (body (g ++ [b])) (8 * (g ++ [b]).length - 2) := by
  have hpos := List.length_pos_of_ne_nil hne
  have hbody := length_body g
  have hagree : Agrees s.msgBuf (body (g ++ [b])) (8 * g.length - 2) := by
    rw [body_concat hne]
    exact (h.agrees (le_of_lt hlen)).append (by omega)
  have hcnt : s.byteCnt.toNat = 8 * g.length - 2 := by
    rw [h.cnt]
    omega
  have hstore := hagree.storeBeat hcnt (by omega) (List.prefix_refl b.lanes)
    (by rw [body_concat hne, List.drop_left' hbody])
  rw [length_lanes] at hstore
  rwa [List.length_append, List.length_singleton,
    show 8 * (g.length + 1) - 2 = 8 * g.length - 2 + 8 by omega]

/-- The ninth beat goes to the last two addresses and the first six. -/
theorem Holding.leaves_ninth (h : Holding s g) (hlen : g.length = 8) (hgt : 62 < lenOf (g ++ [b])) :
    Leaves (g ++ [b]) (storeBeat s.msgBuf s.byteCnt b.tdata) := by
  have hne : g ≠ [] := List.ne_nil_of_length_pos (by omega)
  have hbody := length_body g
  have hcnt : s.byteCnt = 62 := by
    rw [← BitVec.toNat_inj, h.cnt, hlen]
    rfl
  rw [hcnt]
  constructor
  · rw [typeRead, if_neg (by omega), body_concat hne, List.getD_append_right _ _ _ _ (by omega), hbody,
      hlen]
    rfl
  · intro a hlo hhi _
    have hsub : ¬ (a - 62).toNat < 8 := by
      rw [BitVec.toNat_sub, show (62 : BitVec 6).toNat = 62 from rfl]
      omega
    rw [storeBeat, if_neg hsub, h.agrees (by omega) a (by omega), body_concat hne,
      List.getD_append _ _ _ _ (by omega)]

/-- A beat that the parser does not take for the last one. -/
theorem Holding.step_more (h : Holding s g) (ho : Open closes g) (hne : g ≠ [])
    (hc : ¬ (complete (g ++ [b]) = true ∧ lenOf (g ++ [b]) ≤ 70)) :
    (take s b).1.state = (if b.tlast then .sIdle else .sAccumulate) ∧ (take s b).2 = [] ∧
    (take s b).1.msgLen = s.msgLen ∧ (take s b).1.byteCnt = s.byteCnt + 8 ∧
    (take s b).1.msgBuf = storeBeat s.msgBuf s.byteCnt b.tdata := by
  have hstate : (s.step (ready b)).state = if b.tlast then .sIdle else .sAccumulate := by
    rw [step_accumulate h.state]
    exact if_neg (mt (h.emits_iff ho hne).mp hc)
  obtain ⟨hs', hout⟩ := take_more (s := s) (b := b) (by rw [hstate]; split <;> simp)
  rw [hs']
  refine ⟨hstate, hout, ?_⟩
  rw [step_accumulate h.state]
  exact ⟨rfl, rfl, rfl⟩

theorem Holding.cnt_mod (h : Holding s g) (hne : g ≠ []) : (s.byteCnt + 8).toNat % 8 = 6 := by
  have hpos := List.length_pos_of_ne_nil hne
  have hcnt := h.cnt
  rw [BitVec.toNat_add, show (8 : BitVec 6).toNat = 8 from rfl]
  omega

theorem Holding.step_closed (h : Holding s g) (ho : Open closes g) (hne : g ≠ [])
    (hc : closes (g ++ [b]) = true) :
    Gives (g ++ [b]) (take s b).2 ∧ AtFrame (skips false (g ++ [b])) (take s b).1 := by
  have hopen := ho.not_closes hne
  simp only [closes, complete, Bool.or_eq_false_iff, decide_eq_false_iff_not] at hopen
  by_cases hemit : complete (g ++ [b]) = true ∧ lenOf (g ++ [b]) ≤ 70
  · have hlen : lenOf g ≤ 70 := by
      rw [← lenOf_concat hne]
      exact hemit.2
    have hleaves : Leaves (g ++ [b]) (storeBeat s.msgBuf s.byteCnt b.tdata) := by
      by_cases hlt : g.length < 8
      · exact .of_agrees hemit.1 (by simp) (by simpa using hlt) (h.agrees_store hne hlt)
      · exact h.leaves_ninth (by omega) (by rw [lenOf_concat hne]; omega)
    have hskip : skips false (g ++ [b]) = false := by simp [skips, hemit.2]
    rw [hskip]
    refine gives_emit hemit.1 hemit.2 ?_ ?_ <;> rw [step_accumulate h.state]
    · exact if_pos ((h.emits_iff ho hne).mpr hemit)
    · exact hleaves
  · obtain ⟨hstate, hout, hlen, hcnt, -⟩ := h.step_more ho hne hemit
    rw [Gives, if_neg hemit]
    refine ⟨hout, ?_⟩
    rw [skips, ended_concat]
    cases hlast : b.tlast with
    | true => simpa [AtFrame, hlast] using hstate
    | false =>
        -- not cut off, so it is complete but too long
        have hcomp : complete (g ++ [b]) = true := by simpa [closes, ended_concat, hlast] using hc
        have hgt : 70 < lenOf (g ++ [b]) := by
          by_contra hle
          exact hemit ⟨hcomp, by omega⟩
        have hskip : Skipping (take s b).1 :=
          ⟨by simpa [hlast] using hstate, by rwa [hlen, h.len, ← lenOf_concat hne],
            by rw [hcnt]; exact h.cnt_mod hne⟩
        simpa [AtFrame, hgt] using hskip

theorem Holding.step_open (h : Holding s g) (ho : Open closes g) (hne : g ≠ [])
    (hc : closes (g ++ [b]) = false) : (take s b).2 = [] ∧ Holding (take s b).1 (g ++ [b]) := by
  simp only [closes, Bool.or_eq_false_iff, ended_concat] at hc
  obtain ⟨hcomp, hlast⟩ := hc
  have hpos := List.length_pos_of_ne_nil hne
  obtain ⟨hstate, hout, hlen, hcnt, hbuf⟩ := h.step_more (b := b) ho hne (by simp [hcomp])
  refine ⟨hout, ⟨by simpa [hlast] using hstate, ?_, ?_, fun hle => ?_⟩⟩
  · rw [hlen, h.len, lenOf_concat hne]
  · rw [hcnt, BitVec.toNat_add, h.cnt, List.length_append, List.length_singleton]
    change ((8 * g.length - 2) % 64 + 8) % 64 = _
    omega
  · rw [hbuf]
    exact h.agrees_store hne (by simpa using hle)

/-! ### skipping -/

theorem Skipping.step (h : Skipping s) (b : ItchBeat) :
    (take s b).2 = [] ∧ AtFrame (!b.tlast) (take s b).1 := by
  have hlt := s.byteCnt.isLt
  have hmod := h.cnt
  have hgt := h.len
  have hmore : ¬ s.msgLen ≤ s.byteCnt.setWidth 16 + 8 := by
    rw [BitVec.le_def, BitVec.toNat_add, BitVec.toNat_setWidth, show (8 : BitVec 16).toNat = 8 from rfl]
    omega
  have hstate : (s.step (ready b)).state = if b.tlast then .sIdle else .sAccumulate := by
    rw [step_accumulate h.state]
    exact if_neg hmore
  obtain ⟨hs', hout⟩ := take_more (s := s) (b := b) (by rw [hstate]; split <;> simp)
  refine ⟨hout, ?_⟩
  rw [hs']
  cases hlast : b.tlast with
  | true => simp [AtFrame, hstate, hlast]
  | false =>
      refine ⟨by simp [hstate, hlast], ?_, ?_⟩ <;> rw [step_accumulate h.state]
      · exact hgt
      · change (s.byteCnt + 8).toNat % 8 = 6
        rw [BitVec.toNat_add, show (8 : BitVec 6).toNat = 8 from rfl]
        omega

/-! ### whole frames -/

theorem feed_open_idle (hst : s.state = .sIdle) (ho : Open closes g) :
    (feed take s g).2 = [] ∧
    (if g = [] then (feed take s g).1.state = .sIdle else Holding (feed take s g).1 g) := by
  induction ho with
  | nil => simpa using hst
  | concat g b ho hb ih =>
      obtain ⟨hout, hview⟩ := ih
      rw [feed_concat, hout, if_neg (by simp), List.nil_append]
      by_cases hg : g = []
      · subst hg
        exact first_open hst hb
      · rw [if_neg hg] at hview
        exact hview.step_open ho hg hb

theorem feed_whole_idle (hst : s.state = .sIdle) (hf : Whole closes f) :
    Gives f (feed take s f).2 ∧ AtFrame (skips false f) (feed take s f).1 := by
  obtain ⟨g, b, ho, hb⟩ := hf
  obtain ⟨hout, hview⟩ := feed_open_idle hst ho
  rw [feed_concat, hout, List.nil_append]
  by_cases hg : g = []
  · subst hg
    exact first_closed hst hb
  · rw [if_neg hg] at hview
    exact hview.step_closed ho hg hb

theorem feed_open_skipping (h : Skipping s) (ho : Open closes g) :
    (feed take s g).2 = [] ∧ Skipping (feed take s g).1 := by
  induction ho with
  | nil => exact ⟨rfl, h⟩
  | concat g b ho hb ih =>
      obtain ⟨hout, hview⟩ := ih
      obtain ⟨hout', hview'⟩ := hview.step b
      have hlast : b.tlast = false := by
        simp only [closes, Bool.or_eq_false_iff, ended_concat] at hb
        exact hb.2
      rw [feed_concat, hout, hout']
      simpa [AtFrame, hlast] using hview'

theorem feed_whole_skipping (h : Skipping s) (hf : Whole closes f) :
    (feed take s f).2 = [] ∧ AtFrame (skips true f) (feed take s f).1 := by
  obtain ⟨g, b, ho, hb⟩ := hf
  obtain ⟨hout, hview⟩ := feed_open_skipping h ho
  obtain ⟨hout', hview'⟩ := hview.step b
  rw [feed_concat, hout, hout', skips, ended_concat]
  exact ⟨rfl, hview'⟩

/-- A frame from its start. -/
theorem feed_whole {skipped : Bool} (h : AtFrame skipped s) (hf : Whole closes f) :
    (if skipped then (feed take s f).2 = [] else Gives f (feed take s f).2) ∧
    AtFrame (skips skipped f) (feed take s f).1 := by
  cases skipped with
  | true => exact feed_whole_skipping h hf
  | false => exact feed_whole_idle h hf

theorem feed_open {skipped : Bool} (h : AtFrame skipped s) (hg : Open closes g) :
    (feed take s g).2 = [] := by
  cases skipped with
  | true => exact (feed_open_skipping h hg).1
  | false => exact (feed_open_idle h hg).1

end Reads

/-! ## the fields of a frame -/

section Due

variable {s : ItchParserV2} {f : List ItchBeat} {fs : List (List ItchBeat)} {out : List Fields}

/-- The type of a frame is a declared byte if the fields are. -/
theorem declared_zero (h : 0 < lenOf f) : (declared f).getD 0 0 = typeOf f := by
  unfold declared typeOf
  rw [List.getD_eq_getElem?_getD, List.getD_eq_getElem?_getD, List.getElem?_take_of_lt h]

/-- The fields of a frame whose bytes are those of `x`. -/
theorem Leaves.fieldsOf_eq {buf : BitVec 6 → BitVec 8} {x : List Byte} (h : Leaves f buf)
    (htype : typeRead f = x.getD 0 0) (hlen : extent (typeRead f) + 2 ≤ 8 * f.length)
    (hx : ∀ k, 11 ≤ k → k < extent (typeRead f) → (body f).getD k 0 = x.getD k 0) :
    fieldsOf buf = fieldsOf fun a => x.getD a.toNat 0 := by
  have hle : extent (typeRead f) ≤ 36 := by
    unfold extent
    split_ifs <;> omega
  refine fieldsOf_congr_of (by rw [h.type, htype]; rfl) fun a hlo ha => ?_
  rw [h.type] at ha
  rw [h.agrees a hlo (by omega) (by omega), hx a.toNat hlo ha]

/-- A faithful frame is read as it declares. -/
theorem Leaves.declared_eq {buf : BitVec 6 → BitVec 8} (h : Leaves f buf) (hc : complete f = true)
    (htype : typeRead f = typeOf f) (hext : extent (typeOf f) ≤ lenOf f) :
    fieldsOf buf = fieldsOf fun a => (declared f).getD a.toNat 0 := by
  have hpos : 0 < lenOf f := lt_of_lt_of_le (by decide) (le_trans le_extent hext)
  rw [complete, decide_eq_true_eq] at hc
  refine h.fieldsOf_eq (by rw [declared_zero hpos, htype]) (by rw [htype]; omega) fun k _ hk => ?_
  rw [htype] at hk
  rw [declared, List.getD_eq_getElem?_getD, List.getD_eq_getElem?_getD,
    List.getElem?_take_of_lt (by omega)]

/-- **One frame**: what the parser gives is due exactly if the frame is faithful. -/
theorem Gives.sublist_iff (h : Gives f out) : out.Sublist (due f) ↔ Faithful f := by
  unfold Gives at h
  unfold Faithful
  split at h
  · rename_i hc
    obtain ⟨hcomp, hlen⟩ := hc
    obtain ⟨buf, hleaves, rfl⟩ := h
    rw [hleaves.type]
    cases hs : supported (typeRead f) with
    | false => simp
    | true =>
        simp only [hcomp, hlen, if_true, true_implies, due, true_and]
        constructor
        · intro hsub
          split at hsub
          · rename_i hd
            have hpos : 0 < lenOf f := lt_of_lt_of_le (by decide) (le_trans le_extent hd.2)
            have heq := List.singleton_sublist.mp hsub
            have htype := congrArg Fields.msgType (List.mem_singleton.mp heq)
            change buf 0 = (declared f).getD 0 0 at htype
            rw [declared_zero hpos, hleaves.type] at htype
            exact ⟨htype, hd.2⟩
          · cases hsub
        · rintro ⟨htype, hext⟩
          rw [if_pos ⟨by rwa [← htype], hext⟩, hleaves.declared_eq hcomp htype hext]
  · rename_i hc
    subst h
    simp only [List.nil_sublist, true_iff]
    exact fun hcomp hlen => absurd ⟨hcomp, hlen⟩ hc

theorem framePulses_sublist_iff {skipped : Bool} (h : AtFrame skipped s)
    (hw : ∀ f ∈ fs, Whole closes f) :
    List.Forall₂ (fun p f => p.Sublist (due f)) (framePulses s fs) fs ↔ AllFaithful skipped fs := by
  induction fs generalizing s skipped with
  | nil => simp [framePulses, AllFaithful]
  | cons f fs ih =>
      obtain ⟨hout, hnext⟩ := feed_whole h (hw f List.mem_cons_self)
      rw [framePulses, AllFaithful, List.forall₂_cons,
        ih hnext fun f' hf' => hw f' (List.mem_cons_of_mem f hf')]
      refine and_congr_left fun _ => ?_
      cases skipped with
      | true =>
          rw [if_pos rfl] at hout
          simp [hout]
      | false =>
          rw [if_neg Bool.false_ne_true] at hout
          simp [hout.sublist_iff]

/-- Frame after frame. -/
theorem feed_frames {skipped : Bool} (h : AtFrame skipped s) (hw : ∀ f ∈ fs, Whole closes f) :
    (feed take s fs.flatten).2 = (framePulses s fs).flatten ∧
    AtFrame (fs.foldl skips skipped) (feed take s fs.flatten).1 := by
  induction fs generalizing s skipped with
  | nil => exact ⟨rfl, h⟩
  | cons f fs ih =>
      obtain ⟨-, hnext⟩ := feed_whole h (hw f List.mem_cons_self)
      obtain ⟨hout, hend⟩ := ih hnext fun f' hf' => hw f' (List.mem_cons_of_mem f hf')
      rw [List.flatten_cons, feed_append, hout]
      exact ⟨rfl, hend⟩

/-- The beats of the frame under way give nothing. -/
theorem feed_cut {skipped : Bool} (h : AtFrame skipped s) (l : List ItchBeat) :
    (feed take s l).2 = (framePulses s (cut closes l).1).flatten := by
  obtain ⟨hout, hend⟩ := feed_frames h (whole_cut l)
  have hrest := feed_open hend (open_cut l)
  have hjoin : (cut closes l).1.flatten ++ (cut closes l).2 = l := flatten_cut l
  conv_lhs => rw [← hjoin]
  rw [feed_append, hrest, List.append_nil, hout]

end Due

/-! ## runs -/

/-- The registers after reset; the buffer may hold anything. -/
def started (buf : BitVec 6 → BitVec 8) : ItchParserV2 := { reset with msgBuf := buf }

/-- What has been given, in terms of the beats taken. -/
theorem pulsed_pending (buf : BitVec 6 → BitVec 8) (i : Nat → ItchParserV2In) (n : Nat) :
    pulsed (started buf) i n ++ (run step (started buf) i n).pending =
      (feed take (started buf) (taken (started buf) i n)).2 := by
  have hvalid : (started buf).ValidInIdle := fun h => absurd h Bool.false_ne_true
  exact (refines.collect hvalid n).2.2

/-- **No stale data**: in every run, for every frame the parser gives no more than the
fields of its own declared bytes, exactly if all the frames that it does not skip are
faithful. -/
theorem pulses_own_iff (buf : BitVec 6 → BitVec 8) (i : Nat → ItchParserV2In) (n : Nat) :
    pulsed (started buf) i n ++ (run step (started buf) i n).pending =
      (framePulses (started buf) (cut closes (taken (started buf) i n)).1).flatten ∧
    (List.Forall₂ (fun p f => p.Sublist (due f))
        (framePulses (started buf) (cut closes (taken (started buf) i n)).1)
        (cut closes (taken (started buf) i n)).1 ↔
      AllFaithful false (cut closes (taken (started buf) i n)).1) := by
  have hstart : AtFrame false (started buf) := rfl
  constructor
  · rw [pulsed_pending, feed_cut hstart]
  · exact framePulses_sublist_iff hstart (whole_cut _)

/-- An add order of 36 bytes. -/
def addFrame : List ItchBeat :=
  [⟨0x0024410000000000, false⟩, ⟨0x0000000000010203, false⟩, ⟨0x0405060708420000, false⟩,
    ⟨0x00644141504C2020, false⟩, ⟨0x2020000186A00000, true⟩]

/-- A frame of one byte, the type of an add order. -/
def shortFrame : List ItchBeat := [⟨0x0001410000000000, true⟩]

/-- The add order in the cycles 0 to 4, the frame of one byte in cycle 6. -/
def addThenShort (n : Nat) : ItchParserV2In :=
  if h : n < 5 then ready (addFrame.get ⟨n, h⟩)
  else if n = 6 then ready ⟨0x0001410000000000, true⟩
  else ⟨0, false, false, false⟩

/-- The frame of one byte is given the order reference, side, shares, stock and price of
the add order before it. -/
theorem addThenShort_stale : (cut closes (taken reset addThenShort 9)).1 = [addFrame, shortFrame] ∧
    due shortFrame = [] ∧
    framePulses reset [addFrame, shortFrame] =
      [[⟨0x41, 0x0102030405060708, 0, 0x000186A0, 100, true, 0x4141504C20202020⟩],
        [⟨0x41, 0x0102030405060708, 0, 0x000186A0, 100, true, 0x4141504C20202020⟩]] ∧
    pulsed reset addThenShort 9 = (framePulses reset [addFrame, shortFrame]).flatten :=
  ⟨by decide +kernel, by decide +kernel, by decide +kernel, by decide +kernel⟩

end ItchParserV2

end Lliu
