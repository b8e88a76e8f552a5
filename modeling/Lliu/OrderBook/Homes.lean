import Lliu.OrderBook.Found

/-!
# Lliu.OrderBook.Homes

Runs in which references do not collide.  If the references named by the
messages have distinct home slots, every live order sits in its home slot
(`Tidy`), no message but a replace by the same reference is unsafe, and an
operation other than an add finds exactly the live order it names.
-/

namespace Lliu

open Hdl

/-- No two references of `R` share a home slot. -/
def DistinctHomes (R : Set OrderRef) : Prop :=
  ∀ r ∈ R, ∀ r' ∈ R, refSlot r 0 = refSlot r' 0 → r = r'

/-- A message only names references of `R`. -/
def NamesIn (R : Set OrderRef) (m : BookMsg) : Prop :=
  m.orderRef ∈ R ∧ (bookOp m.msgType = some .replace → m.newOrderRef ∈ R)

/-- A message that names a live order carries the symbol of that order. -/
def OwnSymbol (L : Ledger) (m : BookMsg) : Prop :=
  ∀ o, L.find m.orderRef = some o → IsModify m → m.symId = o.symId

/-- No reference is entered while it is live. -/
def FreshRef (L : Ledger) (m : BookMsg) : Prop :=
  (bookOp m.msgType = some .add → L.find m.orderRef = none) ∧
  (bookOp m.msgType = some .replace → L.find m.orderRef ≠ none → L.find m.newOrderRef = none)

/-- A replace of a live order gives it another reference. -/
def ReplacesByOther (L : Ledger) (m : BookMsg) : Prop :=
  bookOp m.msgType = some .replace → L.find m.orderRef ≠ none → m.newOrderRef ≠ m.orderRef

theorem FreshRef.replacesByOther {L : Ledger} {m : BookMsg} (h : FreshRef L m) :
    ReplacesByOther L m := by
  intro hop hf he
  have hnew := h.2 hop hf
  rw [he] at hnew
  exact hf hnew

/-- A message stores only the references it names, and those in their home slots
when an add is resolved at its own. -/
theorem Book.keyAt_exec {b : Book} {m : BookMsg} {a : RefAddr} {k : OrderRef}
    (hres : bookOp m.msgType = some .add → b.resolve m = some 0)
    (hk : (b.exec m).keyAt a = some k) :
    b.keyAt a = some k ∨ (a = refSlot k 0 ∧
      (k = m.orderRef ∨ bookOp m.msgType = some .replace ∧ k = m.newOrderRef)) := by
  have hupdate : ∀ {f : RefAddr → RefEntry} {a' : RefAddr} {e : RefEntry},
      (Function.update f a' e a).key = some k → (f a).key = some k ∨ (a = a' ∧ e.key = some k) := by
    intro f a' e he
    by_cases ha : a = a'
    · rw [ha, Function.update_self] at he
      exact Or.inr ⟨ha, he⟩
    · rw [Function.update_of_ne ha] at he
      exact Or.inl he
  rw [Book.keyAt_eq] at hk ⊢
  by_cases hadd : bookOp m.msgType = some .add
  · rw [b.refMem_exec m (hres hadd) (absurd hadd), Book.refMemAfter_add hadd] at hk
    rcases hupdate hk with hkeep | ⟨ha, hnew⟩
    · exact Or.inl hkeep
    · obtain rfl := Option.some.inj hnew
      exact Or.inr ⟨ha, Or.inl rfl⟩
  cases hr : b.resolve m with
  | none =>
      rw [b.refMem_exec_of_dropped m hr] at hk
      exact Or.inl hk
  | some p =>
      obtain ⟨-, hhit, -⟩ := find_hit_iff.mp ((Book.resolve_modify_iff hadd).mp hr)
      rw [b.refMem_exec m hr fun _ => Book.entry_of_keyAt hhit] at hk
      cases hop : bookOp m.msgType with
      | none =>
          rw [Book.refMemAfter, hop] at hk
          exact Or.inl hk
      | some op =>
          cases op with
          | add => exact absurd hop hadd
          | cancel =>
              rw [Book.refMemAfter_cancel hop] at hk
              rcases hupdate hk with hkeep | ⟨rfl, hkeep⟩
              · exact Or.inl hkeep
              · exact Or.inl hkeep
          | delete =>
              rw [Book.refMemAfter_delete hop] at hk
              rcases hupdate hk with hkeep | ⟨-, hnone⟩
              · exact Or.inl hkeep
              · cases hnone
          | replace =>
              rw [Book.refMemAfter_replace hop] at hk
              rcases hupdate hk with hk | ⟨-, hnone⟩
              · rcases hupdate hk with hkeep | ⟨ha, hnew⟩
                · exact Or.inl hkeep
                · obtain rfl := Option.some.inj hnew
                  exact Or.inr ⟨ha, Or.inr ⟨rfl, rfl⟩⟩
              · cases hnone
          | execute =>
              rw [Book.refMemAfter_execute hop] at hk
              rcases hupdate hk with hkeep | ⟨rfl, hkeep⟩
              · exact Or.inl hkeep
              · split at hkeep
                · cases hkeep
                · exact Or.inl hkeep

/-- The table mirrors the live orders, and each sits in its home slot. -/
structure Tidy (R : Set OrderRef) (b : Book) (L : Ledger) : Prop extends Mirror b L where
  names : ∀ o ∈ L, o.orderRef ∈ R
  home : ∀ o ∈ L, b.keyAt (refSlot o.orderRef 0) = some o.orderRef

theorem tidy_zero (R : Set OrderRef) : Tidy R Book.zero Ledger.empty where
  toMirror := mirror_zero
  names _ ho := absurd ho Ledger.not_mem_empty
  home _ ho := absurd ho Ledger.not_mem_empty

namespace Tidy

variable {R : Set OrderRef} {b : Book} {L : Ledger} {m : BookMsg} {o : LiveOrder} {p : Nat}

/-- The home slot of a reference of `R` holds no other reference. -/
theorem homeFree (h : Tidy R b L) (hR : DistinctHomes R) {r : OrderRef} (hr : r ∈ R) :
    b.HomeFree r := by
  cases hk : b.keyAt (refSlot r 0) with
  | none => exact Or.inl hk
  | some k =>
      right
      obtain ⟨o, ho, rfl, -⟩ := h.mem_of_keyAt hk
      have hslot := h.findable.unique (h.home o ho) hk
      rw [hk, hR _ (h.names o ho) r hr hslot]

/-- An add is resolved at the home slot. -/
theorem resolve_add (h : Tidy R b L) (hR : DistinctHomes R) (hr : m.orderRef ∈ R)
    (hop : bookOp m.msgType = some .add) : b.resolve m = some 0 :=
  (Book.resolve_add_iff hop).mpr (h.homeFree hR hr).endsAt

/-- Any other operation is resolved at the home slot as well. -/
theorem step_eq_zero (h : Tidy R b L) (hres : Resolves b L m o p) : p = 0 := by
  have hhome := h.home o hres.mem
  rw [hres.orderRef] at hhome
  have hzero : b.lookup m.orderRef = .hit 0 := find_home (by decide) hhome
  exact (ProbeResult.hit.inj (hzero.symm.trans hres.lookup)).symm

/-- Every message that does not replace an order by itself is safe. -/
theorem safe (h : Tidy R b L) (hR : DistinctHomes R) (hn : NamesIn R m)
    (hne : ReplacesByOther L m) : Safe b m := by
  intro p hp
  obtain ⟨o, ho, hr, he⟩ := h.mem_of_lookup hp
  have hres : Resolves b L m o p := ⟨ho, hr, hp, he⟩
  obtain rfl := h.step_eq_zero hres
  have hv : b.SlotVacatable (refSlot m.orderRef 0) := by
    apply h.toMirror.slotVacatable hres
    intro o' ho' _ q j hq hj
    have hzero : b.lookup o'.orderRef = .hit 0 := find_home (by decide) (h.home o' ho')
    rw [hzero] at hq
    have := ProbeResult.hit.inj hq
    omega
  rw [SafeAt]
  cases hop : bookOp m.msgType with
  | none => trivial
  | some op =>
      cases op with
      | add | cancel => trivial
      | delete => exact hv
      | execute => exact fun _ => hv
      | replace =>
          refine ⟨fun hslot => ?_, h.homeFree hR (hn.2 hop), hv⟩
          exact hne hop (by simp [hres.find]) (hR _ (hn.2 hop) _ hn.1 hslot)

/-- Entering an order in its home slot. -/
theorem put {b' : Book} (h : Tidy R b L) (hR : DistinctHomes R) (ho : o.orderRef ∈ R)
    (ht : b'.refMem = Function.update b.refMem (refSlot o.orderRef 0) o.entry) :
    Tidy R b' (L.put o) where
  toMirror := h.toMirror.store (h.homeFree hR ho).endsAt ht
  names o' ho' := by
    rcases Ledger.mem_put.mp ho' with rfl | ⟨ho', -⟩
    · exact ho
    · exact h.names o' ho'
  home o' ho' := by
    rw [Book.keyAt_update ht]
    rcases Ledger.mem_put.mp ho' with rfl | ⟨ho', hr⟩
    · rw [Function.update_self, LiveOrder.key_entry]
    · rw [Function.update_of_ne fun he => hr (hR _ (h.names o' ho') _ ho he)]
      exact h.home o' ho'

/-- A message only stores references in their home slots. -/
theorem keyAt_exec (h : Tidy R b L) (hR : DistinctHomes R) (hn : NamesIn R m) {a : RefAddr}
    {k : OrderRef} (hk : (b.exec m).keyAt a = some k) :
    b.keyAt a = some k ∨ a = refSlot k 0 :=
  (Book.keyAt_exec (h.resolve_add hR hn.1) hk).imp_right And.left

/-- **Step lemma**: messages that name references of `R`, and replace none by
itself, keep the table tidy. -/
theorem step (h : Tidy R b L) (hR : DistinctHomes R) (hn : NamesIn R m)
    (hne : ReplacesByOther L m) : Tidy R (b.exec m) (L.step b m) := by
  have hmirror := h.toMirror.step (h.safe hR hn hne)
  have hnames : ∀ o ∈ L.step b m, o.orderRef ∈ R := by
    intro o ho
    rcases Ledger.orderRef_of_mem_step ho with ⟨o', ho', hr⟩ | hr | ⟨hop, hr⟩
    · rw [← hr]
      exact h.names o' ho'
    · rw [hr]
      exact hn.1
    · rw [hr]
      exact hn.2 hop
  refine ⟨hmirror, hnames, fun o ho => ?_⟩
  obtain ⟨p, hp, -⟩ := hmirror.lookup_of_mem ho
  obtain ⟨-, hstored, hbefore⟩ := find_hit_iff.mp hp
  cases p with
  | zero => exact hstored
  | succ p =>
      -- whatever blocks the home slot would have that slot as its home, too
      have hblocked := hbefore 0 (Nat.succ_pos p)
      obtain ⟨k, hk⟩ := Option.ne_none_iff_exists'.mp hblocked.1
      have hkR : k ∈ R ∧ refSlot k 0 = refSlot o.orderRef 0 := by
        obtain ⟨o', ho', hok, -⟩ := hmirror.mem_of_keyAt hk
        refine ⟨hok ▸ hnames o' ho', ?_⟩
        rcases h.keyAt_exec hR hn hk with hk' | hk'
        · rcases h.homeFree hR (hnames o ho) with hfree | hfree
          · rw [hfree] at hk'
            cases hk'
          · rw [hfree] at hk'
            rw [Option.some.inj hk']
        · exact hk'.symm
      have heq := hR k hkR.1 _ (hnames o ho) hkR.2
      rw [hk, heq] at hblocked
      exact absurd rfl hblocked.2

end Tidy

end Lliu
