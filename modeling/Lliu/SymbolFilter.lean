import Lliu.Pkg

/-!
# Lliu.SymbolFilter

`symbol_filter.sv`: the 64-entry watchlist.  A lookup passes the registered
stock, eight registered partial ORs and the registered match, so
`watchlist_hit` belongs to the stock presented three cycles before.
-/

namespace Lliu

/-- `SYM_FILTER_ENTRIES`. -/
abbrev symFilterEntries : Nat := 64

/-- `SYM_FILTER_IDX_W`. -/
abbrev symFilterIdxW : Nat := obSymIdW

/-- The inputs of `symbol_filter`. -/
structure SymbolFilterIn where
  stock : BitVec 64
  stockValid : Bool
  camWrIndex : BitVec (symFilterIdxW + 1)
  camWrData : BitVec 64
  camWrValid : Bool
  camWrEnBit : Bool

/-- The registers of `symbol_filter`. -/
structure SymbolFilter where
  camEntry : Fin symFilterEntries → BitVec 64
  camValid : Fin symFilterEntries → Bool
  stockQ : BitVec 64
  stockValidQ : Bool
  matchPartialR : Fin 8 → Bool
  stockValidQq : Bool
  lookupValidQ : Bool
  lookupMatchQ : Bool

namespace SymbolFilter

/-- The registers after reset. -/
def reset : SymbolFilter where
  camEntry := fun _ => 0
  camValid := fun _ => false
  stockQ := 0
  stockValidQ := false
  matchPartialR := fun _ => false
  stockValidQq := false
  lookupValidQ := false
  lookupMatchQ := false

/-- `match_vec`. -/
def matchVec (s : SymbolFilter) (k : Fin symFilterEntries) : Bool :=
  s.camValid k && s.stockQ == s.camEntry k

/-- Entry `j` of group `g`. -/
def groupEntry (g j : Fin 8) : Fin symFilterEntries := ⟨8 * g.val + j.val, show _ < 64 by omega⟩

/-- The OR over one group of eight entries. -/
def groupOr (s : SymbolFilter) (g : Fin 8) : Bool :=
  (List.finRange 8).any fun j => s.matchVec (groupEntry g j)

/-- `match_comb`. -/
def matchComb (s : SymbolFilter) : Bool := (List.finRange 8).any s.matchPartialR

/-- `watchlist_hit`. -/
def watchlistHit (s : SymbolFilter) : Bool := s.lookupValidQ && s.lookupMatchQ

/-- The write of entry `k`. -/
def camWrite (i : SymbolFilterIn) (k : Fin symFilterEntries) : Bool :=
  i.camWrValid && i.camWrIndex == BitVec.ofNat _ k.val

/-- One clock edge. -/
def step (s : SymbolFilter) (i : SymbolFilterIn) : SymbolFilter where
  camEntry := fun k => if camWrite i k then i.camWrData else s.camEntry k
  camValid := fun k => if camWrite i k then i.camWrEnBit else s.camValid k
  stockQ := i.stock
  stockValidQ := i.stockValid
  matchPartialR := s.groupOr
  stockValidQq := s.stockValidQ
  lookupValidQ := s.stockValidQq
  lookupMatchQ := s.matchComb

end SymbolFilter

end Lliu
