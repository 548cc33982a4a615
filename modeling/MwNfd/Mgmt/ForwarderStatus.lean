import Mathlib.Algebra.Order.Ring.Nat
import Mathlib.Data.String.Basic

/-! The general status dataset of `ForwarderStatusRemoteManager` in the MW-NFD build: the
counts of the main forwarder and the workers, added in `size_t`, so each published count is
its exact total modulo 2^64. -/

namespace MwNfd
namespace ForwarderStatusRemoteManager

structure ForwarderCounters where
  nInInterests : UInt64
  nOutInterests : UInt64
  nInData : UInt64
  nOutData : UInt64
  nInNacks : UInt64
  nOutNacks : UInt64
  nSatisfiedInterests : UInt64
  nUnsatisfiedInterests : UInt64
  nCsHits : UInt64
  nCsMisses : UInt64
  deriving DecidableEq, Repr

/-- What the status reads of one forwarder, the main one (`m_forwarder`) or a worker
(`getMwNfd(i)`): its table sizes, its content store's limit, and its counters. -/
structure ForwarderInfo where
  nameTreeSize : UInt64
  fibSize : UInt64
  pitSize : UInt64
  measurementsSize : UInt64
  csSize : UInt64
  csLimit : UInt64
  counters : ForwarderCounters
  deriving DecidableEq, Repr

/-- The counts `collectGeneralStatus` sets on `ndn::nfd::ForwarderStatus`. -/
structure ForwarderStatus where
  nNameTreeEntries : UInt64 := 0
  nFibEntries : UInt64 := 0
  nPitEntries : UInt64 := 0
  nMeasurementsEntries : UInt64 := 0
  nCsEntries : UInt64 := 0
  nInInterests : UInt64 := 0
  nOutInterests : UInt64 := 0
  nInData : UInt64 := 0
  nOutData : UInt64 := 0
  nInNacks : UInt64 := 0
  nOutNacks : UInt64 := 0
  nSatisfiedInterests : UInt64 := 0
  nUnsatisfiedInterests : UInt64 := 0
  deriving DecidableEq, Repr

def addForwarder (s : ForwarderStatus) (f : ForwarderInfo) : ForwarderStatus where
  nNameTreeEntries := s.nNameTreeEntries + f.nameTreeSize
  nFibEntries := s.nFibEntries + f.fibSize
  nPitEntries := s.nPitEntries + f.pitSize
  nMeasurementsEntries := s.nMeasurementsEntries + f.measurementsSize
  nCsEntries := s.nCsEntries + f.csSize
  nInInterests := s.nInInterests + f.counters.nInInterests
  nOutInterests := s.nOutInterests + f.counters.nOutInterests
  nInData := s.nInData + f.counters.nInData
  nOutData := s.nOutData + f.counters.nOutData
  nInNacks := s.nInNacks + f.counters.nInNacks
  nOutNacks := s.nOutNacks + f.counters.nOutNacks
  nSatisfiedInterests := s.nSatisfiedInterests + f.counters.nSatisfiedInterests
  nUnsatisfiedInterests := s.nUnsatisfiedInterests + f.counters.nUnsatisfiedInterests

/-- `ForwarderStatusRemoteManager::collectGeneralStatus` in the MW-NFD build (without
`ETRI_NFD_ORG_ARCH`): the `size_t` accumulators start at 0, except `nFib`, which starts at the
main FIB's size; the main forwarder's additions come first, then each worker's. -/
def collectGeneralStatus (main : ForwarderInfo) (workers : List ForwarderInfo) : ForwarderStatus :=
  workers.foldl addForwarder (addForwarder { nFibEntries := main.fibSize } main)

/-- The entries `formatCsJson` puts under `nfdStatus.cs`: the workers' figures summed in
`size_t`, and the main content store's entries added after the loop. (With no workers the
source takes a branch that holds only comments, which is the loop run zero times.) -/
def formatCsJson (main : ForwarderInfo) (workers : List ForwarderInfo) :
    String × List (String × UInt64) :=
  let (nCapa, nEntries, nHits, nMisses) := workers.foldl
    (fun (acc : UInt64 × UInt64 × UInt64 × UInt64) w =>
      (acc.1 + w.csLimit, acc.2.1 + w.csSize, acc.2.2.1 + w.counters.nCsHits,
        acc.2.2.2 + w.counters.nCsMisses))
    (0,0,0,0)
  ("nfdStatus.cs",
    [("capacity",nCapa),("nEntries",nEntries + main.csSize),("nHits",nHits),("nMisses",nMisses)])

/-! ### The counts by name -/

inductive Count
  | nameTreeEntries | fibEntries | pitEntries | measurementsEntries | csEntries
  | inInterests | outInterests | inData | outData | inNacks | outNacks
  | satisfiedInterests | unsatisfiedInterests
  deriving DecidableEq, Repr

def ForwarderStatus.get (s : ForwarderStatus) : Count → UInt64
  | .nameTreeEntries => s.nNameTreeEntries
  | .fibEntries => s.nFibEntries
  | .pitEntries => s.nPitEntries
  | .measurementsEntries => s.nMeasurementsEntries
  | .csEntries => s.nCsEntries
  | .inInterests => s.nInInterests
  | .outInterests => s.nOutInterests
  | .inData => s.nInData
  | .outData => s.nOutData
  | .inNacks => s.nInNacks
  | .outNacks => s.nOutNacks
  | .satisfiedInterests => s.nSatisfiedInterests
  | .unsatisfiedInterests => s.nUnsatisfiedInterests

def ForwarderInfo.get (f : ForwarderInfo) : Count → UInt64
  | .nameTreeEntries => f.nameTreeSize
  | .fibEntries => f.fibSize
  | .pitEntries => f.pitSize
  | .measurementsEntries => f.measurementsSize
  | .csEntries => f.csSize
  | .inInterests => f.counters.nInInterests
  | .outInterests => f.counters.nOutInterests
  | .inData => f.counters.nInData
  | .outData => f.counters.nOutData
  | .inNacks => f.counters.nInNacks
  | .outNacks => f.counters.nOutNacks
  | .satisfiedInterests => f.counters.nSatisfiedInterests
  | .unsatisfiedInterests => f.counters.nUnsatisfiedInterests

@[simp] theorem addForwarder_get (s : ForwarderStatus) (f : ForwarderInfo) (k : Count) :
    (addForwarder s f).get k = s.get k + f.get k := by
  cases k <;> rfl

theorem get_fibEntries_start (v : UInt64) (k : Count) :
    ({ nFibEntries := v } : ForwarderStatus).get k = if k = .fibEntries then v else 0 := by
  cases k <;> rfl

theorem toNat_add_pow (x y : UInt64) : (x + y).toNat = (x.toNat + y.toNat) % 2 ^ 64 :=
  UInt64.toNat_add x y

/-- A running `UInt64` total wraps the exact total of what it adds modulo 2^64. -/
theorem foldl_add_toNat {α : Type} (g : α → UInt64) (a : UInt64) (l : List α) :
    (l.foldl (fun s x => s + g x) a).toNat = (a.toNat + (l.map fun x => (g x).toNat).sum) % 2 ^ 64 := by
  induction l generalizing a with
  | nil => exact (Nat.mod_eq_of_lt a.toNat_lt_size).symm
  | cons x l ih =>
    rw [List.foldl_cons,ih,toNat_add_pow,List.map_cons,List.sum_cons,Nat.mod_add_mod,
      Nat.add_assoc]

theorem foldl_addForwarder_get (s : ForwarderStatus) (workers : List ForwarderInfo) (k : Count) :
    (workers.foldl addForwarder s).get k = workers.foldl (fun a f => a + f.get k) (s.get k) := by
  induction workers generalizing s with
  | nil => rfl
  | cons w workers ih => rw [List.foldl_cons,ih,addForwarder_get,List.foldl_cons]

theorem foldl_csFigures (acc : UInt64 × UInt64 × UInt64 × UInt64) (workers : List ForwarderInfo) :
    workers.foldl
        (fun (acc : UInt64 × UInt64 × UInt64 × UInt64) w =>
          (acc.1 + w.csLimit, acc.2.1 + w.csSize, acc.2.2.1 + w.counters.nCsHits,
            acc.2.2.2 + w.counters.nCsMisses)) acc =
      (workers.foldl (fun a w => a + w.csLimit) acc.1, workers.foldl (fun a w => a + w.csSize) acc.2.1,
        workers.foldl (fun a w => a + w.counters.nCsHits) acc.2.2.1,
        workers.foldl (fun a w => a + w.counters.nCsMisses) acc.2.2.2) := by
  induction workers generalizing acc with
  | nil => rfl
  | cons w workers ih => rw [List.foldl_cons,ih]; rfl

/-- The published counts, each the exact total modulo 2^64 of the source's `size_t`
arithmetic. Every count of the general status totals its figure over the main forwarder and
the workers, and the FIB count holds the main forwarder's FIB twice, since `nFib` starts at
that size. Of the content store figures, the capacity, hits and misses are the workers'
alone, while the entry count also includes the main content store. -/
theorem status_counts (main : ForwarderInfo) (workers : List ForwarderInfo) :
    (∀ k, ((collectGeneralStatus main workers).get k).toNat =
        ((if k = .fibEntries then main.fibSize.toNat else 0) +
          ((main :: workers).map fun f => (f.get k).toNat).sum) % 2 ^ 64) ∧
      (formatCsJson main workers).1 = "nfdStatus.cs" ∧
      (formatCsJson main workers).2.map (fun e => (e.1, e.2.toNat)) =
        [("capacity",(workers.map (·.csLimit.toNat)).sum % 2 ^ 64),
          ("nEntries",((main :: workers).map (·.csSize.toNat)).sum % 2 ^ 64),
          ("nHits",(workers.map (·.counters.nCsHits.toNat)).sum % 2 ^ 64),
          ("nMisses",(workers.map (·.counters.nCsMisses.toNat)).sum % 2 ^ 64)] := by
  refine ⟨fun k => ?_,rfl,?_⟩
  · have hstart : (({ nFibEntries := main.fibSize } : ForwarderStatus).get k).toNat =
        if k = .fibEntries then main.fibSize.toNat else 0 := by
      rw [get_fibEntries_start]; split <;> rfl
    rw [collectGeneralStatus,← List.foldl_cons,foldl_addForwarder_get,foldl_add_toNat,hstart]
  · simp only [formatCsJson,foldl_csFigures,List.map_cons,List.map_nil,foldl_add_toNat,
      toNat_add_pow,UInt64.toNat_zero,Nat.zero_add,List.sum_cons,Nat.mod_add_mod,
      Nat.add_comm main.csSize.toNat]

end ForwarderStatusRemoteManager
end MwNfd
