import MwNfd.Name
import Mathlib.Data.List.Nodup

/-! Faces, packets and the PIT entry as the strategy actions see them. An in-record holds the
downstream's Interest by address, so a tag set on that object is seen through the record. -/

namespace MwNfd

inductive LinkType
  | pointToPoint | multiAccess | adHoc
  deriving DecidableEq, Repr

structure Face where
  id : Nat
  linkType : LinkType
  deriving DecidableEq, Repr

structure PitToken where
  bytes : List UInt8
  deriving DecidableEq, Repr

structure Delegation where
  preference : Nat
  name : Name
  deriving DecidableEq, Repr

/-- An Interest with the fields the strategy layer reads, and its `PitToken` tag, which a
`const Interest&` still lets the strategy set. -/
structure Interest where
  name : Name
  canBePrefix : Bool
  forwardingHint : List Delegation
  pitToken : Option PitToken
  deriving DecidableEq, Repr

structure Data where
  name : Name
  pitToken : Option PitToken
  deriving DecidableEq, Repr

inductive NackReason
  | none | congestion | duplicate | noRoute
  deriving DecidableEq, Repr

structure NackHeader where
  reason : NackReason
  deriving DecidableEq, Repr

/-- `pit::InRecord`: the downstream face, the address of the Interest it sent, and the
expiry time. -/
structure InRecord where
  face : Face
  interest : Nat
  expiry : Nat
  deriving DecidableEq, Repr

/-- `pit::Entry` with what the strategy actions read: the Interest, the worker stamped at
creation, the hash of its name tree node, and the in-records, at most one per face. -/
structure Entry where
  interest : Interest
  workerId : Nat
  nameTreeHash : Nat
  inRecords : List InRecord
  inRecords_nodup : (inRecords.map InRecord.face).Nodup

namespace Entry

def getInRecord (e : Entry) (face : Face) : Option InRecord :=
  e.inRecords.find? (fun r => r.face = face)

def deleteInRecord (e : Entry) (face : Face) : Entry :=
  { e with
    inRecords := e.inRecords.filter (fun r => r.face ≠ face)
    inRecords_nodup := e.inRecords_nodup.sublist ((List.filter_sublist _).map _) }

@[simp] theorem deleteInRecord_interest (e : Entry) (face : Face) :
    (e.deleteInRecord face).interest = e.interest := rfl

@[simp] theorem deleteInRecord_inRecords (e : Entry) (face : Face) :
    (e.deleteInRecord face).inRecords = e.inRecords.filter (fun r => r.face ≠ face) := rfl

theorem getInRecord_eq_some_iff {e : Entry} {face : Face} {r : InRecord} :
    e.getInRecord face = some r ↔ r ∈ e.inRecords ∧ r.face = face := by
  constructor
  · intro h
    exact ⟨List.mem_of_find?_eq_some h,by simpa using List.find?_some h⟩
  · rintro ⟨hr,rfl⟩
    obtain ⟨r',hr'⟩ := Option.isSome_iff_exists.mp
      (List.find?_isSome.mpr ⟨r,hr,by simp⟩ : (e.getInRecord r.face).isSome)
    have hmem := List.mem_of_find?_eq_some hr'
    have hface : r'.face = r.face := by simpa using List.find?_some hr'
    rw [getInRecord,hr',List.inj_on_of_nodup_map e.inRecords_nodup hmem hr hface]

@[simp] theorem getInRecord_deleteInRecord (e : Entry) {face face' : Face} (h : face ≠ face') :
    (e.deleteInRecord face').getInRecord face = e.getInRecord face := by
  simp only [getInRecord,deleteInRecord_inRecords]
  rw [List.find?_filter]
  congr 1
  funext r
  by_cases hr : r.face = face <;> simp [hr,h]

end Entry

end MwNfd
