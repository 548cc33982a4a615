import Mathlib.Data.List.Basic

/-! Names and name components as the forwarder orders and reads them: components by type,
value length, then bytes, and names component by component, a proper prefix first. Which
components are versions is the ndn-cxx naming convention, a parameter. -/

namespace MwNfd

/-- A name component: its TLV-TYPE and the bytes of its TLV-VALUE. -/
structure Component where
  type : Nat
  value : List UInt8
  deriving DecidableEq, Repr, Inhabited

abbrev Name := List Component

def memcmp : List UInt8 → List UInt8 → Ordering
  | a :: as, b :: bs => (compare a b).then (memcmp as bs)
  | _, _ => .eq

/-- `Component::compare`: by type, then by value length, then by the value bytes. -/
def Component.compare (a b : Component) : Ordering :=
  (Ord.compare a.type b.type).then
    ((Ord.compare a.value.length b.value.length).then (memcmp a.value b.value))

/-- `Name::compare`: the canonical order, component by component. -/
def Name.compare : Name → Name → Ordering
  | [], [] => .eq
  | [], _ :: _ => .lt
  | _ :: _, [] => .gt
  | a :: as, b :: bs => (a.compare b).then (Name.compare as bs)

def Name.lt (a b : Name) : Bool := Name.compare a b == .lt

def incrementBytes : List UInt8 → List UInt8 × Bool
  | [] => ([], true)
  | b :: bs =>
    if b = 255 then ((0 : UInt8) :: (incrementBytes bs).1, (incrementBytes bs).2)
    else ((b + 1) :: bs, false)

/-- `Component::getSuccessor` outside the digest types: the value plus one, or one byte
longer and all zero when every byte was 0xFF. -/
def Component.getSuccessor (c : Component) : Component :=
  if (incrementBytes c.value.reverse).2 then { c with value := List.replicate (c.value.length + 1) 0 }
  else { c with value := (incrementBytes c.value.reverse).1.reverse }

/-- `Name::getSuccessor`: the last component replaced by its successor; the empty name has
the all-zero implicit digest as successor. -/
def Name.getSuccessor (n : Name) : Name :=
  match n.getLast? with
  | some c => n.dropLast ++ [c.getSuccessor]
  | none => [⟨1, List.replicate 32 0⟩]

def readNonNegativeInteger (bytes : List UInt8) : Option Nat :=
  if bytes.length ∈ [1, 2, 4, 8] then some (bytes.foldl (fun n b => n * 256 + b.toNat) 0)
  else none

/-- How a naming convention recognises and reads a version component. -/
structure Convention where
  isVersion : Component → Bool
  toVersion : Component → Nat

/-- The convention ndn-cxx decodes by default: a version is a generic component holding
the marker 0xFD and a NonNegativeInteger, or a typed version component (TLV-TYPE 54). -/
def ndnCxx : Convention where
  isVersion c :=
    (c.type == 8 && c.value.head? == some 0xFD && (readNonNegativeInteger c.value.tail).isSome) ||
      (c.type == 54 && (readNonNegativeInteger c.value).isSome)
  toVersion c := ((readNonNegativeInteger (if c.type == 8 then c.value.tail else c.value)).getD 0)

def markerVersion (v : UInt8) : Component := ⟨8, [0xFD, v]⟩

@[simp] theorem ndnCxx_isVersion_markerVersion (v : UInt8) :
    ndnCxx.isVersion (markerVersion v) = true := by
  simp [ndnCxx,markerVersion,readNonNegativeInteger]

@[simp] theorem ndnCxx_toVersion_markerVersion (v : UInt8) :
    ndnCxx.toVersion (markerVersion v) = v.toNat := by
  simp [ndnCxx,markerVersion,readNonNegativeInteger]

end MwNfd
