import Mathlib.Algebra.Group.Nat.Basic
import Mathlib.Data.List.Basic

/-! TLV framing of a byte stream: `Framing` is what the transport relies on of `Block::fromBuffer`,
`ndnTlv` the NDN decoder, and `Framing.frames` splits a stream into its leading elements and
the rest. -/

namespace MwNfd

/-- What the stream transport relies on of `Block::fromBuffer`: the size of the element at the
front of the bytes, which is positive, lies within them, and is read from the element's own
bytes only. -/
structure Framing where
  fromBuffer : List UInt8 → Option Nat
  size_pos : ∀ {buf : List UInt8} {k : Nat}, fromBuffer buf = some k → 0 < k
  size_le : ∀ {buf : List UInt8} {k : Nat}, fromBuffer buf = some k → k ≤ buf.length
  take_append : ∀ {buf : List UInt8} {k : Nat} (rest : List UInt8),
    fromBuffer buf = some k → fromBuffer (buf.take k ++ rest) = some k

namespace Framing

variable (F : Framing)

def IsElement (e : List UInt8) : Prop := F.fromBuffer e = some e.length

instance (e : List UInt8) : Decidable (F.IsElement e) :=
  inferInstanceAs (Decidable (F.fromBuffer e = some e.length))

def framesAux : Nat → List UInt8 → List (List UInt8) × List UInt8
  | 0, s => ([], s)
  | fuel + 1, s =>
    match F.fromBuffer s with
    | some k => (s.take k :: (framesAux fuel (s.drop k)).1, (framesAux fuel (s.drop k)).2)
    | none => ([], s)

/-- The elements at the front of a stream and the bytes after them; every split takes at least
one byte, so the stream's length is fuel enough. -/
def frames (s : List UInt8) : List (List UInt8) × List UInt8 := F.framesAux s.length s

variable {F}

theorem fromBuffer_nil : F.fromBuffer [] = none := by
  cases h : F.fromBuffer [] with
  | none => rfl
  | some k => have := F.size_pos h; have := F.size_le h; simp at this; omega

theorem isElement_take {s : List UInt8} {k : Nat} (h : F.fromBuffer s = some k) :
    F.IsElement (s.take k) := by
  have hk := F.take_append [] h
  rw [List.append_nil] at hk
  rw [IsElement,hk,List.length_take,Nat.min_eq_left (F.size_le h)]

theorem fromBuffer_element_append {e : List UInt8} (he : F.IsElement e) (t : List UInt8) :
    F.fromBuffer (e ++ t) = some e.length := by
  simpa using F.take_append t he

theorem fromBuffer_of_prefix {e p : List UInt8} (he : F.IsElement e) (hp : p <+: e)
    (hlt : p.length < e.length) : F.fromBuffer p = none := by
  cases h : F.fromBuffer p with
  | none => rfl
  | some k =>
    exfalso
    have hk := F.size_le h
    obtain ⟨q,rfl⟩ := hp
    have hpk : p.take k ++ (p.drop k ++ q) = p ++ q := by rw [← List.append_assoc,List.take_append_drop]
    have := F.take_append (p.drop k ++ q) h
    rw [hpk,he,Option.some.injEq] at this
    omega

theorem framesAux_succ {fuel : Nat} {s : List UInt8} (h : s.length ≤ fuel) :
    F.framesAux (fuel + 1) s = F.framesAux fuel s := by
  induction fuel generalizing s with
  | zero => simp [List.length_eq_zero.mp (Nat.le_zero.mp h),framesAux,fromBuffer_nil]
  | succ fuel ih =>
    unfold framesAux
    split
    · rename_i k hk
      have := F.size_pos hk
      rw [ih (by simp; omega)]
    · rfl

theorem framesAux_eq_frames {fuel : Nat} {s : List UInt8} (h : s.length ≤ fuel) :
    F.framesAux fuel s = F.frames s := by
  induction fuel, h using Nat.le_induction with
  | base => rfl
  | succ fuel h ih => rw [framesAux_succ (by omega),ih]

theorem frames_of_none {s : List UInt8} (h : F.fromBuffer s = none) : F.frames s = ([],s) := by
  cases s with
  | nil => rfl
  | cons b s => simp [frames,framesAux,h]

theorem frames_of_some {s : List UInt8} {k : Nat} (h : F.fromBuffer s = some k) :
    F.frames s = (s.take k :: (F.frames (s.drop k)).1,(F.frames (s.drop k)).2) := by
  have hk := F.size_pos h
  obtain ⟨n,hn⟩ : ∃ n, s.length = n + 1 := ⟨s.length - 1,by have := F.size_le h; omega⟩
  rw [frames,hn,framesAux,h]
  dsimp only
  rw [framesAux_eq_frames (by simp; omega)]

@[simp] theorem frames_nil : F.frames [] = ([],[]) := frames_of_none fromBuffer_nil

/-- Induction along the framing of a stream: bytes that start no element, or an element
followed by a shorter stream. -/
theorem frames_induction {motive : List UInt8 → Prop}
    (stop : ∀ s, F.fromBuffer s = none → motive s)
    (next : ∀ s k, F.fromBuffer s = some k → motive (s.drop k) → motive s) (s : List UInt8) :
    motive s := by
  cases hs : F.fromBuffer s with
  | none => exact stop s hs
  | some k =>
    have := F.size_pos hs
    have := F.size_le hs
    exact next s k hs (frames_induction stop next (s.drop k))
termination_by s.length
decreasing_by simp; omega

theorem frames_element_append {e : List UInt8} (he : F.IsElement e) (t : List UInt8) :
    F.frames (e ++ t) = (e :: (F.frames t).1,(F.frames t).2) := by
  simp [frames_of_some (fromBuffer_element_append he t)]

theorem fromBuffer_frames_snd (s : List UInt8) : F.fromBuffer (F.frames s).2 = none := by
  induction s using frames_induction (F := F) with
  | stop s hs => rwa [frames_of_none hs]
  | next s k hs ih => rwa [frames_of_some hs]

theorem isElement_of_mem_frames {s e : List UInt8} (he : e ∈ (F.frames s).1) : F.IsElement e := by
  induction s using frames_induction (F := F) with
  | stop s hs => simp [frames_of_none hs] at he
  | next s k hs ih =>
    rw [frames_of_some hs,List.mem_cons] at he
    rcases he with rfl | he
    · exact isElement_take hs
    · exact ih he

theorem frames_flatten (s : List UInt8) : (F.frames s).1.flatten ++ (F.frames s).2 = s := by
  induction s using frames_induction (F := F) with
  | stop s hs => simp [frames_of_none hs]
  | next s k hs ih =>
    rw [frames_of_some hs]
    simp only [List.flatten_cons,List.append_assoc]
    rw [ih,List.take_append_drop]

/-- Framing is the same whether the stream comes at once or in two pieces: the second piece
continues the bytes the first one left. -/
theorem frames_append (s t : List UInt8) :
    F.frames (s ++ t) =
      ((F.frames s).1 ++ (F.frames ((F.frames s).2 ++ t)).1,(F.frames ((F.frames s).2 ++ t)).2) := by
  induction s using frames_induction (F := F) with
  | stop s hs => simp [frames_of_none hs]
  | next s k hs ih =>
    have hst : s ++ t = s.take k ++ (s.drop k ++ t) := by rw [← List.append_assoc,List.take_append_drop]
    rw [hst,frames_element_append (isElement_take hs),frames_of_some hs,ih]
    simp

theorem frames_snd_length_le (s : List UInt8) : (F.frames s).2.length ≤ s.length := by
  conv => rhs; rw [← frames_flatten (F := F) s]
  simp

theorem frames_snd_length_lt {s : List UInt8} {k : Nat} (h : F.fromBuffer s = some k) :
    (F.frames s).2.length < s.length := by
  have hk := F.size_pos h
  have hflat := congrArg List.length (frames_flatten (F := F) s)
  rw [frames_of_some h] at hflat ⊢
  simp only [List.flatten_cons,List.length_append,List.length_take] at hflat ⊢
  have := Nat.min_eq_left (F.size_le h)
  omega

theorem frames_elements {es : List (List UInt8)} (hes : ∀ e ∈ es, F.IsElement e)
    {r : List UInt8} (hr : F.fromBuffer r = none) : F.frames (es.flatten ++ r) = (es,r) := by
  induction es with
  | nil => simpa using frames_of_none hr
  | cons e es ih =>
    rw [List.flatten_cons,List.append_assoc,frames_element_append (hes e (by simp)),
      ih fun e he => hes e (by simp [he])]

/-- A prefix of a stream of elements followed by bytes no prefix of which is an element frames
as the elements wholly in it, followed by a proper prefix of the next element or by a prefix of
the trailing bytes. -/
theorem frames_prefix {es : List (List UInt8)} (hes : ∀ e ∈ es, F.IsElement e) {u : List UInt8}
    (hu : ∀ j, F.fromBuffer (u.take j) = none) {P : List UInt8} (hP : P <+: es.flatten ++ u) :
    ∃ es₁ es₂, es = es₁ ++ es₂ ∧ (F.frames P).1 = es₁ ∧
      ((∃ e ∈ es₂, (F.frames P).2.length < e.length) ∨ (es₂ = [] ∧ (F.frames P).2 <+: u)) := by
  induction es generalizing P with
  | nil =>
    have hnone : F.fromBuffer P = none := by
      rw [List.prefix_iff_eq_take.mp (show P <+: u by simpa using hP)]
      exact hu _
    exact ⟨[],[],rfl,by rw [frames_of_none hnone],.inr ⟨rfl,by simpa [frames_of_none hnone] using hP⟩⟩
  | cons e es ih =>
    have he := hes e (List.mem_cons_self _ _)
    rw [List.flatten_cons,List.append_assoc] at hP
    by_cases hlt : P.length < e.length
    · have hnone := fromBuffer_of_prefix he
        (List.prefix_of_prefix_length_le hP (List.prefix_append _ _) hlt.le) hlt
      refine ⟨[],e :: es,rfl,by rw [frames_of_none hnone],
        .inl ⟨e,List.mem_cons_self _ _,by rwa [frames_of_none hnone]⟩⟩
    · obtain ⟨P',rfl⟩ := List.prefix_of_prefix_length_le (List.prefix_append _ _) hP (by omega)
      obtain ⟨es₁,es₂,rfl,h₁,h₂⟩ :=
        ih (fun x hx => hes x (List.mem_cons_of_mem _ hx)) ((List.prefix_append_right_inj e).mp hP)
      refine ⟨e :: es₁,es₂,rfl,?_,?_⟩ <;> rw [frames_element_append he]
      · rw [h₁]
      · exact h₂

/-- For elements of at most `size` bytes followed by at most `size` bytes no prefix of which is
an element, a prefix of the stream leaves at most `size` bytes after its elements, which are
leading elements of the stream; exactly `size` only when it is the whole stream. -/
theorem frames_prefix_remainder {size : Nat} {es : List (List UInt8)}
    (hes : ∀ e ∈ es, F.IsElement e ∧ e.length ≤ size) {u : List UInt8}
    (hu : ∀ j, F.fromBuffer (u.take j) = none) (hsize : u.length ≤ size) {P : List UInt8}
    (hP : P <+: es.flatten ++ u) :
    (F.frames P).1 <+: es ∧ (F.frames P).2.length ≤ size ∧
      ((F.frames P).2.length = size → P = es.flatten ++ u) := by
  obtain ⟨es₁,es₂,rfl,h₁,h₂⟩ := frames_prefix (fun e he => (hes e he).1) hu hP
  refine ⟨h₁ ▸ List.prefix_append _ _,?_⟩
  rcases h₂ with ⟨e,he,hlt⟩ | ⟨rfl,hpre⟩
  · have := (hes e (List.mem_append_right _ he)).2
    exact ⟨by omega,by omega⟩
  · have hle := hpre.length_le
    refine ⟨by omega,fun hlen => ?_⟩
    have hrem : (F.frames P).2 = u := hpre.eq_of_length (by omega)
    rw [← frames_flatten (F := F) P,h₁,hrem,List.append_nil]

end Framing

namespace Tlv

def readBigEndian (bytes : List UInt8) : Nat := bytes.foldl (fun n b => n * 256 + b.toNat) 0

/-- Modelled from the spec: `tlv::readVarNumber`, the VAR-NUMBER at the front of the bytes and
how many bytes it takes: the first byte below 253, or 2, 4 or 8 more bytes after it. -/
def readVarNumber : List UInt8 → Option (Nat × Nat)
  | [] => none
  | b :: rest =>
    if b.toNat < 253 then some (b.toNat,1)
    else
      let size := if b.toNat = 253 then 2 else if b.toNat = 254 then 4 else 8
      if size ≤ rest.length then some (readBigEndian (rest.take size),size + 1) else none

/-- Modelled from the spec: `Block::fromBuffer`, the size of the TLV element at the front; the
type must be a non-zero 32-bit number (`tlv::readType`), and the value must be all there. -/
def fromBuffer (buf : List UInt8) : Option Nat :=
  match readVarNumber buf with
  | none => none
  | some (type,n₁) =>
    if type = 0 ∨ 2 ^ 32 ≤ type then none
    else
      match readVarNumber (buf.drop n₁) with
      | none => none
      | some (length,n₂) =>
        if n₁ + n₂ + length ≤ buf.length then some (n₁ + n₂ + length) else none

/-- A VAR-NUMBER takes at least one byte, lies within the bytes, and only its own bytes
decide it. -/
theorem readVarNumber_spec {l : List UInt8} {v n : Nat} (h : readVarNumber l = some (v,n)) :
    0 < n ∧ n ≤ l.length ∧ ∀ l' : List UInt8, l'.take n = l.take n → readVarNumber l' = some (v,n) := by
  match l with
  | b :: rest =>
    simp only [readVarNumber] at h
    by_cases hb : b.toNat < 253
    · rw [if_pos hb] at h
      cases h
      refine ⟨Nat.one_pos,by simp,fun l' hl' => ?_⟩
      match l', hl' with
      | b' :: rest', hl' => simp_all [readVarNumber]
    · rw [if_neg hb] at h
      generalize hs : (if b.toNat = 253 then 2 else if b.toNat = 254 then 4 else 8) = size at h
      split_ifs at h with hsize
      cases h
      refine ⟨by omega,by simp; omega,fun l' hl' => ?_⟩
      match l', hl' with
      | b' :: rest', hl' =>
        simp only [List.take_succ_cons,List.cons.injEq] at hl'
        obtain ⟨rfl,hrest⟩ := hl'
        have := congrArg List.length hrest
        simp only [List.length_take] at this
        simp only [readVarNumber,hb,if_false,hs,hrest]
        rw [if_pos (by omega)]

theorem fromBuffer_eq_some {buf : List UInt8} {k : Nat} :
    fromBuffer buf = some k ↔ ∃ type n₁ length n₂, readVarNumber buf = some (type,n₁) ∧
      ¬(type = 0 ∨ 2 ^ 32 ≤ type) ∧ readVarNumber (buf.drop n₁) = some (length,n₂) ∧
      k = n₁ + n₂ + length ∧ k ≤ buf.length := by
  unfold fromBuffer
  constructor
  · intro h
    split at h
    · cases h
    · rename_i type n₁ h₁
      split_ifs at h with ht
      split at h
      · cases h
      · rename_i length n₂ h₂
        split_ifs at h with hk
        cases h
        exact ⟨type,n₁,length,n₂,h₁,ht,h₂,rfl,hk⟩
  · rintro ⟨type,n₁,length,n₂,h₁,ht,h₂,rfl,hk⟩
    simp only [h₁,if_neg ht,h₂,if_pos hk]

theorem fromBuffer_size_pos {buf : List UInt8} {k : Nat} (h : fromBuffer buf = some k) : 0 < k := by
  obtain ⟨_,_,_,_,h₁,-,-,rfl,-⟩ := fromBuffer_eq_some.mp h
  have := (readVarNumber_spec h₁).1
  omega

theorem fromBuffer_size_le {buf : List UInt8} {k : Nat} (h : fromBuffer buf = some k) :
    k ≤ buf.length :=
  (fromBuffer_eq_some.mp h).choose_spec.choose_spec.choose_spec.choose_spec.2.2.2.2

theorem fromBuffer_take_append {buf : List UInt8} {k : Nat} (rest : List UInt8)
    (h : fromBuffer buf = some k) : fromBuffer (buf.take k ++ rest) = some k := by
  obtain ⟨type,n₁,length,n₂,h₁,ht,h₂,rfl,hk⟩ := fromBuffer_eq_some.mp h
  obtain ⟨-,hn₁,e₁⟩ := readVarNumber_spec h₁
  obtain ⟨-,hn₂,e₂⟩ := readVarNumber_spec h₂
  simp only [List.length_drop] at hn₂
  refine fromBuffer_eq_some.mpr ⟨type,n₁,length,n₂,e₁ _ ?_,ht,e₂ _ ?_,rfl,by simp; omega⟩
  · rw [List.take_append_of_le_length (by simp; omega),List.take_take,Nat.min_eq_left (by omega)]
  · rw [List.drop_append_of_le_length (by simp; omega),
      List.take_append_of_le_length (by simp; omega),List.drop_take,List.take_take,
      Nat.min_eq_left (by omega)]

end Tlv

/-- The NDN TLV decoder as the transport's framing. -/
def ndnTlv : Framing where
  fromBuffer := Tlv.fromBuffer
  size_pos := Tlv.fromBuffer_size_pos
  size_le := Tlv.fromBuffer_size_le
  take_append := Tlv.fromBuffer_take_append

end MwNfd
