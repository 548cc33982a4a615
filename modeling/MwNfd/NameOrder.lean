import MwNfd.Name
import Mathlib.Tactic.Ring

/-! The canonical name order read as numbers: value bytes of one length compare as the big-endian
number they spell, and `getSuccessor` adds one to it. The successor of a name is the bound
`Strategy::find` searches under. -/

namespace MwNfd

def valueLE : List UInt8 → Nat
  | [] => 0
  | b :: bs => b.toNat + 256 * valueLE bs

def valueBE (bs : List UInt8) : Nat := valueLE bs.reverse

theorem valueLE_lt (bs : List UInt8) : valueLE bs < 256 ^ bs.length := by
  induction bs with
  | nil => simp [valueLE]
  | cons b bs ih =>
    have hb : b.toNat < 256 := b.toNat_lt_size
    rw [valueLE,List.length_cons,pow_succ]
    omega

theorem valueLE_injective {as bs : List UInt8} (hl : as.length = bs.length)
    (h : valueLE as = valueLE bs) : as = bs := by
  induction as generalizing bs with
  | nil => cases bs with
    | nil => rfl
    | cons => simp at hl
  | cons a as ih => cases bs with
    | nil => simp at hl
    | cons b bs =>
      have ha : a.toNat < 256 := a.toNat_lt_size
      have hb : b.toNat < 256 := b.toNat_lt_size
      simp only [valueLE] at h
      rw [UInt8.toNat.inj (show a.toNat = b.toNat by omega),ih (by simpa using hl) (by omega)]

theorem valueLE_append_singleton (l : List UInt8) (a : UInt8) :
    valueLE (l ++ [a]) = valueLE l + 256 ^ l.length * a.toNat := by
  induction l with
  | nil => simp [valueLE]
  | cons b l ih =>
    show b.toNat + 256 * valueLE (l ++ [a]) = b.toNat + 256 * valueLE l + 256 ^ (l.length + 1) * a.toNat
    rw [ih,pow_succ]
    ring

@[simp] theorem valueLE_replicate_zero (n : Nat) : valueLE (List.replicate n 0) = 0 := by
  induction n with
  | zero => rfl
  | succ n ih => simp [List.replicate_succ,valueLE,ih]

theorem valueBE_cons (a : UInt8) (as : List UInt8) :
    valueBE (a :: as) = valueBE as + 256 ^ as.length * a.toNat := by
  rw [valueBE,List.reverse_cons,valueLE_append_singleton,List.length_reverse]
  rfl

theorem valueBE_lt (bs : List UInt8) : valueBE bs < 256 ^ bs.length := by
  simpa [valueBE] using valueLE_lt bs.reverse

theorem valueBE_injective {as bs : List UInt8} (hl : as.length = bs.length)
    (h : valueBE as = valueBE bs) : as = bs :=
  List.reverse_injective (valueLE_injective (by simpa using hl) h)

theorem compare_add_mul {x y P a b : Nat} (hx : x < P) (hy : y < P) :
    compare (x + P * a) (y + P * b) = (compare a b).then (compare x y) := by
  rcases Nat.lt_trichotomy a b with h | rfl | h
  · have : x + P * a < y + P * b := calc
      x + P * a < P * (a + 1) := by rw [Nat.mul_add_one]; omega
      _ ≤ P * b := Nat.mul_le_mul_left P h
      _ ≤ y + P * b := Nat.le_add_left _ _
    rw [Nat.compare_eq_lt.mpr this,Nat.compare_eq_lt.mpr h]
    rfl
  · rw [Nat.compare_eq_eq.mpr rfl]
    rcases Nat.lt_trichotomy x y with h | rfl | h
    · rw [Nat.compare_eq_lt.mpr h,Nat.compare_eq_lt.mpr (by omega)]
      rfl
    · rw [Nat.compare_eq_eq.mpr (rfl : x + P * a = x + P * a),Nat.compare_eq_eq.mpr (rfl : x = x)]
      rfl
    · rw [Nat.compare_eq_gt.mpr h,Nat.compare_eq_gt.mpr (by omega)]
      rfl
  · have : y + P * b < x + P * a := calc
      y + P * b < P * (b + 1) := by rw [Nat.mul_add_one]; omega
      _ ≤ P * a := Nat.mul_le_mul_left P h
      _ ≤ x + P * a := Nat.le_add_left _ _
    rw [Nat.compare_eq_gt.mpr this,Nat.compare_eq_gt.mpr h]
    rfl

theorem compare_toNat (a b : UInt8) : compare a b = compare a.toNat b.toNat := by
  have hlt : a < b ↔ a.toNat < b.toNat := Iff.rfl
  have heq : a = b ↔ a.toNat = b.toNat := ⟨congrArg _,UInt8.toNat.inj⟩
  show compareOfLessAndEq a b = compareOfLessAndEq a.toNat b.toNat
  simp only [compareOfLessAndEq,hlt,heq]

/-- `memcmp` over two byte strings of one length compares the numbers they spell. -/
theorem memcmp_eq_compare {as bs : List UInt8} (h : as.length = bs.length) :
    memcmp as bs = compare (valueBE as) (valueBE bs) := by
  induction as generalizing bs with
  | nil => cases bs with
    | nil => rfl
    | cons => simp at h
  | cons a as ih => cases bs with
    | nil => simp at h
    | cons b bs =>
      have hl : as.length = bs.length := by simpa using h
      have h₁ := valueBE_lt as
      have h₂ := valueBE_lt bs
      rw [hl] at h₁
      rw [memcmp,ih hl,valueBE_cons,valueBE_cons,hl,compare_add_mul h₁ h₂,compare_toNat]

theorem incrementBytes_length (bs : List UInt8) : (incrementBytes bs).1.length = bs.length := by
  induction bs with
  | nil => rfl
  | cons b bs ih =>
    unfold incrementBytes
    split_ifs <;> simp [ih]

theorem valueLE_incrementBytes {bs : List UInt8} (h : (incrementBytes bs).2 = false) :
    valueLE (incrementBytes bs).1 = valueLE bs + 1 := by
  induction bs with
  | nil => simp [incrementBytes] at h
  | cons b bs ih =>
    unfold incrementBytes at h ⊢
    split_ifs at h ⊢ with hb
    · subst hb
      show 0 + 256 * valueLE (incrementBytes bs).1 = 255 + 256 * valueLE bs + 1
      rw [ih h]
      omega
    · have hn : b.toNat ≠ 255 := fun h' => hb (UInt8.toNat.inj h')
      have hlt : b.toNat < 256 := b.toNat_lt_size
      have h1 : (b + 1).toNat = b.toNat + 1 := by
        show (b.toNat + 1) % 256 = _
        omega
      simp only [valueLE,h1]
      omega

theorem valueLE_incrementBytes_of_carry {bs : List UInt8} (h : (incrementBytes bs).2 = true) :
    valueLE bs + 1 = 256 ^ bs.length := by
  induction bs with
  | nil => rfl
  | cons b bs ih =>
    unfold incrementBytes at h
    split_ifs at h with hb
    · subst hb
      simp only [valueLE,List.length_cons,pow_succ,← ih h]
      show 255 + 256 * valueLE bs + 1 = (valueLE bs + 1) * 256
      ring

namespace Component

theorem compare_eq (c d : Component) : c.compare d =
    (Ord.compare c.type d.type).then ((Ord.compare c.value.length d.value.length).then
      (Ord.compare (valueBE c.value) (valueBE d.value))) := by
  unfold Component.compare
  by_cases hl : c.value.length = d.value.length
  · rw [memcmp_eq_compare hl]
  · have hne : Ord.compare c.value.length d.value.length ≠ .eq :=
      fun h => hl (Nat.compare_eq_eq.mp h)
    congr 1
    rcases h : Ord.compare c.value.length d.value.length
    · rfl
    · exact absurd h hne
    · rfl

theorem compare_eq_lt_iff {c d : Component} : c.compare d = .lt ↔
    c.type < d.type ∨ c.type = d.type ∧ (c.value.length < d.value.length ∨
      c.value.length = d.value.length ∧ valueBE c.value < valueBE d.value) := by
  simp only [compare_eq,Ordering.then_eq_lt,Nat.compare_eq_lt,Nat.compare_eq_eq]

theorem ext_of_valueBE {c d : Component} (ht : c.type = d.type)
    (hl : c.value.length = d.value.length) (hv : valueBE c.value = valueBE d.value) : c = d := by
  obtain ⟨t,v⟩ := c
  obtain ⟨t',v'⟩ := d
  simp only at ht hl hv
  rw [ht,valueBE_injective hl hv]

theorem compare_eq_eq_iff {c d : Component} : c.compare d = .eq ↔ c = d := by
  simp only [compare_eq,Ordering.then_eq_eq,Nat.compare_eq_eq]
  exact ⟨fun ⟨ht,hl,hv⟩ => ext_of_valueBE ht hl hv,by rintro rfl; exact ⟨rfl,rfl,rfl⟩⟩

theorem compare_eq_gt_iff {c d : Component} : c.compare d = .gt ↔ d.compare c = .lt := by
  simp only [compare_eq,Ordering.then_eq_gt,Ordering.then_eq_lt,Nat.compare_eq_gt,
    Nat.compare_eq_lt,Nat.compare_eq_eq]
  constructor <;> intro h <;> omega

theorem compare_lt_trans {c d e : Component} (h₁ : c.compare d = .lt) (h₂ : d.compare e = .lt) :
    c.compare e = .lt := by
  rw [compare_eq_lt_iff] at *
  omega

/-- A component sorts below its successor. -/
theorem compare_getSuccessor (c : Component) : c.compare c.getSuccessor = .lt := by
  rw [compare_eq_lt_iff]
  unfold getSuccessor
  split_ifs with h
  · simp
  · have hv := valueLE_incrementBytes (Bool.eq_false_iff.mpr h)
    simp only [valueBE,List.reverse_reverse,hv,incrementBytes_length,List.length_reverse]
    simp

theorem eq_of_le_of_lt_getSuccessor {c d : Component} (h₁ : d.compare c ≠ .lt)
    (h₂ : d.compare c.getSuccessor = .lt) : d = c := by
  rw [Ne,compare_eq_lt_iff] at h₁
  rw [compare_eq_lt_iff] at h₂
  have hd := valueBE_lt d.value
  unfold getSuccessor at h₂
  split_ifs at h₂ with h
  · have hc := valueLE_incrementBytes_of_carry h
    rw [List.length_reverse] at hc
    simp only [valueBE,List.reverse_replicate,valueLE_replicate_zero,List.length_replicate] at h₂
    obtain ⟨ht,hl⟩ : d.type = c.type ∧ d.value.length = c.value.length := by omega
    rw [hl] at hd
    exact ext_of_valueBE ht hl (by simp only [valueBE] at *; omega)
  · have hv := valueLE_incrementBytes (Bool.eq_false_iff.mpr h)
    simp only [valueBE,List.reverse_reverse,hv,incrementBytes_length,List.length_reverse] at h₂
    exact ext_of_valueBE (by omega) (by omega) (by simp only [valueBE] at *; omega)

end Component

namespace Name

@[simp] theorem lt_iff (a b : Name) : Name.lt a b = true ↔ Name.compare a b = .lt := by
  unfold Name.lt
  cases Name.compare a b <;> decide

@[simp] theorem lt_eq_false_iff (a b : Name) : Name.lt a b = false ↔ ¬ Name.compare a b = .lt := by
  unfold Name.lt
  cases Name.compare a b <;> decide

theorem compare_self (a : Name) : Name.compare a a = .eq := by
  induction a with
  | nil => rfl
  | cons c a ih => simp [Name.compare,Component.compare_eq_eq_iff.mpr rfl,ih,Ordering.then]

theorem compare_eq_eq_iff {a b : Name} : Name.compare a b = .eq ↔ a = b := by
  induction a generalizing b with
  | nil => cases b <;> simp [Name.compare]
  | cons c a ih => cases b <;> simp [Name.compare,Ordering.then_eq_eq,Component.compare_eq_eq_iff,ih]

theorem compare_eq_gt_iff {a b : Name} : Name.compare a b = .gt ↔ Name.compare b a = .lt := by
  induction a generalizing b with
  | nil => cases b <;> simp [Name.compare]
  | cons c a ih =>
    cases b with
    | nil => simp [Name.compare]
    | cons d b =>
      simp only [Name.compare,Ordering.then_eq_gt,Ordering.then_eq_lt,Component.compare_eq_gt_iff,
        Component.compare_eq_eq_iff,ih]
      constructor <;> rintro (h | ⟨rfl,h⟩) <;> simp [h]

theorem lt_irrefl (a : Name) : Name.compare a a ≠ .lt := by
  simp [compare_self]

theorem lt_trans {a b c : Name} (h₁ : Name.compare a b = .lt) (h₂ : Name.compare b c = .lt) :
    Name.compare a c = .lt := by
  induction a generalizing b c with
  | nil => cases b <;> cases c <;> simp_all [Name.compare]
  | cons x a ih =>
    cases b with
    | nil => simp [Name.compare] at h₁
    | cons y b =>
      cases c with
      | nil => simp [Name.compare] at h₂
      | cons z c =>
        simp only [Name.compare,Ordering.then_eq_lt,Component.compare_eq_eq_iff] at *
        rcases h₁ with h₁ | ⟨rfl,h₁⟩ <;> rcases h₂ with h₂ | ⟨rfl,h₂⟩
        · exact .inl (Component.compare_lt_trans h₁ h₂)
        · exact .inl h₁
        · exact .inl h₂
        · exact .inr ⟨rfl,ih h₁ h₂⟩

theorem lt_trichotomy (a b : Name) :
    Name.compare a b = .lt ∨ a = b ∨ Name.compare b a = .lt := by
  rcases h : Name.compare a b
  · exact .inl rfl
  · exact .inr (.inl (compare_eq_eq_iff.mp h))
  · exact .inr (.inr (compare_eq_gt_iff.mp h))

theorem compare_append_ne_lt (S t : Name) : Name.compare (S ++ t) S ≠ .lt := by
  induction S with
  | nil => cases t <;> simp [Name.compare]
  | cons c S ih => simpa [Name.compare,Component.compare_eq_eq_iff.mpr rfl] using ih

theorem compare_append_append (P a b : Name) :
    Name.compare (P ++ a) (P ++ b) = Name.compare a b := by
  induction P with
  | nil => rfl
  | cons c P ih => simp [Name.compare,Component.compare_eq_eq_iff.mpr rfl,ih,Ordering.then]

theorem getSuccessor_concat (P : Name) (c : Component) :
    Name.getSuccessor (P ++ [c]) = P ++ [c.getSuccessor] := by
  simp [Name.getSuccessor]

/-- Every name a non-empty name prefixes sorts below its successor. -/
theorem compare_getSuccessor_of_prefix {S k : Name} (hS : S ≠ []) (h : S <+: k) :
    Name.compare k S.getSuccessor = .lt := by
  obtain ⟨t,rfl⟩ := h
  obtain ⟨P,c,rfl⟩ : ∃ P c, S = P ++ [c] :=
    ⟨S.dropLast,S.getLast hS,(List.dropLast_append_getLast hS).symm⟩
  rw [getSuccessor_concat,List.append_assoc,compare_append_append]
  simp [Name.compare,Component.compare_getSuccessor,Ordering.then]

theorem prefix_of_compare_getSuccessor {S g : Name} (hS : S ≠ []) (h₁ : Name.compare g S ≠ .lt)
    (h₂ : Name.compare g S.getSuccessor = .lt) : S <+: g := by
  obtain ⟨P,c,rfl⟩ : ∃ P c, S = P ++ [c] :=
    ⟨S.dropLast,S.getLast hS,(List.dropLast_append_getLast hS).symm⟩
  rw [getSuccessor_concat] at h₂
  induction P generalizing g with
  | nil =>
    cases g with
    | nil => simp [Name.compare] at h₁
    | cons d t =>
      have hd₁ : d.compare c ≠ .lt := fun h => h₁ (by simp [Name.compare,h,Ordering.then])
      have hd₂ : d.compare c.getSuccessor = .lt := by
        simp only [Name.compare,Ordering.then_eq_lt] at h₂
        rcases h₂ with h | ⟨-,h⟩
        · exact h
        · cases t <;> simp [Name.compare] at h
      obtain rfl := Component.eq_of_le_of_lt_getSuccessor hd₁ hd₂
      exact ⟨t,rfl⟩
  | cons p P ih =>
    cases g with
    | nil => simp [Name.compare] at h₁
    | cons d t =>
      simp only [List.cons_append,Name.compare] at h₁ h₂ ⊢
      rcases h : d.compare p
      · simp [h,Ordering.then] at h₁
      · obtain rfl := Component.compare_eq_eq_iff.mp h
        simp only [h,Ordering.then] at h₁ h₂
        exact List.cons_prefix_cons.mpr ⟨rfl,ih (by simp) h₁ h₂⟩
      · simp [h,Ordering.then] at h₂

end Name

end MwNfd
