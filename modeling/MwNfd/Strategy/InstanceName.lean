import MwNfd.Name

/-! Strategy instance names. `parseInstanceName` splits a name after its last version component
past the first; `makeInstanceName` appends a version to a name with none. The two read
whether a name has a version by different loops. -/

namespace MwNfd
namespace Strategy

variable (conv : Convention)

structure ParsedInstanceName where
  strategyName : Name
  version : Option Nat
  parameters : Name
  deriving DecidableEq, Repr

/-- The loop of `parseInstanceName`, from position `i` down to position 1. -/
def scanVersion (input : Name) : Nat → Option Nat
  | 0 => none
  | i + 1 =>
    if conv.isVersion (input.getD (i + 1) default) then some (i + 1) else scanVersion input i

def parseInstanceName (input : Name) : ParsedInstanceName :=
  match scanVersion conv input (input.length - 1) with
  | some i =>
    ⟨input.take (i + 1), some (conv.toVersion (input.getD i default)), input.drop (i + 1)⟩
  | none => ⟨input, none, []⟩

theorem scanVersion_eq_none_iff (input : Name) (k : Nat) :
    scanVersion conv input k = none ↔
      ∀ j, 1 ≤ j → j ≤ k → conv.isVersion (input.getD j default) = false := by
  induction k with
  | zero => simp only [scanVersion,true_iff]; omega
  | succ k ih =>
    simp only [scanVersion]
    split_ifs with h
    · simp only [reduceCtorEq,false_iff,not_forall]
      exact ⟨k + 1,by omega,le_refl _,by rw [h]; decide⟩
    · rw [ih]
      constructor
      · intro hk j h1 h2
        rcases Nat.lt_or_ge j (k + 1) with hj | hj
        · exact hk j h1 (by omega)
        · simpa [show j = k + 1 by omega] using h
      · exact fun hk j h1 h2 => hk j h1 (by omega)

theorem scanVersion_spec {input : Name} {k i : Nat} (h : scanVersion conv input k = some i) :
    1 ≤ i ∧ i ≤ k ∧ conv.isVersion (input.getD i default) = true ∧
      ∀ j, i < j → j ≤ k → conv.isVersion (input.getD j default) = false := by
  induction k with
  | zero => simp [scanVersion] at h
  | succ k ih =>
    simp only [scanVersion] at h
    split_ifs at h with hv
    · cases h
      exact ⟨by omega,le_refl _,hv,fun j h1 h2 => by omega⟩
    · obtain ⟨h1,h2,h3,h4⟩ := ih h
      refine ⟨h1,by omega,h3,fun j hj hk => ?_⟩
      rcases Nat.lt_or_ge j (k + 1) with hj' | hj'
      · exact h4 j hj (by omega)
      · simpa [show j = k + 1 by omega] using hv

/-- The converse of `scanVersion_spec`: the scan stops at the last version at or below `k`. -/
theorem scanVersion_eq_some {input : Name} {k i : Nat} (h1 : 1 ≤ i) (hik : i ≤ k)
    (hv : conv.isVersion (input.getD i default) = true)
    (hrest : ∀ j, i < j → j ≤ k → conv.isVersion (input.getD j default) = false) :
    scanVersion conv input k = some i := by
  induction k with
  | zero => omega
  | succ k ih =>
    rcases Nat.eq_or_lt_of_le hik with rfl | hlt
    · simp only [scanVersion,hv,if_true]
    · simp only [scanVersion,hrest (k + 1) hlt le_rfl,Bool.false_eq_true,if_false]
      exact ih (by omega) fun j hj hjk => hrest j hj (by omega)

theorem forall_mem_drop_iff (p : Component → Bool) (input : Name) (k : Nat) :
    (∀ c ∈ input.drop k, p c = false) ↔
      ∀ j, k ≤ j → j < input.length → p (input.getD j default) = false := by
  constructor
  · intro h j hk hj
    obtain ⟨m,rfl⟩ := Nat.exists_eq_add_of_le hk
    rw [List.getD_eq_getElem?_getD,List.getElem?_eq_getElem hj,Option.getD_some,
      List.getElem_drop' _ hj]
    exact h _ (List.getElem_mem _)
  · intro h c hc
    obtain ⟨m,hm,rfl⟩ := List.getElem_of_mem hc
    have hlt : k + m < input.length := by simp at hm; omega
    simpa [List.getD_eq_getElem?_getD,List.getElem?_eq_getElem hlt] using h (k + m) (by omega) hlt

/-- `parseInstanceName` splits its input in two. With a version, the strategy name has at least
two components and ends with the version component, and no parameter is a version; without
one, no component past the first is a version and the strategy name is the whole input. -/
theorem parseInstanceName_split (input S P : Name) (v : Option Nat)
    (h : parseInstanceName conv input = ⟨S,v,P⟩) :
    S ++ P = input ∧
      (∀ n, v = some n → 2 ≤ S.length ∧
        (∃ c, S.getLast? = some c ∧ conv.isVersion c = true ∧ conv.toVersion c = n) ∧
        ∀ c ∈ P, conv.isVersion c = false) ∧
      (v = none → (∀ c ∈ input.drop 1, conv.isVersion c = false) ∧ S = input ∧ P = []) := by
  unfold parseInstanceName at h
  split at h
  · rename_i i hs
    obtain ⟨h1,h2,h3,h4⟩ := scanVersion_spec conv hs
    obtain ⟨rfl,rfl,rfl⟩ := ParsedInstanceName.mk.inj h
    have hi : i < input.length := by omega
    refine ⟨List.take_append_drop _ _,fun n hn => ⟨?_,⟨_,?_,h3,Option.some.inj hn⟩,?_⟩,
      fun hn => nomatch hn⟩
    · simp only [List.length_take]
      omega
    · simp [List.getLast?_take,List.getD_eq_getElem?_getD,List.getElem?_eq_getElem hi]
    · exact (forall_mem_drop_iff _ _ _).mpr fun j hj hj' => h4 j hj (by omega)
  · rename_i hs
    obtain ⟨rfl,rfl,rfl⟩ := ParsedInstanceName.mk.inj h
    refine ⟨List.append_nil _,(fun _ hn => nomatch hn),fun _ => ⟨?_,rfl,rfl⟩⟩
    exact (forall_mem_drop_iff _ _ _).mpr fun j h1 h2 =>
      (scanVersion_eq_none_iff conv input _).mp hs j h1 (by omega)

/-- `/B/%FD%01/p`: the version splits the name before the parameter `p`. -/
theorem parseInstanceName_split_parameters :
    parseInstanceName ndnCxx [⟨8,[0x42]⟩,markerVersion 1,⟨8,[0x70]⟩] =
      ⟨[⟨8,[0x42]⟩,markerVersion 1],some 1,[⟨8,[0x70]⟩]⟩ ∧
    [⟨8,[0x42]⟩,markerVersion 1] ++ [⟨8,[0x70]⟩] = [⟨8,[0x42]⟩,markerVersion 1,⟨8,[0x70]⟩] ∧
      (∀ n, some 1 = some n → 2 ≤ [⟨8,[0x42]⟩,markerVersion 1].length ∧
        (∃ c, [⟨8,[0x42]⟩,markerVersion 1].getLast? = some c ∧ ndnCxx.isVersion c = true ∧
          ndnCxx.toVersion c = n) ∧
        ∀ c ∈ [(⟨8,[0x70]⟩ : Component)], ndnCxx.isVersion c = false) ∧
      (some 1 = none → (∀ c ∈ [⟨8,[0x42]⟩,markerVersion 1,⟨8,[0x70]⟩].drop 1,
          ndnCxx.isVersion c = false) ∧
        [⟨8,[0x42]⟩,markerVersion 1] = [⟨8,[0x42]⟩,markerVersion 1,⟨8,[0x70]⟩] ∧
        [(⟨8,[0x70]⟩ : Component)] = []) :=
  ⟨by decide,parseInstanceName_split ndnCxx _ _ _ _ (by decide)⟩

theorem parseInstanceName_append_parameters {S P : Name} {v : Component} (hS : 1 < S.length)
    (hlast : S.getLast? = some v) (hv : conv.isVersion v = true)
    (hP : ∀ c ∈ P, conv.isVersion c = false) :
    parseInstanceName conv (S ++ P) = ⟨S, some (conv.toVersion v), P⟩ := by
  obtain ⟨n,hn⟩ : ∃ n, S.length = n + 1 := ⟨S.length - 1,by omega⟩
  have hget : (S ++ P).getD n default = v := by
    rw [List.getLast?_eq_getElem?,hn,Nat.add_sub_cancel] at hlast
    simp [List.getD_eq_getElem?_getD,List.getElem?_append_left (show n < S.length by omega),hlast]
  have hdrop : ∀ c ∈ (S ++ P).drop (n + 1), conv.isVersion c = false := by
    rwa [← hn,List.drop_left]
  have hscan : scanVersion conv (S ++ P) ((S ++ P).length - 1) = some n :=
    scanVersion_eq_some conv (by omega) (by simp; omega) (hget ▸ hv) fun j hj hjk =>
      (forall_mem_drop_iff _ _ _).mp hdrop j hj (by simp at hjk ⊢; omega)
  rw [parseInstanceName,hscan]
  dsimp only
  rw [hget,← hn,List.take_left,List.drop_left]

def exampleStrategy : Name := [⟨8,[0x42]⟩,markerVersion 1]

end Strategy
end MwNfd
