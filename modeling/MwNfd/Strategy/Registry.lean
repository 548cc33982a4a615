import MwNfd.Strategy.InstanceName
import MwNfd.NameOrder
import Mathlib.Data.List.Sort

/-! The strategy registry, a `std::map` from versioned strategy names to factories, and
`Strategy::find`, which resolves an instance name by `lower_bound` in the canonical name
order and then checks only that the found key extends the requested strategy's name. -/

namespace MwNfd
namespace Strategy

variable (conv : Convention)

/-- `Strategy::Registry`: its keys in the order of the map. The factories are left out,
since `find` settles on a key. -/
structure Registry where
  keys : List Name
  sorted : keys.Sorted (fun a b => Name.lt a b)

/-- `std::map::lower_bound`: the position of the first key that is not less than `k`. -/
def lowerBound (keys : List Name) (k : Name) : Nat :=
  keys.findIdx (fun e => !Name.lt e k)

def find (registry : Registry) (instanceName : Name) : Option Name :=
  let parsed := parseInstanceName conv instanceName
  if parsed.version.isSome then
    match registry.keys.drop (lowerBound registry.keys parsed.strategyName) with
    | found :: _ =>
      if (parsed.strategyName.take (parsed.strategyName.length - 1)).isPrefixOf found then
        some found
      else none
    | [] => none
  else if parsed.strategyName ≠ [] then
    match (registry.keys.take
        (lowerBound registry.keys (Name.getSuccessor parsed.strategyName))).getLast? with
    | some found => if parsed.strategyName.isPrefixOf found then some found else none
    | none => none
  else none

section Sorted

variable {keys : List Name}

/-- Before the first key not less than `k` stand exactly the keys less than `k`. -/
theorem take_lowerBound (hs : keys.Sorted (fun a b => Name.lt a b)) (k : Name) :
    keys.take (lowerBound keys k) = keys.filter (fun e => Name.lt e k) := by
  induction keys with
  | nil => rfl
  | cons e t ih =>
    rw [List.sorted_cons] at hs
    unfold lowerBound
    rw [List.findIdx_cons]
    by_cases he : Name.lt e k = true
    · simpa [he] using ih hs.2
    · simp only [he,Bool.not_false,cond_true,List.take_zero,List.filter_cons_of_neg,
        Bool.false_eq_true,not_false_eq_true]
      refine (List.filter_eq_nil_iff.mpr fun x hx hxk => he ?_).symm
      simp only [Name.lt_iff] at *
      exact Name.lt_trans (hs.1 x hx) hxk

theorem drop_lowerBound (hs : keys.Sorted (fun a b => Name.lt a b)) (k : Name) :
    keys.drop (lowerBound keys k) = keys.filter (fun e => !Name.lt e k) := by
  induction keys with
  | nil => rfl
  | cons e t ih =>
    rw [List.sorted_cons] at hs
    unfold lowerBound
    rw [List.findIdx_cons]
    by_cases he : Name.lt e k = true
    · simpa [he] using ih hs.2
    · simp only [he,Bool.not_false,cond_true,List.drop_zero]
      refine (List.filter_eq_self.mpr fun x hx => ?_).symm
      rw [Bool.not_eq_true',Bool.eq_false_iff]
      rcases List.mem_cons.mp hx with rfl | hx
      · exact he
      · intro hxk
        apply he
        rw [Name.lt_iff] at hxk ⊢
        exact Name.lt_trans (by simpa using hs.1 x hx) hxk

theorem head?_eq_some_iff_of_sorted (hs : keys.Sorted (fun a b => Name.lt a b)) {f : Name} :
    keys.head? = some f ↔ f ∈ keys ∧ ∀ x ∈ keys, ¬ Name.lt x f := by
  have hmin : ∀ {f}, keys.head? = some f → ∀ x ∈ keys, ¬ Name.lt x f := by
    intro f hf x hx hxf
    obtain ⟨t,rfl⟩ := List.head?_eq_some_iff.mp hf
    rw [List.sorted_cons] at hs
    simp only [Name.lt_iff] at hxf hs
    rcases List.mem_cons.mp hx with rfl | hx
    · exact Name.lt_irrefl x hxf
    · exact Name.lt_irrefl x (Name.lt_trans hxf (hs.1 x hx))
  refine ⟨fun hf => ⟨List.mem_of_mem_head? hf,hmin hf⟩,fun ⟨hf,hle⟩ => ?_⟩
  cases keys with
  | nil => simp at hf
  | cons g t =>
    have hg := hmin (f := g) rfl
    rcases Name.lt_trichotomy f g with h | rfl | h
    · exact absurd (by simpa using h) (hg f hf)
    · rfl
    · exact absurd (by simpa using h) (hle g (List.mem_cons_self g t))

theorem getLast?_eq_some_iff_of_sorted (hs : keys.Sorted (fun a b => Name.lt a b)) {g : Name} :
    keys.getLast? = some g ↔ g ∈ keys ∧ ∀ x ∈ keys, ¬ Name.lt g x := by
  have hmax : ∀ {g}, keys.getLast? = some g → ∀ x ∈ keys, ¬ Name.lt g x := by
    intro g hg x hx hgx
    obtain ⟨t,rfl⟩ := List.getLast?_eq_some_iff.mp hg
    rw [List.Sorted,List.pairwise_append] at hs
    simp only [Name.lt_iff] at hgx hs
    rcases List.mem_append.mp hx with hx | hx
    · exact Name.lt_irrefl x (Name.lt_trans (hs.2.2 x hx g (List.mem_singleton_self g)) hgx)
    · rw [List.mem_singleton.mp hx] at hgx
      exact Name.lt_irrefl g hgx
  refine ⟨fun hg => ⟨List.mem_of_getLast?_eq_some hg,hmax hg⟩,fun ⟨hg,hle⟩ => ?_⟩
  obtain ⟨g',hg'⟩ := Option.ne_none_iff_exists'.mp (mt List.getLast?_eq_none_iff.mp
    (List.ne_nil_of_mem hg))
  rw [hg']
  rcases Name.lt_trichotomy g g' with h | rfl | h
  · exact absurd (by simpa using h) (hle g' (List.mem_of_getLast?_eq_some hg'))
  · rfl
  · exact absurd (by simpa using h) (hmax hg' g hg)

end Sorted

theorem match_head_eq_some {l : List Name} {p : Name → Bool} {k : Name} :
    (match l with
      | found :: _ => if p found then some found else none
      | [] => none) = some k ↔ l.head? = some k ∧ p k := by
  cases l with
  | nil => simp
  | cons h t =>
    simp only [List.head?_cons,Option.some.injEq]
    split_ifs with hp
    · simp only [Option.some.injEq]
      exact ⟨fun e => ⟨e,e ▸ hp⟩,fun e => e.1⟩
    · simp only [reduceCtorEq,false_iff,not_and]
      rintro rfl
      simpa using hp

theorem match_option_eq_some {o : Option Name} {p : Name → Bool} {k : Name} :
    (match o with
      | some found => if p found then some found else none
      | none => none) = some k ↔ o = some k ∧ p k := by
  cases o with
  | none => simp
  | some h =>
    simp only [Option.some.injEq]
    split_ifs with hp
    · simp only [Option.some.injEq]
      exact ⟨fun e => ⟨e,e ▸ hp⟩,fun e => e.1⟩
    · simp only [reduceCtorEq,false_iff,not_and]
      rintro rfl
      simpa using hp

/-- `Strategy::find`: for a versioned instance name, the least registered key not below the
requested strategy name, if the strategy name without its version prefixes it; for an
unversioned one, the greatest registered key the requested name prefixes. Nothing checks that
such a key names the requested strategy rather than one whose name extends it. -/
theorem find_spec (registry : Registry) (instanceName k : Name) :
    let parsed := parseInstanceName conv instanceName
    find conv registry instanceName = some k ↔ k ∈ registry.keys ∧
      if parsed.version.isSome then
        ¬ Name.lt k parsed.strategyName ∧
          (∀ k' ∈ registry.keys, Name.lt k' k → Name.lt k' parsed.strategyName) ∧
          parsed.strategyName.dropLast <+: k
      else
        parsed.strategyName ≠ [] ∧ parsed.strategyName <+: k ∧
          ∀ k' ∈ registry.keys, parsed.strategyName <+: k' → ¬ Name.lt k k' := by
  intro parsed
  have hs := registry.sorted
  unfold find
  dsimp only [parsed]
  generalize parseInstanceName conv instanceName = q
  split_ifs with hv hne
  · rw [match_head_eq_some,drop_lowerBound hs,head?_eq_some_iff_of_sorted (hs.filter _),
      List.isPrefixOf_iff_prefix,← List.dropLast_eq_take]
    simp only [List.mem_filter,Bool.not_eq_true',Name.lt_eq_false_iff,Name.lt_iff]
    constructor
    · rintro ⟨⟨⟨hk,hkS⟩,hmin⟩,hp⟩
      exact ⟨hk,hkS,fun k' hk' hlt => by_contra fun hS => hmin k' ⟨hk',hS⟩ hlt,hp⟩
    · rintro ⟨hk,hkS,hmin,hp⟩
      exact ⟨⟨⟨hk,hkS⟩,fun k' ⟨hk',hk'S⟩ hlt => hk'S (hmin k' hk' hlt)⟩,hp⟩
  · rw [match_option_eq_some,take_lowerBound hs,getLast?_eq_some_iff_of_sorted (hs.filter _),
      List.isPrefixOf_iff_prefix]
    simp only [List.mem_filter,Name.lt_iff,ne_eq,hne,not_false_eq_true,true_and]
    constructor
    · rintro ⟨⟨⟨hk,-⟩,hmax⟩,hp⟩
      exact ⟨hk,hp,fun k' hk' hp' => hmax k' ⟨hk',Name.compare_getSuccessor_of_prefix hne hp'⟩⟩
    · rintro ⟨hk,hp,hmax⟩
      refine ⟨⟨⟨hk,Name.compare_getSuccessor_of_prefix hne hp⟩,fun k' ⟨hk',hk'S⟩ hlt => ?_⟩,hp⟩
      refine hmax k' hk' (Name.prefix_of_compare_getSuccessor hne (fun h => ?_) hk'S) hlt
      obtain ⟨t,rfl⟩ := hp
      exact Name.compare_append_ne_lt q.strategyName t (Name.lt_trans hlt h)
  · have hS : q.strategyName = [] := by simpa using hne
    simp [hv,hS]

def otherStrategy : Name := [⟨8,[0x42]⟩,⟨8,[0x78,0x79,0x7A]⟩,markerVersion 1]

/-- `find` hands out the key of another strategy: asked for `/B/%FD%03` in a registry that
holds only `/B/xyz/%FD%01`, and for the unversioned `/B` in one that also holds
`/B/%FD%01`, it returns `/B/xyz/%FD%01` both times. -/
theorem find_returns_other_strategy :
    find ndnCxx ⟨[otherStrategy],List.sorted_singleton _⟩ [⟨8,[0x42]⟩,markerVersion 3] =
        some otherStrategy ∧
      find ndnCxx ⟨[exampleStrategy,otherStrategy],by decide⟩ [⟨8,[0x42]⟩] =
        some otherStrategy := by
  decide

end Strategy
end MwNfd
