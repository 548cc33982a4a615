import MwNfd.Strategy.Registry

/-! How strategies enter the registry, and the queries made of it besides `find`. Static
registrations in any order build the registries `registerAll` builds, and over those
registration, `listRegistered` and `find` of a registered name are characterised exactly. -/

namespace MwNfd
namespace Strategy

variable (conv : Convention)

section Insert

variable {keys : List Name} {k : Name}

def insertKey (keys : List Name) (k : Name) : List Name :=
  keys.take (lowerBound keys k) ++ k :: keys.drop (lowerBound keys k)

theorem insertKey_perm (keys : List Name) (k : Name) : (insertKey keys k).Perm (k :: keys) :=
  List.perm_middle.trans (by rw [List.take_append_drop])

theorem insertKey_sorted (hs : keys.Sorted (fun a b => Name.lt a b)) (hk : k ∉ keys) :
    (insertKey keys k).Sorted (fun a b => Name.lt a b) := by
  have hgt : ∀ b ∈ keys.filter (fun e => !Name.lt e k), Name.compare k b = .lt := by
    intro b hb
    simp only [List.mem_filter,Bool.not_eq_true',Name.lt_eq_false_iff] at hb
    rcases Name.lt_trichotomy k b with h | rfl | h
    · exact h
    · exact absurd hb.1 hk
    · exact absurd h hb.2
  rw [insertKey,take_lowerBound hs,drop_lowerBound hs,List.Sorted,List.pairwise_append,
    List.pairwise_cons]
  refine ⟨hs.filter _,⟨fun b hb => by simpa using hgt b hb,hs.filter _⟩,fun a ha b hb => ?_⟩
  simp only [List.mem_filter,Name.lt_iff] at ha ⊢
  rcases List.mem_cons.mp hb with rfl | hb
  · exact ha.2
  · exact Name.lt_trans ha.2 (hgt b hb)

theorem append_insertKey_perm (names keys : List Name) (S : Name) :
    (names ++ insertKey keys S).Perm (S :: names ++ keys) :=
  ((insertKey_perm keys S).append_left names).trans List.perm_middle

end Insert

def Registry.empty : Registry := ⟨[],List.sorted_nil⟩

/-- `Strategy::registerType`; `none` where one of its assertions fails: the name has two or
more components, its last component is a version, and it is not registered yet. -/
def registerType (registry : Registry) (strategyName : Name) : Option Registry :=
  if h : 1 < strategyName.length ∧ strategyName.getLast?.any conv.isVersion = true ∧
      strategyName ∉ registry.keys then
    some ⟨insertKey registry.keys strategyName,insertKey_sorted registry.sorted h.2.2⟩
  else none

/-- The strategies' static registrations (`NFD_REGISTER_STRATEGY`), one `registerType` after
another in the order static initialisation runs them. -/
def registerAll (registry : Registry) (strategyNames : List Name) : Option Registry :=
  strategyNames.foldlM (registerType conv) registry

def canCreate (registry : Registry) (instanceName : Name) : Bool :=
  (find conv registry instanceName).isSome

/-- `Strategy::areSameType`: the two lookups end at one iterator, `end()` included. -/
def areSameType (registry : Registry) (instanceNameA instanceNameB : Name) : Bool :=
  find conv registry instanceNameA == find conv registry instanceNameB

/-- `Strategy::listRegistered`: the keys, which a `std::set` holds in the map's own order. -/
def listRegistered (registry : Registry) : List Name := registry.keys

theorem registerType_eq_some_iff {registry registry' : Registry} {strategyName : Name} :
    registerType conv registry strategyName = some registry' ↔
      (1 < strategyName.length ∧ strategyName.getLast?.any conv.isVersion = true ∧
        strategyName ∉ registry.keys) ∧ registry'.keys = insertKey registry.keys strategyName := by
  unfold registerType
  split_ifs with h
  · simp only [Option.some.injEq,h,not_false_eq_true,true_and]
    exact ⟨fun e => e ▸ rfl,fun e => by cases registry'; cases e; rfl⟩
  · simp [h]

section Run

variable {registry registry' : Registry} {strategyNames : List Name}

@[simp] theorem registerAll_nil : registerAll conv registry [] = some registry := rfl

theorem registerAll_cons (S : Name) :
    registerAll conv registry (S :: strategyNames) =
      (registerType conv registry S).bind (registerAll conv · strategyNames) := rfl

/-- What a successful run of registrations leaves: every name passed the assertions, no name
was registered twice, and the keys are the old keys and the new names. -/
theorem registerAll_spec (h : registerAll conv registry strategyNames = some registry') :
    (∀ S ∈ strategyNames, 1 < S.length ∧ S.getLast?.any conv.isVersion = true) ∧
      (strategyNames ++ registry.keys).Nodup ∧
      registry'.keys.Perm (strategyNames ++ registry.keys) := by
  induction strategyNames generalizing registry with
  | nil =>
    rw [registerAll_nil,Option.some.injEq] at h
    subst h
    refine ⟨nofun,List.Pairwise.imp (fun {a b} hab he => ?_) registry.sorted,List.Perm.refl _⟩
    subst he
    exact Name.lt_irrefl a (by simpa using hab)
  | cons S names ih =>
    obtain ⟨r,hr,hrun⟩ := Option.bind_eq_some.mp ((registerAll_cons conv S).symm.trans h)
    obtain ⟨⟨hlen,hv,-⟩,hkeys⟩ := (registerType_eq_some_iff conv).mp hr
    obtain ⟨hnames,hnodup,hperm⟩ := ih hrun
    rw [hkeys] at hnodup hperm
    have hp := append_insertKey_perm names registry.keys S
    exact ⟨List.forall_mem_cons.mpr ⟨⟨hlen,hv⟩,hnames⟩,hp.nodup_iff.mp hnodup,hperm.trans hp⟩

theorem registerAll_isSome
    (hnames : ∀ S ∈ strategyNames, 1 < S.length ∧ S.getLast?.any conv.isVersion = true)
    (hnodup : (strategyNames ++ registry.keys).Nodup) :
    ∃ registry', registerAll conv registry strategyNames = some registry' := by
  induction strategyNames generalizing registry with
  | nil => exact ⟨registry,rfl⟩
  | cons S names ih =>
    obtain ⟨⟨hlen,hv⟩,hnames⟩ := List.forall_mem_cons.mp hnames
    have hS : S ∉ registry.keys := fun hS =>
      (List.nodup_cons.mp hnodup).1 (List.mem_append_right names hS)
    let r : Registry := ⟨insertKey registry.keys S,insertKey_sorted registry.sorted hS⟩
    have hr : registerType conv registry S = some r :=
      (registerType_eq_some_iff conv).mpr ⟨⟨hlen,hv,hS⟩,rfl⟩
    obtain ⟨r',hr'⟩ : ∃ r', registerAll conv r names = some r' :=
      ih hnames ((append_insertKey_perm names registry.keys S).nodup_iff.mpr hnodup)
    exact ⟨r',by rw [registerAll_cons,hr]; exact hr'⟩

end Run

/-- The static registrations succeed exactly when every name passes `registerType`'s
assertions and no name comes twice, and `listRegistered` then returns exactly those names. -/
theorem registerAll_listRegistered (strategyNames : List Name) :
    ((∀ S ∈ strategyNames, 1 < S.length ∧ S.getLast?.any conv.isVersion = true) ∧
        strategyNames.Nodup ↔
      ∃ registry, registerAll conv Registry.empty strategyNames = some registry) ∧
    ∀ registry, registerAll conv Registry.empty strategyNames = some registry →
      (listRegistered registry).Perm strategyNames := by
  refine ⟨⟨fun ⟨hnames,hnodup⟩ => registerAll_isSome conv hnames (by simpa [Registry.empty]),
    fun ⟨_,h⟩ => ?_⟩,fun registry h => ?_⟩
  · obtain ⟨hnames,hnodup,-⟩ := registerAll_spec conv h
    exact ⟨hnames,by simpa [Registry.empty] using hnodup⟩
  · simpa [Registry.empty] using (registerAll_spec conv h).2.2

theorem find_append_parameters {registry : Registry} {S P : Name} {v : Component}
    (hS : 1 < S.length) (hlast : S.getLast? = some v) (hv : conv.isVersion v = true)
    (hk : S ∈ registry.keys) (hP : ∀ c ∈ P, conv.isVersion c = false) :
    find conv registry (S ++ P) = some S := by
  have hs := registry.sorted
  unfold find
  rw [parseInstanceName_append_parameters conv hS hlast hv hP]
  dsimp only
  rw [Option.isSome_some,if_pos rfl,match_head_eq_some,drop_lowerBound hs,
    head?_eq_some_iff_of_sorted (hs.filter _),List.isPrefixOf_iff_prefix]
  simp only [List.mem_filter,Bool.not_eq_true',Name.lt_eq_false_iff,Name.lt_iff]
  exact ⟨⟨⟨hk,Name.lt_irrefl S⟩,fun x hx hxS => hx.2 hxS⟩,List.take_prefix _ _⟩

/-- Over every registry the static registrations build, an instance name made of a registered
strategy name and parameters with no version resolves to that strategy, which can then be
created; and two such instance names are of the same type exactly when their strategy names
are one. -/
theorem find_registered (strategyNames : List Name) (registry : Registry)
    (h : registerAll conv Registry.empty strategyNames = some registry) (S P S' P' : Name)
    (hS : S ∈ strategyNames) (hS' : S' ∈ strategyNames)
    (hP : ∀ c ∈ P, conv.isVersion c = false) (hP' : ∀ c ∈ P', conv.isVersion c = false) :
    find conv registry (S ++ P) = some S ∧ canCreate conv registry (S ++ P) = true ∧
      (areSameType conv registry (S ++ P) (S' ++ P') = true ↔ S = S') := by
  obtain ⟨hnames,-,hperm⟩ := registerAll_spec conv h
  have hfind : ∀ T ∈ strategyNames, ∀ Q : Name, (∀ c ∈ Q, conv.isVersion c = false) →
      find conv registry (T ++ Q) = some T := by
    intro T hT Q hQ
    obtain ⟨hlen,hv⟩ := hnames T hT
    cases hl : T.getLast? with
    | none => simp [hl] at hv
    | some v =>
      rw [hl] at hv
      exact find_append_parameters conv hlen hl hv
        (hperm.mem_iff.mpr (List.mem_append_left _ hT)) hQ
  rw [areSameType,canCreate,hfind S hS P hP,hfind S' hS' P' hP']
  simp

/-- `/B/%FD%01` and `/C/%FD%02` registered: `/B/%FD%01/p` resolves to the first and is not of
the type of `/C/%FD%02`. -/
theorem find_registered_twoStrategies :
    ∃ registry, registerAll ndnCxx Registry.empty
        [[⟨8,[0x42]⟩,markerVersion 1],[⟨8,[0x43]⟩,markerVersion 2]] = some registry ∧
      (∀ c ∈ [(⟨8,[0x70]⟩ : Component)], ndnCxx.isVersion c = false) ∧
      find ndnCxx registry ([⟨8,[0x42]⟩,markerVersion 1] ++ [⟨8,[0x70]⟩]) =
        some [⟨8,[0x42]⟩,markerVersion 1] ∧
      canCreate ndnCxx registry ([⟨8,[0x42]⟩,markerVersion 1] ++ [⟨8,[0x70]⟩]) = true ∧
      (areSameType ndnCxx registry ([⟨8,[0x42]⟩,markerVersion 1] ++ [⟨8,[0x70]⟩])
          ([⟨8,[0x43]⟩,markerVersion 2] ++ []) = true ↔
        [⟨8,[0x42]⟩,markerVersion 1] = ([⟨8,[0x43]⟩,markerVersion 2] : Name)) :=
  ⟨_,rfl,by decide,find_registered ndnCxx [[⟨8,[0x42]⟩,markerVersion 1],[⟨8,[0x43]⟩,markerVersion 2]]
    _ rfl _ _ _ _ (by decide) (by decide) (by decide) (by decide)⟩

end Strategy
end MwNfd
