import MwNfd.Pit

/-! The FIB lookup a strategy makes for a PIT entry: the longest prefix match of its name or, with
a forwarding hint, the first delegation whose match has next hops. The loop's fall-through
returns the root entry. -/

namespace MwNfd

structure NextHop where
  face : Face
  cost : Nat
  deriving DecidableEq, Repr

structure FibEntry where
  prefixName : Name
  nextHops : List NextHop
  deriving DecidableEq, Repr

/-- Modelled from the spec: the FIB as its entries, at most one per name. -/
structure Fib where
  entries : List FibEntry
  entries_nodup : (entries.map FibEntry.prefixName).Nodup

namespace Fib

def lookup (fib : Fib) (n : Name) : Option FibEntry :=
  fib.entries.find? (fun e => e.prefixName = n)

def rootEntry (fib : Fib) : FibEntry := (fib.lookup []).getD ⟨[],[]⟩

def walk (fib : Fib) (name : Name) : Nat → FibEntry
  | 0 => fib.rootEntry
  | k + 1 =>
    match fib.lookup (name.take (k + 1)) with
    | some e => e
    | none => fib.walk name k

/-- Modelled from the spec: `Fib::findLongestPrefixMatch` "walks from the full-length name
upward, returning the first node whose FIB slot is populated; if none, returns the root's
default entry (possibly empty)". -/
def findLongestPrefixMatch (fib : Fib) (name : Name) : FibEntry := fib.walk name name.length

theorem lookup_mem {fib : Fib} {n : Name} {e : FibEntry} (h : fib.lookup n = some e) :
    e ∈ fib.entries ∧ e.prefixName = n :=
  ⟨List.mem_of_find?_eq_some h,by simpa using List.find?_some h⟩

/-- A walk from a prefix no longer than the name ends at the root entry or at an entry of a
non-empty name. -/
theorem walk_cases (fib : Fib) (name : Name) {k : Nat} (hk : k ≤ name.length) :
    fib.walk name k = fib.rootEntry ∨
      (fib.walk name k ∈ fib.entries ∧ (fib.walk name k).prefixName ≠ []) := by
  induction k with
  | zero => exact .inl rfl
  | succ k ih =>
    simp only [walk]
    split
    · rename_i e he
      obtain ⟨hmem,hname⟩ := lookup_mem he
      refine .inr ⟨hmem,?_⟩
      rw [hname]
      exact List.ne_nil_of_length_pos (by simp; omega)
    · exact ih (by omega)

theorem findLongestPrefixMatch_eq_rootEntry {fib : Fib}
    (hfib : ∀ e ∈ fib.entries, e.prefixName ≠ [] → e.nextHops ≠ []) {name : Name}
    (h : (fib.findLongestPrefixMatch name).nextHops = []) :
    fib.findLongestPrefixMatch name = fib.rootEntry :=
  (walk_cases fib name le_rfl).resolve_right fun ⟨hmem,hne⟩ => hfib _ hmem hne h

theorem rootEntry_prefixName (fib : Fib) : fib.rootEntry.prefixName = [] := by
  unfold rootEntry
  cases h : fib.lookup [] with
  | none => rfl
  | some e => exact (lookup_mem h).2

end Fib

namespace Strategy

/-- The loop of `lookupFib` over the delegations; `fibEntry` is the last match looked at,
and `none` stands for a failed assertion. -/
def lookupFibLoop (fib : Fib) : Option FibEntry → List Delegation → Option FibEntry
  | some fibEntry, [] => if fibEntry.prefixName.length = 0 then some fibEntry else none
  | none, [] => none
  | _, del :: dels =>
    let fibEntry := fib.findLongestPrefixMatch del.name
    if fibEntry.nextHops ≠ [] then some fibEntry
    else if fibEntry.prefixName.length = 0 then lookupFibLoop fib (some fibEntry) dels
    else none

/-- `Strategy::lookupFib`; `none` stands for a failed assertion, and `inProducerRegion` is
the network region table's test. -/
def lookupFib (inProducerRegion : List Delegation → Bool) (fib : Fib) (pitEntry : Entry) :
    Option FibEntry :=
  if pitEntry.interest.forwardingHint = [] then
    some (fib.findLongestPrefixMatch pitEntry.interest.name)
  else if inProducerRegion pitEntry.interest.forwardingHint then none
  else lookupFibLoop fib none pitEntry.interest.forwardingHint

/-- The loop's invariant: it has looked at no delegation yet, or the last one matched the
root entry. -/
theorem lookupFibLoop_eq {fib : Fib} (hfib : ∀ e ∈ fib.entries, e.prefixName ≠ [] → e.nextHops ≠ [])
    (acc : Option FibEntry) (dels : List Delegation) (hacc : acc = none → dels ≠ [])
    (hroot : ∀ e, acc = some e → e = fib.rootEntry) :
    lookupFibLoop fib acc dels =
      some (match dels.find? fun del => (fib.findLongestPrefixMatch del.name).nextHops ≠ [] with
        | some del => fib.findLongestPrefixMatch del.name
        | none => fib.rootEntry) := by
  induction dels generalizing acc with
  | nil =>
    cases acc with
    | none => exact absurd rfl (hacc rfl)
    | some e => simp [lookupFibLoop,hroot e rfl,Fib.rootEntry_prefixName]
  | cons del dels ih =>
    by_cases hn : (fib.findLongestPrefixMatch del.name).nextHops = []
    · have he := Fib.findLongestPrefixMatch_eq_rootEntry hfib hn
      have hrest := ih (some fib.rootEntry) (by simp) (by simp)
      rw [he] at hn
      cases acc <;> simp [lookupFibLoop,he,hn,Fib.rootEntry_prefixName,List.find?_cons,hrest]
    · cases acc <;> simp [lookupFibLoop,hn,List.find?_cons]

/-- Where only the root entry may have no next hops and the Interest is outside the
producer region, `lookupFib` returns the match of the first delegation that has next hops,
the root entry when none has, and the longest prefix match of the Interest's name when it
carries no forwarding hint; no assertion fails. -/
theorem lookupFib_spec (inProducerRegion : List Delegation → Bool) (fib : Fib)
    (hfib : ∀ e ∈ fib.entries, e.prefixName ≠ [] → e.nextHops ≠ []) (pitEntry : Entry)
    (hregion : pitEntry.interest.forwardingHint ≠ [] →
      inProducerRegion pitEntry.interest.forwardingHint = false) :
    lookupFib inProducerRegion fib pitEntry =
      some (if pitEntry.interest.forwardingHint = [] then
          fib.findLongestPrefixMatch pitEntry.interest.name
        else match pitEntry.interest.forwardingHint.find? fun del =>
            (fib.findLongestPrefixMatch del.name).nextHops ≠ [] with
          | some del => fib.findLongestPrefixMatch del.name
          | none => fib.rootEntry) := by
  unfold lookupFib
  split_ifs with hfh
  · rfl
  · simp_all
  · exact lookupFibLoop_eq hfib none _ (fun _ => hfh) (by simp)

def exampleFib : Fib := ⟨[⟨[],[]⟩,⟨[⟨8,[0x41]⟩],[⟨⟨4,.pointToPoint⟩,10⟩]⟩],by decide⟩

def hintedEntry : Entry :=
  ⟨⟨[⟨8,[0x42]⟩],false,[⟨1,[⟨8,[0x43]⟩]⟩,⟨2,[⟨8,[0x41]⟩,⟨8,[0x42]⟩]⟩],none⟩,0,0,[],by decide⟩

theorem lookupFib_spec_hintedEntry :
    (∀ e ∈ exampleFib.entries, e.prefixName ≠ [] → e.nextHops ≠ []) ∧
    (hintedEntry.interest.forwardingHint ≠ [] →
      (fun _ => false : List Delegation → Bool) hintedEntry.interest.forwardingHint = false) ∧
    lookupFib (fun _ => false) exampleFib hintedEntry =
      some (if hintedEntry.interest.forwardingHint = [] then
          exampleFib.findLongestPrefixMatch hintedEntry.interest.name
        else match hintedEntry.interest.forwardingHint.find? fun del =>
            (exampleFib.findLongestPrefixMatch del.name).nextHops ≠ [] with
          | some del => exampleFib.findLongestPrefixMatch del.name
          | none => exampleFib.rootEntry) :=
  ⟨by decide,fun _ => rfl,lookupFib_spec _ exampleFib (by decide) hintedEntry fun _ => rfl⟩

end Strategy

end MwNfd
