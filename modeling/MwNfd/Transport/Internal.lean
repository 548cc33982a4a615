import Mathlib.Data.List.Nodup
import Mathlib.Logic.Function.Basic

/-! The in-process face pair: a client transport points at a forwarder transport and subscribes
to its `afterStateChange` signal, and the forwarder transport points back at its peer. The
results are invariants over every run of connects, teardowns and closes. -/

namespace MwNfd
namespace Internal

inductive TransportState
  | up | down | closing | failed | closed
  deriving DecidableEq, Repr

/-- `InternalClientTransport`: `m_forwarder`, and the forwarder transport whose signal the
scoped connection `m_fwTransportStateConn` is connected to. -/
structure Client where
  forwarder : Option Nat
  conn : Option Nat
  deriving DecidableEq, Repr

/-- `InternalForwarderTransport`: `m_peer`, the transport state, and the clients whose
handlers are connected to `afterStateChange`, in connection order. -/
structure Forwarder where
  peer : Option Nat
  state : TransportState
  slots : List Nat
  deriving DecidableEq, Repr

/-- The live clients by address (`none`: destroyed or never made) and the forwarder
transports. -/
structure State where
  clients : Nat → Option Client
  forwarders : Nat → Forwarder

namespace State

def modifyClient (s : State) (c : Nat) (h : Client → Client) : State :=
  { s with clients := Function.update s.clients c ((s.clients c).map h) }

def modifyForwarder (s : State) (f : Nat) (h : Forwarder → Forwarder) : State :=
  { s with forwarders := Function.update s.forwarders f (h (s.forwarders f)) }

@[simp] theorem modifyClient_clients (s : State) (c d : Nat) (h : Client → Client) :
    (s.modifyClient c h).clients d = if d = c then (s.clients c).map h else s.clients d := by
  simp [modifyClient,Function.update_apply]

@[simp] theorem modifyClient_forwarders (s : State) (c : Nat) (h : Client → Client) :
    (s.modifyClient c h).forwarders = s.forwarders := rfl

@[simp] theorem modifyForwarder_forwarders (s : State) (f g : Nat) (h : Forwarder → Forwarder) :
    (s.modifyForwarder f h).forwarders g = if g = f then h (s.forwarders f) else s.forwarders g := by
  simp [modifyForwarder,Function.update_apply]

@[simp] theorem modifyForwarder_clients (s : State) (f : Nat) (h : Forwarder → Forwarder) :
    (s.modifyForwarder f h).clients = s.clients := rfl

def setPeer (s : State) (f : Nat) (peer : Option Nat) : State :=
  s.modifyForwarder f fun fw => { fw with peer := peer }

def setForwarder (s : State) (c : Nat) (forwarder : Option Nat) : State :=
  s.modifyClient c fun cl => { cl with forwarder := forwarder }

/-- `m_fwTransportStateConn.disconnect()`: the client's slot leaves the signal it is on. -/
def disconnect (s : State) (c : Nat) : State :=
  match (s.clients c).bind Client.conn with
  | some f =>
    (s.modifyClient c fun cl => { cl with conn := none }).modifyForwarder f
      fun fw => { fw with slots := fw.slots.erase c }
  | none => s

/-- `m_fwTransportStateConn = m_forwarder->afterStateChange.connect(...)`: the scoped
connection drops its old slot and holds a new one on `f`. -/
def connect (s : State) (c f : Nat) : State :=
  ((s.disconnect c).modifyClient c fun cl => { cl with conn := some f }).modifyForwarder f
    fun fw => { fw with slots := fw.slots ++ [c] }

def connectToForwarder (s : State) (c : Nat) (forwarder : Option Nat) : State :=
  let s := match (s.clients c).bind Client.forwarder with
    | some f => (s.setPeer f none).disconnect c
    | none => s
  let s := s.setForwarder c forwarder
  match forwarder with
  | some f => (s.setPeer f (some c)).connect c f
  | none => s

/-- `~InternalClientTransport`, whose scoped connection disconnects as it goes. -/
def destroy (s : State) (c : Nat) : State :=
  let s := match (s.clients c).bind Client.forwarder with
    | some f => s.setPeer f none
    | none => s
  let s := s.disconnect c
  { s with clients := Function.update s.clients c none }

/-- A new `InternalClientTransport` at `c`, connected to nothing. -/
def create (s : State) (c : Nat) : State :=
  { s with clients := Function.update s.clients c (some ⟨none,none⟩) }

/-- `Transport::close` on a forwarder transport: the state passes through CLOSING, which
every handler ignores, to CLOSED set by `doClose`, and each handler connected at that
moment runs `connectToForwarder(nullptr)` on its client. -/
def close (s : State) (f : Nat) : State :=
  if (s.forwarders f).state = .up ∨ (s.forwarders f).state = .down then
    (s.forwarders f).slots.foldl (fun s c => s.connectToForwarder c none)
      (s.modifyForwarder f fun fw => { fw with state := .closed })
  else s

/-- The pairing invariant: a forwarder transport's peer is a live client pointing back at
it, a live client's scoped connection is on the signal of the forwarder it points at, and a
signal's slots are the clients connected to it, each once. -/
structure Inv (s : State) : Prop where
  peer_live : ∀ f c, (s.forwarders f).peer = some c →
    ∃ cl, s.clients c = some cl ∧ cl.forwarder = some f
  conn_eq : ∀ c cl, s.clients c = some cl → cl.conn = cl.forwarder
  mem_slots : ∀ f c, c ∈ (s.forwarders f).slots ↔ ∃ cl, s.clients c = some cl ∧ cl.conn = some f
  slots_nodup : ∀ f, (s.forwarders f).slots.Nodup

variable {s : State} {c : Nat} {cl : Client}

theorem Inv.erase_slots (hs : s.Inv) (hc : s.clients c = some cl) {g : Nat}
    (hg : cl.forwarder ≠ some g) : (s.forwarders g).slots.erase c = (s.forwarders g).slots :=
  List.erase_of_not_mem fun h => by
    obtain ⟨cl',hc',hconn⟩ := (hs.mem_slots g c).mp h
    rw [hc] at hc'
    cases hc'
    exact hg (hs.conn_eq c cl hc ▸ hconn)

theorem connectToForwarder_clients (hs : s.Inv) (hc : s.clients c = some cl) (fwd : Option Nat) :
    (s.connectToForwarder c fwd).clients = Function.update s.clients c (some ⟨fwd,fwd⟩) := by
  obtain ⟨old,conn⟩ := cl
  obtain rfl : conn = old := hs.conn_eq c _ hc
  funext d
  cases conn <;> cases fwd <;>
    simp [connectToForwarder,setPeer,disconnect,setForwarder,connect,hc,Function.update_apply] <;>
    split_ifs <;> simp_all

/-- What `connectToForwarder` does to a forwarder transport: the old forwarder loses its peer
and the client's slot, the new one gains both. -/
theorem connectToForwarder_forwarders (hs : s.Inv) (hc : s.clients c = some cl)
    (fwd : Option Nat) (g : Nat) :
    (s.connectToForwarder c fwd).forwarders g =
      { peer := if fwd = some g then some c
          else if cl.forwarder = some g then none else (s.forwarders g).peer,
        state := (s.forwarders g).state,
        slots := (if cl.forwarder = some g then (s.forwarders g).slots.erase c
          else (s.forwarders g).slots) ++ if fwd = some g then [c] else [] } := by
  obtain ⟨old,conn⟩ := cl
  obtain rfl : conn = old := hs.conn_eq c _ hc
  cases conn <;> cases fwd <;>
    simp [connectToForwarder,setPeer,disconnect,setForwarder,connect,hc] <;>
    split_ifs <;> subst_vars <;> simp_all

theorem connectToForwarder_peer (hs : s.Inv) (hc : s.clients c = some cl) (fwd : Option Nat)
    (g : Nat) :
    ((s.connectToForwarder c fwd).forwarders g).peer =
      if fwd = some g then some c
      else if cl.forwarder = some g then none else (s.forwarders g).peer := by
  rw [connectToForwarder_forwarders hs hc]

theorem connectToForwarder_slots (hs : s.Inv) (hc : s.clients c = some cl) (fwd : Option Nat)
    (g : Nat) :
    ((s.connectToForwarder c fwd).forwarders g).slots =
      (s.forwarders g).slots.erase c ++ if fwd = some g then [c] else [] := by
  rw [connectToForwarder_forwarders hs hc]
  by_cases h : cl.forwarder = some g
  · simp [h]
  · simp [h,hs.erase_slots hc h]

theorem Inv.connectToForwarder (hs : s.Inv) (hc : s.clients c = some cl) (fwd : Option Nat) :
    (s.connectToForwarder c fwd).Inv where
  peer_live f d h := by
    rw [connectToForwarder_peer hs hc] at h
    rw [connectToForwarder_clients hs hc]
    by_cases h1 : fwd = some f
    · rw [if_pos h1] at h
      obtain rfl := Option.some_inj.mp h
      simp [h1]
    by_cases h2 : cl.forwarder = some f
    · simp [h1,h2] at h
    · rw [if_neg h1,if_neg h2] at h
      obtain ⟨dl,hd,hf⟩ := hs.peer_live f d h
      have hdc : d ≠ c := by
        rintro rfl
        rw [hc] at hd
        cases hd
        exact h2 hf
      exact ⟨dl,by simp [hdc,hd],hf⟩
  conn_eq d dl h := by
    rw [connectToForwarder_clients hs hc,Function.update_apply] at h
    split_ifs at h
    · cases h
      rfl
    · exact hs.conn_eq d dl h
  mem_slots f d := by
    rw [connectToForwarder_slots hs hc,connectToForwarder_clients hs hc]
    by_cases hdc : d = c
    · subst hdc
      have hnot : d ∉ (s.forwarders f).slots.erase d := (hs.slots_nodup f).not_mem_erase
      split_ifs with h <;> simp [hnot,h]
    · simp [hdc,List.mem_erase_of_ne hdc,hs.mem_slots f d]
  slots_nodup f := by
    rw [connectToForwarder_slots hs hc]
    have hnot : c ∉ (s.forwarders f).slots.erase c := (hs.slots_nodup f).not_mem_erase
    split_ifs
    · exact List.nodup_append.mpr ⟨(hs.slots_nodup f).erase c,List.nodup_singleton c,
        List.disjoint_singleton.mpr hnot⟩
    · simpa using (hs.slots_nodup f).erase c

theorem connectToForwarder_dead (hc : s.clients c = none) : s.connectToForwarder c none = s := by
  obtain ⟨clients,forwarders⟩ := s
  simp only at hc
  simp [connectToForwarder,setForwarder,modifyClient,hc]

theorem Inv.connectToForwarder_none (hs : s.Inv) (c : Nat) : (s.connectToForwarder c none).Inv := by
  cases hc : s.clients c with
  | none => rwa [connectToForwarder_dead hc]
  | some cl => exact hs.connectToForwarder hc none

theorem connectToForwarder_none_clients (hs : s.Inv) (c d : Nat) :
    (s.connectToForwarder c none).clients d =
      if d = c then (s.clients c).map fun _ => ⟨none,none⟩ else s.clients d := by
  cases hc : s.clients c with
  | none => by_cases h : d = c <;> simp [h,hc,connectToForwarder_dead hc]
  | some cl => simp [connectToForwarder_clients hs hc,Function.update_apply]

theorem Inv.foldl_connectToForwarder_none (hs : s.Inv) (L : List Nat) :
    (L.foldl (fun s c => s.connectToForwarder c none) s).Inv := by
  induction L generalizing s with
  | nil => exact hs
  | cons c L ih => exact ih (hs.connectToForwarder_none c)

theorem foldl_connectToForwarder_none_clients (hs : s.Inv) (L : List Nat) (d : Nat) :
    (L.foldl (fun s c => s.connectToForwarder c none) s).clients d =
      if d ∈ L then (s.clients d).map fun _ => ⟨none,none⟩ else s.clients d := by
  induction L generalizing s with
  | nil => simp
  | cons c L ih =>
    rw [List.foldl_cons,ih (hs.connectToForwarder_none c),connectToForwarder_none_clients hs]
    by_cases hdc : d = c
    · subst hdc
      simp [Function.comp_def]
    · simp [hdc]

theorem destroy_clients (c : Nat) : (s.destroy c).clients = Function.update s.clients c none := by
  simp only [destroy]
  split <;> simp only [disconnect,setPeer,modifyForwarder_clients] <;> split <;>
    simp [modifyClient,Function.update_idem]

/-- What the teardown of a client does to a forwarder transport: the one it pointed at loses
its peer and the client's slot. -/
theorem destroy_forwarders (hs : s.Inv) (hc : s.clients c = some cl) (g : Nat) :
    (s.destroy c).forwarders g =
      if cl.forwarder = some g then
        { s.forwarders g with peer := none, slots := (s.forwarders g).slots.erase c }
      else s.forwarders g := by
  obtain ⟨old,conn⟩ := cl
  obtain rfl : conn = old := hs.conn_eq c _ hc
  cases conn <;> simp [destroy,setPeer,disconnect,hc]
  split_ifs <;> subst_vars <;> simp_all

theorem destroy_peer (hs : s.Inv) (hc : s.clients c = some cl) (g : Nat) :
    ((s.destroy c).forwarders g).peer =
      if cl.forwarder = some g then none else (s.forwarders g).peer := by
  rw [destroy_forwarders hs hc]
  split_ifs <;> rfl

theorem destroy_slots (hs : s.Inv) (hc : s.clients c = some cl) (g : Nat) :
    ((s.destroy c).forwarders g).slots = (s.forwarders g).slots.erase c := by
  rw [destroy_forwarders hs hc]
  split_ifs with h
  · rfl
  · exact (hs.erase_slots hc h).symm

theorem Inv.destroy (hs : s.Inv) (hc : s.clients c = some cl) : (s.destroy c).Inv where
  peer_live f d h := by
    rw [destroy_peer hs hc] at h
    rw [destroy_clients]
    split_ifs at h with h1
    obtain ⟨dl,hd,hf⟩ := hs.peer_live f d h
    have hdc : d ≠ c := by
      rintro rfl
      rw [hc] at hd
      cases hd
      exact h1 hf
    exact ⟨dl,by simp [hdc,hd],hf⟩
  conn_eq d dl h := by
    rw [destroy_clients,Function.update_apply] at h
    split_ifs at h
    exact hs.conn_eq d dl h
  mem_slots f d := by
    rw [destroy_slots hs hc,destroy_clients]
    by_cases hdc : d = c
    · subst hdc
      simp [(hs.slots_nodup f).not_mem_erase]
    · simp [hdc,List.mem_erase_of_ne hdc,hs.mem_slots f d]
  slots_nodup f := by
    rw [destroy_slots hs hc]
    exact (hs.slots_nodup f).erase c

@[simp] theorem create_clients (c : Nat) :
    (s.create c).clients = Function.update s.clients c (some ⟨none,none⟩) := rfl

@[simp] theorem create_forwarders (c : Nat) : (s.create c).forwarders = s.forwarders := rfl

theorem Inv.create (hs : s.Inv) (hc : s.clients c = none) : (s.create c).Inv where
  peer_live f d h := by
    obtain ⟨dl,hd,hf⟩ := hs.peer_live f d h
    have hdc : d ≠ c := by rintro rfl; simp [hc] at hd
    exact ⟨dl,by simp [hdc,hd],hf⟩
  conn_eq d dl h := by
    rw [create_clients,Function.update_apply] at h
    split_ifs at h
    · cases h
      rfl
    · exact hs.conn_eq d dl h
  mem_slots f d := by
    rw [create_clients,create_forwarders,Function.update_apply]
    split_ifs with hdc
    · subst hdc
      simp only [Option.some.injEq,exists_eq_left',reduceCtorEq,iff_false]
      intro h
      obtain ⟨_,hd,_⟩ := (hs.mem_slots f d).mp h
      simp [hc] at hd
    · exact hs.mem_slots f d
  slots_nodup := hs.slots_nodup

theorem Inv.setState (hs : s.Inv) (f : Nat) (st : TransportState) :
    (s.modifyForwarder f fun fw => { fw with state := st }).Inv := by
  have hfw : ∀ g, ((s.modifyForwarder f fun fw => { fw with state := st }).forwarders g).peer =
      (s.forwarders g).peer ∧
      ((s.modifyForwarder f fun fw => { fw with state := st }).forwarders g).slots =
      (s.forwarders g).slots := fun g => by
    simp only [modifyForwarder_forwarders]
    split_ifs with h <;> simp [h]
  exact ⟨fun g d h => hs.peer_live g d ((hfw g).1 ▸ h),hs.conn_eq,
    fun g d => (hfw g).2 ▸ hs.mem_slots g d,fun g => (hfw g).2 ▸ hs.slots_nodup g⟩

theorem Inv.close (hs : s.Inv) (f : Nat) : (s.close f).Inv := by
  unfold State.close
  split_ifs
  · exact (hs.setState f .closed).foldl_connectToForwarder_none _
  · exact hs

/-- Once a forwarder transport closes, no client points at it. -/
theorem close_clients (hs : s.Inv) {f : Nat}
    (hup : (s.forwarders f).state = .up ∨ (s.forwarders f).state = .down) (d : Nat) (dl : Client)
    (hd : (s.close f).clients d = some dl) : dl.forwarder ≠ some f := by
  unfold State.close at hd
  rw [if_pos hup,foldl_connectToForwarder_none_clients (hs.setState f .closed)] at hd
  simp only [modifyForwarder_forwarders,if_true,modifyForwarder_clients] at hd
  split_ifs at hd with hmem
  · obtain ⟨_,_,rfl⟩ := Option.map_eq_some'.mp hd
    simp
  · intro hf
    exact hmem ((hs.mem_slots f d).mpr ⟨dl,hd,(hs.conn_eq d dl hd).trans hf⟩)

/-- Every client that points at a forwarder transport is that transport's peer. -/
def Converse (s : State) : Prop :=
  ∀ c cl f, s.clients c = some cl → cl.forwarder = some f → (s.forwarders f).peer = some c

theorem Converse.unique (hv : s.Converse) {c d : Nat} {cl dl : Client} {f : Nat}
    (hc : s.clients c = some cl) (hd : s.clients d = some dl) (hcf : cl.forwarder = some f)
    (hdf : dl.forwarder = some f) : c = d :=
  Option.some_inj.mp ((hv c cl f hc hcf).symm.trans (hv d dl f hd hdf))

theorem Converse.connectToForwarder (hs : s.Inv) (hv : s.Converse) (hc : s.clients c = some cl)
    (fwd : Option Nat)
    (hfree : ∀ f, fwd = some f → ∀ d dl, d ≠ c → s.clients d = some dl → dl.forwarder ≠ some f) :
    (s.connectToForwarder c fwd).Converse := by
  intro d dl g hd hg
  rw [connectToForwarder_peer hs hc]
  rw [connectToForwarder_clients hs hc,Function.update_apply] at hd
  split_ifs at hd with hdc
  · subst hdc
    cases hd
    exact if_pos hg
  · have h1 : fwd ≠ some g := fun h => hfree g h d dl hdc hd hg
    have h2 : cl.forwarder ≠ some g := fun h => hdc (hv.unique hd hc hg h)
    simp [h1,h2,hv d dl g hd hg]

theorem Converse.connectToForwarder_none (hs : s.Inv) (hv : s.Converse) (c : Nat) :
    (s.connectToForwarder c none).Converse := by
  cases hc : s.clients c with
  | none => rwa [connectToForwarder_dead hc]
  | some cl => exact hv.connectToForwarder hs hc none (by simp)

theorem Converse.destroy (hs : s.Inv) (hv : s.Converse) (hc : s.clients c = some cl) :
    (s.destroy c).Converse := by
  intro d dl g hd hg
  rw [destroy_peer hs hc]
  rw [destroy_clients,Function.update_apply] at hd
  split_ifs at hd with hdc
  have h2 : cl.forwarder ≠ some g := fun h => hdc (hv.unique hd hc hg h)
  simp [h2,hv d dl g hd hg]

theorem Converse.setState (hv : s.Converse) (f : Nat) (st : TransportState) :
    (s.modifyForwarder f fun fw => { fw with state := st }).Converse := fun d dl g hd hg => by
  have := hv d dl g hd hg
  simp only [modifyForwarder_forwarders]
  split_ifs with h
  · subst h
    exact this
  · exact this

theorem Converse.foldl_connectToForwarder_none (hs : s.Inv) (hv : s.Converse) (L : List Nat) :
    (L.foldl (fun s c => s.connectToForwarder c none) s).Converse := by
  induction L generalizing s with
  | nil => exact hv
  | cons c L ih => exact ih (hs.connectToForwarder_none c) (hv.connectToForwarder_none hs c)

theorem Converse.close (hs : s.Inv) (hv : s.Converse) (f : Nat) : (s.close f).Converse := by
  unfold State.close
  split_ifs
  · exact (hv.setState f .closed).foldl_connectToForwarder_none (hs.setState f .closed) _
  · exact hv

theorem foldl_connectToForwarder_none_state (hs : s.Inv) (L : List Nat) (g : Nat) :
    ((L.foldl (fun s c => s.connectToForwarder c none) s).forwarders g).state =
      (s.forwarders g).state := by
  induction L generalizing s with
  | nil => rfl
  | cons c L ih =>
    rw [List.foldl_cons,ih (hs.connectToForwarder_none c)]
    cases hc : s.clients c with
    | none => rw [connectToForwarder_dead hc]
    | some cl => rw [connectToForwarder_forwarders hs hc]

/-- No live client points at a closed forwarder transport. -/
def PointsAtOpen (s : State) : Prop :=
  ∀ c cl f, s.clients c = some cl → cl.forwarder = some f → (s.forwarders f).state ≠ .closed

theorem PointsAtOpen.create (hp : s.PointsAtOpen) (c : Nat) : (s.create c).PointsAtOpen := by
  intro d dl g hd hg
  rw [create_clients,Function.update_apply] at hd
  split_ifs at hd
  · cases hd
    cases hg
  · exact hp d dl g hd hg

theorem PointsAtOpen.connectToForwarder (hs : s.Inv) (hp : s.PointsAtOpen)
    (hc : s.clients c = some cl) {fwd : Option Nat}
    (hopen : ∀ f, fwd = some f → (s.forwarders f).state ≠ .closed) :
    (s.connectToForwarder c fwd).PointsAtOpen := by
  intro d dl g hd hg
  rw [connectToForwarder_forwarders hs hc]
  rw [connectToForwarder_clients hs hc,Function.update_apply] at hd
  split_ifs at hd
  · cases hd
    exact hopen g hg
  · exact hp d dl g hd hg

theorem PointsAtOpen.destroy (hs : s.Inv) (hp : s.PointsAtOpen) (hc : s.clients c = some cl) :
    (s.destroy c).PointsAtOpen := by
  intro d dl g hd hg
  rw [destroy_clients,Function.update_apply] at hd
  split_ifs at hd
  rw [destroy_forwarders hs hc]
  split_ifs <;> exact hp d dl g hd hg

/-- A close leaves no client on the transport it closes, and the others' states as they were. -/
theorem PointsAtOpen.close (hs : s.Inv) (hp : s.PointsAtOpen) (f : Nat) :
    (s.close f).PointsAtOpen := by
  intro d dl g hd hg
  by_cases hup : (s.forwarders f).state = .up ∨ (s.forwarders f).state = .down
  · have hgf : g ≠ f := fun h => close_clients hs hup d dl hd (h ▸ hg)
    unfold State.close at hd ⊢
    rw [if_pos hup] at hd ⊢
    rw [foldl_connectToForwarder_none_state (hs.setState f .closed),modifyForwarder_forwarders,
      if_neg hgf]
    rw [foldl_connectToForwarder_none_clients (hs.setState f .closed),modifyForwarder_clients] at hd
    split_ifs at hd
    · obtain ⟨_,_,rfl⟩ := Option.map_eq_some'.mp hd
      cases hg
    · exact hp d dl g hd hg
  · unfold State.close at hd ⊢
    rw [if_neg hup] at hd ⊢
    exact hp d dl g hd hg

end State

/-- The operations of the pairing: a new client, `connectToForwarder` on a live client, the
teardown of a live client, and the close of a forwarder transport. -/
inductive Event
  | create (c : Nat)
  | connectToForwarder (c : Nat) (forwarder : Option Nat)
  | destroy (c : Nat)
  | close (f : Nat)
  deriving DecidableEq, Repr

/-- One operation; `none` where it does not apply. -/
def step (s : State) : Event → Option State
  | .create c => if s.clients c = none then some (s.create c) else none
  | .connectToForwarder c fwd =>
    if (s.clients c).isSome then some (s.connectToForwarder c fwd) else none
  | .destroy c => if (s.clients c).isSome then some (s.destroy c) else none
  | .close f => some (s.close f)

def init : State := ⟨fun _ => none,fun _ => ⟨none,.up,[]⟩⟩

/-- The states reached by runs whose every operation `allowed` admits. -/
inductive Reachable (allowed : State → Event → Prop) : State → Prop
  | init : Reachable allowed init
  | step {s s' : State} {ev : Event} :
    Reachable allowed s → allowed s ev → step s ev = some s' → Reachable allowed s'

/-- The runs the converse is promised for: no client connects to a forwarder transport
another live client points at. -/
def Exclusive (s : State) : Event → Prop
  | .connectToForwarder c (some f) => ∀ d dl, d ≠ c → s.clients d = some dl → dl.forwarder ≠ some f
  | _ => True

/-- The runs the close property is promised for: no client connects to a forwarder transport
that has closed. -/
def NoConnectToClosed (s : State) : Event → Prop
  | .connectToForwarder _ (some f) => (s.forwarders f).state ≠ .closed
  | _ => True

/-- What one operation can do. -/
theorem step_eq_some {s s' : State} {ev : Event} (h : step s ev = some s') :
    (∃ c, ev = .create c ∧ s.clients c = none ∧ s' = s.create c) ∨
    (∃ c cl fwd, ev = .connectToForwarder c fwd ∧ s.clients c = some cl ∧
      s' = s.connectToForwarder c fwd) ∨
    (∃ c cl, ev = .destroy c ∧ s.clients c = some cl ∧ s' = s.destroy c) ∨
    (∃ f, ev = .close f ∧ s' = s.close f) := by
  cases ev with
  | create c =>
    simp only [step] at h
    split_ifs at h with hc
    exact .inl ⟨c,rfl,hc,(Option.some_inj.mp h).symm⟩
  | connectToForwarder c fwd =>
    simp only [step] at h
    split_ifs at h with hc
    obtain ⟨cl,hcl⟩ := Option.isSome_iff_exists.mp hc
    exact .inr (.inl ⟨c,cl,fwd,rfl,hcl,(Option.some_inj.mp h).symm⟩)
  | destroy c =>
    simp only [step] at h
    split_ifs at h with hc
    obtain ⟨cl,hcl⟩ := Option.isSome_iff_exists.mp hc
    exact .inr (.inr (.inl ⟨c,cl,rfl,hcl,(Option.some_inj.mp h).symm⟩))
  | close f => exact .inr (.inr (.inr ⟨f,rfl,(Option.some_inj.mp h).symm⟩))

theorem init_inv : init.Inv :=
  ⟨by simp [init],by simp [init],by simp [init],by simp [init]⟩

theorem step_inv {s s' : State} {ev : Event} (hs : s.Inv) (h : step s ev = some s') : s'.Inv := by
  rcases step_eq_some h with ⟨c,-,hc,rfl⟩ | ⟨c,cl,fwd,-,hc,rfl⟩ | ⟨c,cl,-,hc,rfl⟩ | ⟨f,-,rfl⟩
  · exact hs.create hc
  · exact hs.connectToForwarder hc fwd
  · exact hs.destroy hc
  · exact hs.close f

theorem reachable_inv {allowed : State → Event → Prop} {s : State} (h : Reachable allowed s) :
    s.Inv := by
  induction h with
  | init => exact init_inv
  | step _ _ hstep ih => exact step_inv ih hstep

theorem step_converse {s s' : State} {ev : Event} (hs : s.Inv) (hv : s.Converse)
    (hex : Exclusive s ev) (h : step s ev = some s') : s'.Converse := by
  rcases step_eq_some h with ⟨c,-,hc,rfl⟩ | ⟨c,cl,fwd,rfl,hc,rfl⟩ | ⟨c,cl,-,hc,rfl⟩ | ⟨f,-,rfl⟩
  · intro d dl g hd hg
    rw [State.create_clients,Function.update_apply] at hd
    split_ifs at hd with hdc
    · cases hd
      cases hg
    · exact hv d dl g hd hg
  · refine hv.connectToForwarder hs hc fwd fun f hf => ?_
    subst hf
    exact hex
  · exact hv.destroy hs hc
  · exact hv.close hs f

theorem reachable_converse {s : State} (h : Reachable Exclusive s) : s.Converse := by
  induction h with
  | init => simp [State.Converse,init]
  | step hr hex hstep ih => exact step_converse (reachable_inv hr) ih hex hstep

theorem step_pointsAtOpen {s s' : State} {ev : Event} (hs : s.Inv) (hp : s.PointsAtOpen)
    (hok : NoConnectToClosed s ev) (h : step s ev = some s') : s'.PointsAtOpen := by
  rcases step_eq_some h with ⟨c,-,-,rfl⟩ | ⟨c,cl,fwd,rfl,hc,rfl⟩ | ⟨c,cl,-,hc,rfl⟩ | ⟨f,-,rfl⟩
  · exact hp.create c
  · refine hp.connectToForwarder hs hc fun f hf => ?_
    subst hf
    exact hok
  · exact hp.destroy hs hc
  · exact hp.close hs f

theorem reachable_pointsAtOpen {s : State} (h : Reachable NoConnectToClosed s) : s.PointsAtOpen := by
  induction h with
  | init => simp [State.PointsAtOpen,init]
  | step hr hok hstep ih => exact step_pointsAtOpen (reachable_inv hr) ih hok hstep

/-- `connectToForwarder` does not look at the forwarder transport's state: a client created,
its forwarder transport closed, and the client then connected to it points at a closed
transport. -/
theorem connectToForwarder_after_close :
    ∃ s, Reachable (fun _ _ => True) s ∧ (s.forwarders 0).state = .closed ∧
      ∃ cl, s.clients 0 = some cl ∧ cl.forwarder = some 0 :=
  ⟨_,@Reachable.step _ _ _ (.connectToForwarder 0 (some 0))
    (@Reachable.step _ _ _ (.close 0) (@Reachable.step _ _ _ (.create 0) .init trivial rfl) trivial rfl)
    trivial rfl,rfl,_,rfl,rfl⟩

/-- Over every run: a forwarder transport's peer is a live client that points back at it,
so `doSend` reaches no destroyed or disconnected client; over runs where no two clients
connect to one forwarder transport at once, every client that points at a forwarder
transport is its peer; a close leaves no client pointing at the transport it closes; and
over runs that connect no client to a closed forwarder transport, no client points at a
closed one at any later moment. -/
theorem pairing_invariant :
    (∀ s, Reachable (fun _ _ => True) s → ∀ f c, (s.forwarders f).peer = some c →
        ∃ cl, s.clients c = some cl ∧ cl.forwarder = some f) ∧
    (∀ s, Reachable Exclusive s → ∀ c cl f, s.clients c = some cl → cl.forwarder = some f →
        (s.forwarders f).peer = some c) ∧
    (∀ s f, Reachable (fun _ _ => True) s →
        ((s.forwarders f).state = .up ∨ (s.forwarders f).state = .down) →
        ∀ c cl, (s.close f).clients c = some cl → cl.forwarder ≠ some f) ∧
    (∀ s, Reachable NoConnectToClosed s → ∀ c cl f, s.clients c = some cl →
        cl.forwarder = some f → (s.forwarders f).state ≠ .closed) :=
  ⟨fun _ hr => (reachable_inv hr).peer_live,fun _ hr => reachable_converse hr,
    fun _ _ hr hup => State.close_clients (reachable_inv hr) hup,
    fun _ hr => reachable_pointsAtOpen hr⟩

end Internal
end MwNfd
