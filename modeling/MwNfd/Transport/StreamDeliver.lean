import MwNfd.Transport.StreamReceive
import MwNfd.Transport.StreamWrite

/-! The receive path over whole runs without `pause` or `close`: at most one receive is
outstanding, and the blocks delivered, the bytes held, the bytes received for waiting handlers
and those still on the socket are exactly what the peer sent. -/

namespace MwNfd
namespace StreamTransport

def Op.isReceive : Op → Bool
  | .receive .. => true
  | _ => false

theorem Op.isReceive_of_onSocket_eq_false {op : Op} (h : op.onSocket = false) :
    op.isReceive = false := by
  cases op <;> simp_all [Op.onSocket,Op.isReceive]

def Event.peerSent : Event → List UInt8
  | .peerSends bytes => bytes
  | _ => []

/-- The bytes a run has the peer send, in order. -/
def peerStream (es : List Event) : List UInt8 := es.flatMap Event.peerSent

namespace Impl

def nextReceive (s : Impl) (maxPacketSize : Nat) : Op :=
  .receive s.inputBufferSize (maxPacketSize - s.inputBufferSize)

def receiveHandlers (s : Impl) : List (Op × Result) := s.handlers.filter fun x => x.1.isReceive

/-- The bytes completed receives have written that their handlers have not taken yet. -/
def unhandled (s : Impl) : List UInt8 :=
  s.receiveHandlers.flatMap fun
    | (.receive start _, .success n) => read s.inputBuffer start n
    | _ => []

@[simp] theorem nextReceive_eq (s : Impl) (maxPacketSize : Nat) :
    s.nextReceive maxPacketSize = .receive s.inputBufferSize (maxPacketSize - s.inputBufferSize) :=
  rfl

theorem ops_filter_isReceive (s : Impl) :
    s.ops.filter Op.isReceive = s.pending.filter Op.isReceive ++ s.receiveHandlers.map Prod.fst := by
  simp [ops,receiveHandlers,List.filter_map,Function.comp_def]

theorem receiveHandlers_eq_nil {s : Impl} (h : s.ops.filter Op.isReceive = []) :
    s.receiveHandlers = [] := by
  rw [ops_filter_isReceive,List.append_eq_nil] at h
  exact List.map_eq_nil_iff.mp h.2

theorem startOp_eq (s : Impl) (op : Op) :
    s.startOp op = { s with handlers := s.handlers ++ [(op,.error)] } ∨
      s.startOp op = { s with pending := s.pending ++ [op] } := by
  unfold startOp
  split
  · exact .inl rfl
  · exact .inr rfl

end Impl

open Impl

variable (F : Framing) (maxPacketSize : Nat)

/-- The receive path's invariant, for runs in which the peer has sent `stream`: the blocks
delivered are elements no longer than the buffer, the bytes held start none, at most the one
receive `asyncReceive` starts is outstanding, and nothing the peer sent is lost, reordered or
taken twice. -/
structure Delivering (stream : List UInt8) (s : Impl) : Prop where
  elements : ∀ b ∈ s.delivered, F.IsElement b ∧ b.length ≤ maxPacketSize
  held : F.fromBuffer s.held = none
  size_lt : s.inputBufferSize < maxPacketSize
  idle : s.isReceiving = false → s.inputBufferSize = 0
  receives : s.ops.filter Op.isReceive = if s.isReceiving then [s.nextReceive maxPacketSize] else []
  results : ∀ x ∈ s.receiveHandlers,
    x.2 = .error ∨ ∃ n, x.2 = .success n ∧ n ≤ maxPacketSize - s.inputBufferSize
  account : s.delivered.flatten ++ s.held ++ s.unhandled ++ s.peerBytes = stream

namespace Delivering

variable {F maxPacketSize} {stream : List UInt8} {s : Impl}

theorem receives_of_perm (h : Delivering F maxPacketSize stream s) {s' : Impl}
    (hz : s'.inputBufferSize = s.inputBufferSize) (hr : s'.isReceiving = s.isReceiving)
    (hops : List.Perm (s'.ops.filter Op.isReceive) (s.ops.filter Op.isReceive)) :
    s'.ops.filter Op.isReceive = if s'.isReceiving then [s'.nextReceive maxPacketSize] else [] := by
  have hrec := h.receives
  rw [hr,nextReceive_eq,hz,← nextReceive_eq]
  cases hc : s.isReceiving <;> simp only [hc,Bool.false_eq_true,↓reduceIte] at hrec ⊢
  · exact (hrec ▸ hops).eq_nil
  · exact List.perm_singleton.mp (hrec ▸ hops)

theorem frame (h : Delivering F maxPacketSize stream s) {s' : Impl}
    (hd : s'.delivered = s.delivered) (hb : s'.inputBuffer = s.inputBuffer)
    (hz : s'.inputBufferSize = s.inputBufferSize) (hr : s'.isReceiving = s.isReceiving)
    (hp : s'.peerBytes = s.peerBytes)
    (hops : List.Perm (s'.ops.filter Op.isReceive) (s.ops.filter Op.isReceive))
    (hh : s'.receiveHandlers = s.receiveHandlers) : Delivering F maxPacketSize stream s' := by
  have hheld : s'.held = s.held := by simp only [Impl.held,hb,hz]
  have hun : s'.unhandled = s.unhandled := by simp only [unhandled,hh,hb]
  exact ⟨hd ▸ h.elements,hheld ▸ h.held,hz ▸ h.size_lt,by rw [hr,hz]; exact h.idle,
    h.receives_of_perm hz hr hops,by rw [hh,hz]; exact h.results,
    by rw [hd,hheld,hun,hp]; exact h.account⟩

theorem congr (h : Delivering F maxPacketSize stream s) {s' : Impl}
    (hd : s'.delivered = s.delivered) (hb : s'.inputBuffer = s.inputBuffer)
    (hz : s'.inputBufferSize = s.inputBufferSize) (hr : s'.isReceiving = s.isReceiving)
    (hp : s'.peerBytes = s.peerBytes) (hpe : s'.pending = s.pending)
    (hh : s'.handlers = s.handlers) : Delivering F maxPacketSize stream s' :=
  h.frame hd hb hz hr hp (by simp only [ops,hpe,hh]; rfl) (by simp only [receiveHandlers,hh])

theorem startOp (h : Delivering F maxPacketSize stream s) {op : Op} (hop : op.isReceive = false) :
    Delivering F maxPacketSize stream (s.startOp op) := by
  have hperm := (ops_startOp s op).filter Op.isReceive
  rw [List.filter_append,List.filter_singleton,hop,cond_false,List.append_nil] at hperm
  rcases startOp_eq s op with he | he <;> rw [he] at hperm ⊢ <;>
    refine h.frame rfl rfl rfl rfl rfl hperm ?_ <;>
    simp [receiveHandlers,hop]

theorem cancelTimer (h : Delivering F maxPacketSize stream s) :
    Delivering F maxPacketSize stream s.cancelTimer := by
  refine h.frame rfl rfl rfl rfl rfl ((ops_cancelOps s _).filter _) ?_
  simp only [receiveHandlers,Impl.cancelTimer,Impl.cancelOps,List.filter_append,
    List.append_right_eq_self]
  refine List.filter_eq_nil_iff.mpr fun x hx => ?_
  obtain ⟨op,hop,rfl⟩ := List.mem_map.mp hx
  have hsock : op.onSocket = false := by simpa using (List.mem_filter.mp hop).2
  simp [Op.isReceive_of_onSocket_eq_false hsock]

theorem dropHandler (h : Delivering F maxPacketSize stream s) {op : Op} {r : Result}
    {rest : List (Op × Result)} (hh : s.handlers = (op,r) :: rest) (hop : op.isReceive = false) :
    Delivering F maxPacketSize stream { s with handlers := rest } := by
  have hperm := (ops_dropHandler hh).filter Op.isReceive
  rw [List.filter_append,List.filter_singleton,hop,cond_false,List.append_nil] at hperm
  exact h.frame rfl rfl rfl rfl rfl hperm (by simp [receiveHandlers,hh,hop])

theorem asyncReceive {s : Impl} (hr : s.isReceiving = true) (h0 : s.ops.filter Op.isReceive = [])
    (he : ∀ b ∈ s.delivered, F.IsElement b ∧ b.length ≤ maxPacketSize)
    (hheld : F.fromBuffer s.held = none) (hlt : s.inputBufferSize < maxPacketSize)
    (ha : s.delivered.flatten ++ s.held ++ s.peerBytes = stream) :
    Delivering F maxPacketSize stream (s.asyncReceive maxPacketSize) := by
  have hrh : s.handlers.filter (fun x => x.1.isReceive) = [] := receiveHandlers_eq_nil h0
  have hperm := (ops_startOp s (s.nextReceive maxPacketSize)).filter Op.isReceive
  rw [List.filter_append,h0,List.nil_append,List.filter_singleton] at hperm
  rw [Impl.asyncReceive_of_le _ _ hlt.le]
  change Delivering F maxPacketSize stream (s.startOp (s.nextReceive maxPacketSize))
  rcases startOp_eq s (s.nextReceive maxPacketSize) with hs | hs <;> rw [hs] at hperm ⊢
  · have hrh' : ({ s with handlers := s.handlers ++ [(s.nextReceive maxPacketSize,.error)] } :
        Impl).receiveHandlers = [(s.nextReceive maxPacketSize,.error)] := by
      rw [receiveHandlers]
      dsimp only
      rw [List.filter_append,hrh]
      rfl
    refine ⟨he,hheld,hlt,by simp [hr],?_,?_,?_⟩
    · simpa [hr,Op.isReceive] using hperm
    · rw [hrh',List.forall_mem_singleton]
      exact .inl rfl
    · rw [unhandled,hrh']
      simpa using ha
  · have hrh' : ({ s with pending := s.pending ++ [s.nextReceive maxPacketSize] } :
        Impl).receiveHandlers = [] := hrh
    refine ⟨he,hheld,hlt,by simp [hr],by simpa [hr,Op.isReceive] using hperm,
      fun x hx => absurd (hrh' ▸ hx) (List.not_mem_nil x),
      by rw [unhandled,hrh']; simpa using ha⟩

theorem pending_receive (h : Delivering F maxPacketSize stream s) {op : Op} (hop : op ∈ s.pending)
    (hr : op.isReceive = true) :
    s.isReceiving = true ∧ op = s.nextReceive maxPacketSize ∧ s.receiveHandlers = [] := by
  have hmem : op ∈ s.pending.filter Op.isReceive := List.mem_filter.mpr ⟨hop,hr⟩
  have hrec := h.receives
  rw [ops_filter_isReceive] at hrec
  cases hc : s.isReceiving <;> simp only [hc,Bool.false_eq_true,↓reduceIte] at hrec
  · exact absurd (hrec ▸ List.mem_append_left _ hmem) (List.not_mem_nil op)
  · have hlen := congrArg List.length hrec
    simp only [List.length_append,List.length_map,List.length_singleton] at hlen
    have hnil : s.receiveHandlers = [] := List.length_eq_zero.mp (by
      have := List.length_pos_of_mem hmem
      omega)
    rw [hnil,List.map_nil,List.append_nil] at hrec
    exact ⟨rfl,List.mem_singleton.mp (hrec ▸ hmem),hnil⟩

theorem handler_receive (h : Delivering F maxPacketSize stream s) {op : Op} {r : Result}
    {rest : List (Op × Result)} (hh : s.handlers = (op,r) :: rest) (hr : op.isReceive = true) :
    s.isReceiving = true ∧ op = s.nextReceive maxPacketSize ∧ s.pending.filter Op.isReceive = [] ∧
      rest.filter (fun x => x.1.isReceive) = [] ∧
      (r = .error ∨ ∃ n, r = .success n ∧ n ≤ maxPacketSize - s.inputBufferSize) := by
  have hrh : s.receiveHandlers = (op,r) :: rest.filter (fun x => x.1.isReceive) := by
    simp [receiveHandlers,hh,hr]
  have hres := h.results (op,r) (hrh ▸ List.mem_cons_self _ _)
  have hrec := h.receives
  rw [ops_filter_isReceive,hrh] at hrec
  have hlen := congrArg List.length hrec
  cases hc : s.isReceiving <;>
    simp only [hc,Bool.false_eq_true,↓reduceIte,List.length_append,List.length_map,
      List.length_cons,List.length_singleton,List.length_nil] at hrec hlen
  · omega
  · have hp : s.pending.filter Op.isReceive = [] := List.length_eq_zero.mp (by omega)
    have hq : rest.filter (fun x => x.1.isReceive) = [] := List.length_eq_zero.mp (by omega)
    rw [hp,hq] at hrec
    exact ⟨rfl,by simpa using hrec,hp,hq,hres⟩

theorem asyncWrite (h : Delivering F maxPacketSize stream s) :
    Delivering F maxPacketSize stream s.asyncWrite := by
  unfold Impl.asyncWrite
  split
  · exact h.startOp rfl
  · exact h

theorem resume (h : Delivering F maxPacketSize stream s) :
    Delivering F maxPacketSize stream (s.resume maxPacketSize) := by
  unfold Impl.resume
  split_ifs with hc hr
  · exact h
  · have hr' : s.isReceiving = false := by simpa using hr
    have h0 : s.ops.filter Op.isReceive = [] := by simpa [hr'] using h.receives
    have hz := h.idle hr'
    have hun : s.unhandled = [] := by rw [unhandled,receiveHandlers_eq_nil h0]; rfl
    have hheld : s.held = [] := by rw [Impl.held,hz]; rfl
    refine asyncReceive rfl h0 h.elements Framing.fromBuffer_nil
      (show 0 < maxPacketSize by have := h.size_lt; omega) ?_
    have ha := h.account
    rw [hun,hheld] at ha
    simpa using ha
  · exact h

theorem send (h : Delivering F maxPacketSize stream s) (sequence : BlockSequence) :
    Delivering F maxPacketSize stream (s.send sequence) := by
  have h₁ : Delivering F maxPacketSize stream
      { s with
        transmissionQueue := s.transmissionQueue ++ [(s.nextItem,sequence)]
        nextItem := s.nextItem + 1 } :=
    h.congr rfl rfl rfl rfl rfl rfl rfl
  unfold Impl.send
  dsimp only
  split_ifs
  · exact h₁.asyncWrite
  · exact h₁

theorem connect (h : Delivering F maxPacketSize stream s) (ht : s.connect.thrown = none) :
    Delivering F maxPacketSize stream s.connect := by
  have h₁ : Delivering F maxPacketSize stream
      (({ s with isConnecting := true } : Impl).cancelTimer.startOp .wait) :=
    (Delivering.cancelTimer (h.congr rfl rfl rfl rfl rfl rfl rfl :
      Delivering F maxPacketSize stream { s with isConnecting := true })).startOp rfl
  unfold Impl.connect at ht ⊢
  split_ifs at ht ⊢ with hc
  · exact h
  generalize (({ s with isConnecting := true } : Impl).cancelTimer).startOp .wait = s₁ at h₁ ht ⊢
  dsimp only at ht ⊢
  split_ifs at ht ⊢
  · simp [Impl.ndnThrow] at ht
  · exact (h₁.congr rfl rfl rfl rfl rfl rfl rfl :
      Delivering F maxPacketSize stream { s₁ with socketOpen := true }).startOp rfl

theorem completeHandler (h : Delivering F maxPacketSize stream s) {i : Nat} {op : Op} {r : Result}
    (hop : s.pending.get? i = some op) (hr : op.isReceive = false ∨ r = .error) :
    Delivering F maxPacketSize stream
      { s with pending := s.pending.eraseIdx i, handlers := s.handlers ++ [(op,r)] } := by
  have hperm := (ops_complete r hop).filter Op.isReceive
  rcases hr with hr | rfl
  · exact h.frame rfl rfl rfl rfl rfl hperm (by simp [receiveHandlers,hr])
  cases hrec : op.isReceive
  · exact h.frame rfl rfl rfl rfl rfl hperm (by simp [receiveHandlers,hrec])
  obtain ⟨-,-,hnil⟩ := h.pending_receive (List.get?_mem hop) hrec
  have hrh : ({ s with pending := s.pending.eraseIdx i, handlers := s.handlers ++ [(op,.error)] } :
      Impl).receiveHandlers = [(op,.error)] := by
    rw [receiveHandlers]
    dsimp only
    rw [List.filter_append,show s.handlers.filter _ = [] from hnil]
    simp [hrec]
  refine ⟨h.elements,h.held,h.size_lt,h.idle,?_,?_,?_⟩
  · exact h.receives_of_perm rfl rfl hperm
  · rw [hrh,List.forall_mem_singleton]
    exact .inl rfl
  · have ha := h.account
    rw [unhandled,hrh]
    rw [unhandled,hnil] at ha
    simpa using ha

theorem completeReceive (h : Delivering F maxPacketSize stream s) {i n start room : Nat}
    (hop : s.pending.get? i = some (.receive start room)) (hn : n ≤ room)
    (hpeer : n ≤ s.peerBytes.length) :
    Delivering F maxPacketSize stream
      { s with
        pending := s.pending.eraseIdx i
        handlers := s.handlers ++ [(.receive start room,.success n)]
        inputBuffer := copy s.inputBuffer start (s.peerBytes.take n)
        peerBytes := s.peerBytes.drop n } := by
  obtain ⟨hrec,hnext,hnil⟩ := h.pending_receive (List.get?_mem hop) rfl
  simp only [nextReceive_eq,Op.receive.injEq] at hnext
  obtain ⟨rfl,rfl⟩ := hnext
  have hperm := (ops_complete (.success n) hop).filter Op.isReceive
  have hrh : ({ s with
      pending := s.pending.eraseIdx i
      handlers := s.handlers ++ [(.receive s.inputBufferSize (maxPacketSize - s.inputBufferSize),.success n)]
      inputBuffer := copy s.inputBuffer s.inputBufferSize (s.peerBytes.take n)
      peerBytes := s.peerBytes.drop n } : Impl).receiveHandlers =
        [(.receive s.inputBufferSize (maxPacketSize - s.inputBufferSize),.success n)] := by
    rw [receiveHandlers]
    dsimp only
    rw [List.filter_append,show s.handlers.filter _ = [] from hnil]
    rfl
  have hheld : read (copy s.inputBuffer s.inputBufferSize (s.peerBytes.take n)) 0 s.inputBufferSize =
      s.held := read_copy_of_le _ _ (by omega)
  have htake : (s.peerBytes.take n).length = n := by simp [hpeer]
  refine ⟨h.elements,by show F.fromBuffer (read _ 0 _) = none; rw [hheld]; exact h.held,h.size_lt,
    h.idle,h.receives_of_perm rfl rfl hperm,?_,?_⟩
  · rw [hrh,List.forall_mem_singleton]
    exact .inr ⟨n,rfl,hn⟩
  · have ha := h.account
    rw [unhandled,hnil] at ha
    rw [unhandled,hrh]
    simp only [List.flatMap_cons,List.flatMap_nil,List.append_nil]
    have hc := read_copy_self s.inputBuffer s.inputBufferSize (s.peerBytes.take n)
    rw [htake] at hc
    simp only [Impl.held] at hheld ⊢
    rw [hc,hheld,List.append_assoc,List.take_append_drop]
    simpa using ha

/-- A receive's handler that does not throw: the elements at the front of the bytes held and
the bytes received are delivered, the bytes after them are held, and the next receive starts. -/
theorem handleAsyncReceive (h : Delivering F maxPacketSize stream s) {op : Op} {r : Result}
    {rest : List (Op × Result)} (hh : s.handlers = (op,r) :: rest) (hop : op.isReceive = true)
    (ht : ({ s with handlers := rest }.handleAsyncReceive F maxPacketSize r).thrown = none) :
    Delivering F maxPacketSize stream ({ s with handlers := rest }.handleAsyncReceive F maxPacketSize r) := by
  obtain ⟨hrec,hnext,hpend,hrest,hres⟩ := h.handler_receive hh hop
  rcases hres with rfl | ⟨n,rfl,hn⟩
  · simp [Impl.handleAsyncReceive,Impl.ndnThrow] at ht
  have hlt := h.size_lt
  have hun : s.unhandled = read s.inputBuffer s.inputBufferSize n := by
    rw [unhandled,receiveHandlers,hh,List.filter_cons]
    simp only [hop,↓reduceIte]
    rw [hrest,hnext]
    simp
  generalize hB : read s.inputBuffer 0 (s.inputBufferSize + n) = B
  have hBmax : B.length ≤ maxPacketSize := by rw [← hB,read_length]; omega
  by_cases hfull : F.fromBuffer B = none ∧ s.inputBufferSize + n = maxPacketSize
  · rw [← hB] at hfull
    rw [handleAsyncReceive_full F maxPacketSize { s with handlers := rest } n hfull.1 hfull.2
      (by omega)] at ht
    simp [Impl.ndnThrow] at ht
  obtain ⟨buffer,hbuf,heq⟩ := handleAsyncReceive_continue F maxPacketSize { s with handlers := rest } n
    (by rwa [← hB] at hfull)
  rw [heq]
  dsimp only at hbuf ⊢
  rw [hB] at hbuf ⊢
  refine asyncReceive hrec ?_ ?_ ?_ ?_ ?_
  · simp only [ops_filter_isReceive,receiveHandlers]
    rw [hpend,hrest]
    rfl
  · intro b hb
    rcases List.mem_append.mp hb with hb | hb
    · exact h.elements b hb
    · have hflat := congrArg List.length (Framing.frames_flatten (F := F) B)
      rw [List.length_append] at hflat
      exact ⟨Framing.isElement_of_mem_frames hb,
        (List.infix_of_mem_flatten hb).length_le.trans (by omega)⟩
  · show F.fromBuffer (read buffer 0 _) = none
    rw [hbuf]
    exact Framing.fromBuffer_frames_snd B
  · show (F.frames B).2.length < maxPacketSize
    have hle := Framing.frames_snd_length_le (F := F) B
    have hne : (F.frames B).2.length ≠ maxPacketSize := fun he => by
      obtain ⟨hnone,hlen⟩ := (full_iff hBmax).mpr he
      rw [← hB,read_length] at hlen
      exact hfull ⟨hnone,hlen⟩
    omega
  · show (s.delivered ++ (F.frames B).1).flatten ++ read buffer 0 _ ++ s.peerBytes = stream
    rw [hbuf,List.flatten_append,List.append_assoc _ (F.frames B).1.flatten,Framing.frames_flatten,
      ← hB,read_add,Nat.zero_add,← hun,← h.account]
    simp [Impl.held]

theorem connectHandler (h : Delivering F maxPacketSize stream s) {r : Result}
    (ht : (s.connectHandler maxPacketSize r).thrown = none) :
    Delivering F maxPacketSize stream (s.connectHandler maxPacketSize r) := by
  have h₁ : Delivering F maxPacketSize stream ({ s with isConnecting := false } : Impl).cancelTimer :=
    Delivering.cancelTimer (h.congr rfl rfl rfl rfl rfl rfl rfl)
  unfold Impl.connectHandler at ht ⊢
  cases r with
  | success n =>
    dsimp only
    have h₂ : Delivering F maxPacketSize stream
        { ({ s with isConnecting := false } : Impl).cancelTimer with isConnected := true } :=
      h₁.congr rfl rfl rfl rfl rfl rfl rfl
    split_ifs
    · exact h₂
    · exact h₂.resume.asyncWrite
  | operationCanceled => simp [Impl.ndnThrow] at ht
  | error => simp [Impl.ndnThrow] at ht

theorem handleAsyncWrite (h : Delivering F maxPacketSize stream s) {queueItem : Nat} {r : Result}
    (ht : (s.handleAsyncWrite queueItem r).thrown = none) :
    Delivering F maxPacketSize stream (s.handleAsyncWrite queueItem r) := by
  unfold Impl.handleAsyncWrite at ht ⊢
  cases r with
  | operationCanceled => exact h
  | error => simp [Impl.ndnThrow] at ht
  | success n =>
    dsimp only
    have h₁ : Delivering F maxPacketSize stream
        { s with transmissionQueue := s.transmissionQueue.filter (·.1 ≠ queueItem) } :=
      h.congr rfl rfl rfl rfl rfl rfl rfl
    split_ifs
    · exact h
    · exact h₁
    · exact h₁.asyncWrite

theorem runHandler (h : Delivering F maxPacketSize stream s) {op : Op} {r : Result}
    {rest : List (Op × Result)} (hh : s.handlers = (op,r) :: rest)
    (ht : ({ s with handlers := rest }.runHandler F maxPacketSize op r).thrown = none) :
    Delivering F maxPacketSize stream ({ s with handlers := rest }.runHandler F maxPacketSize op r) := by
  cases op with
  | connect => exact (h.dropHandler hh rfl).connectHandler ht
  | wait =>
    cases r <;> first
      | exact h.dropHandler hh rfl
      | simp [Impl.runHandler,Impl.connectTimeoutHandler,Impl.ndnThrow] at ht
  | write queueItem sequence => exact (h.dropHandler hh rfl).handleAsyncWrite ht
  | receive start room => exact h.handleAsyncReceive hh rfl ht

theorem complete (h : Delivering F maxPacketSize stream s) {i : Nat} {r : Result} {s' : Impl}
    (hs : s.complete i r = some s') : Delivering F maxPacketSize stream s' := by
  unfold Impl.complete at hs
  split at hs
  · cases hs
  rename_i op hop
  cases r with
  | operationCanceled => cases op <;> cases hs
  | error => cases op <;> (cases hs; exact h.completeHandler hop (.inr rfl))
  | success n =>
    cases op with
    | connect => cases hs; exact h.completeHandler hop (.inl rfl)
    | wait => cases hs; exact h.completeHandler hop (.inl rfl)
    | receive start room =>
      dsimp only at hs
      split_ifs at hs with hc
      cases hs
      exact h.completeReceive hop hc.1 hc.2.1
    | write queueItem sequence =>
      cases hs
      exact (h.completeHandler hop (.inl rfl)).congr rfl rfl rfl rfl rfl rfl rfl

/-- Every event but `pause` and `close` keeps the invariant, or throws; a peer's send adds its
bytes to the stream. -/
theorem step (h : Delivering F maxPacketSize stream s) {e : Event} (hp : e ≠ .pause) (hc : e ≠ .close)
    {s' : Impl} (hs : StreamTransport.step F maxPacketSize s e = some s') (ht : s'.thrown = none) :
    Delivering F maxPacketSize (stream ++ e.peerSent) s' := by
  unfold StreamTransport.step at hs
  split_ifs at hs
  cases e with
  | close => exact absurd rfl hc
  | pause => exact absurd rfl hp
  | connect => cases hs; simpa only [Event.peerSent,List.append_nil] using h.connect ht
  | resume => cases hs; simpa only [Event.peerSent,List.append_nil] using h.resume
  | send sequence => cases hs; simpa only [Event.peerSent,List.append_nil] using h.send sequence
  | peerSends bytes =>
    cases hs
    refine ⟨h.elements,h.held,h.size_lt,h.idle,h.receives,h.results,?_⟩
    show s.delivered.flatten ++ s.held ++ s.unhandled ++ (s.peerBytes ++ bytes) = stream ++ bytes
    rw [← h.account]
    simp
  | complete i r => simpa only [Event.peerSent,List.append_nil] using h.complete hs
  | runHandler =>
    dsimp only at hs
    split at hs
    · cases hs
    · rename_i op r rest hh
      cases hs
      simpa only [Event.peerSent,List.append_nil] using h.runHandler hh ht

/-- A run without `pause` or `close` that throws nothing keeps the invariant, with the bytes
the peer sent added. -/
theorem execute (h : Delivering F maxPacketSize stream s) {es : List Event} (hp : Event.pause ∉ es)
    (hc : Event.close ∉ es) {s' : Impl} (hs : StreamTransport.execute F maxPacketSize s es = some s')
    (ht : s'.thrown = none) : Delivering F maxPacketSize (stream ++ peerStream es) s' := by
  induction es generalizing s stream with
  | nil => cases hs; simpa [peerStream] using h
  | cons e es ih =>
    obtain ⟨s₁,h₁,hs⟩ := Option.bind_eq_some.mp hs
    have ht₁ : s₁.thrown = none := by
      cases hth : s₁.thrown
      · rfl
      · simpa [ht] using thrown_execute F maxPacketSize (by simp [hth]) hs
    have := ih (h.step (fun he => hp (he ▸ List.mem_cons_self _ _))
      (fun he => hc (he ▸ List.mem_cons_self _ _)) h₁ ht₁)
      (fun hm => hp (List.mem_cons_of_mem _ hm)) (fun hm => hc (List.mem_cons_of_mem _ hm)) hs
    simpa [peerStream,List.append_assoc] using this

theorem init (hmax : 0 < maxPacketSize) : Delivering F maxPacketSize [] Impl.init where
  elements := by simp [Impl.init]
  held := Framing.fromBuffer_nil
  size_lt := hmax
  idle _ := rfl
  receives := rfl
  results := by simp [Impl.init,receiveHandlers]
  account := rfl

end Delivering

/-- Over every run of a fresh transport that calls neither `pause` nor `close` and throws
nothing, whatever the order of its events: the blocks handed to `m_receiveCallback`, followed
by the bytes held, are the framing of those bytes, each block a whole element of at most
`maxPacketSize` bytes; the blocks, the bytes held, the bytes completed receives wrote for
handlers still waiting, and the bytes no receive has taken yet are, in that order, exactly what
the peer sent, so none is lost, reordered or delivered twice; the bytes held stay below
`maxPacketSize`; and at most one receive is outstanding, the one that writes into the buffer
right after the bytes held with the rest of the buffer as room. -/
theorem delivered_frames_peer_stream (F : Framing) (maxPacketSize : Nat) (hmax : 0 < maxPacketSize)
    (es : List Event) (s : Impl) (hp : Event.pause ∉ es) (hc : Event.close ∉ es)
    (hs : execute F maxPacketSize Impl.init es = some s) (ht : s.thrown = none) :
    F.frames (s.delivered.flatten ++ s.held) = (s.delivered, s.held) ∧
      (∀ b ∈ s.delivered, b.length ≤ maxPacketSize) ∧
      s.delivered.flatten ++ s.held ++ s.unhandled ++ s.peerBytes = peerStream es ∧
      s.inputBufferSize < maxPacketSize ∧
      s.ops.filter Op.isReceive =
        if s.isReceiving then [.receive s.inputBufferSize (maxPacketSize - s.inputBufferSize)]
        else [] := by
  have h := (Delivering.init hmax).execute hp hc hs ht
  rw [List.nil_append] at h
  exact ⟨Framing.frames_elements (fun b hb => (h.elements b hb).1) h.held,
    fun b hb => (h.elements b hb).2,h.account,h.size_lt,h.receives⟩

/-- `connect`, the connect's success and handler, the cancelled wait's handler, `resume`, and
the peer sending `05 00` of which the receive takes one byte: `05` waits for the receive's
handler, with `00` still on the socket. -/
theorem delivered_frames_peer_stream_connectResume :
    ∃ s, execute ndnTlv maxNdnPacketSize Impl.init
        [.connect,.complete 1 (.success 0),.runHandler,.runHandler,.resume,.peerSends [5,0],
          .complete 0 (.success 1)] = some s ∧
      0 < maxNdnPacketSize ∧ s.thrown = none ∧
      (ndnTlv.frames (s.delivered.flatten ++ s.held) = (s.delivered, s.held) ∧
        (∀ b ∈ s.delivered, b.length ≤ maxNdnPacketSize) ∧
        s.delivered.flatten ++ s.held ++ s.unhandled ++ s.peerBytes =
          peerStream [.connect,.complete 1 (.success 0),.runHandler,.runHandler,.resume,
            .peerSends [5,0],.complete 0 (.success 1)] ∧
        s.inputBufferSize < maxNdnPacketSize ∧
        s.ops.filter Op.isReceive =
          if s.isReceiving then
            [.receive s.inputBufferSize (maxNdnPacketSize - s.inputBufferSize)]
          else []) :=
  ⟨_,rfl,by decide,rfl,
    delivered_frames_peer_stream ndnTlv maxNdnPacketSize (by decide)
      [.connect,.complete 1 (.success 0),.runHandler,.runHandler,.resume,.peerSends [5,0],
        .complete 0 (.success 1)] _ (by decide) (by decide) rfl rfl⟩

end StreamTransport
end MwNfd
