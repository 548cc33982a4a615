import MwNfd.Transport.Tlv

/-! `StreamTransportImpl`, the Boost.Asio stream transport of ndn-cxx, with the operations in
flight, the handlers waiting with their results, and the peer. A run is any interleaving of
calls, completions and handler runs; an exception ends it. -/

namespace MwNfd

abbrev Block := List UInt8

abbrev BlockSequence := List Block

namespace StreamTransport

/-- What an asynchronous operation completed with: the bytes it moved, `operation_canceled`,
or another error. -/
inductive Result
  | success (nBytes : Nat)
  | operationCanceled
  | error
  deriving DecidableEq, Repr

/-- An operation in flight. A write knows the queue item whose blocks it writes; a receive,
where in `m_inputBuffer` it writes and the room it was given. -/
inductive Op
  | connect
  | wait
  | write (queueItem : Nat) (sequence : BlockSequence)
  | receive (start room : Nat)
  deriving DecidableEq, Repr

def Op.onSocket : Op → Bool
  | .wait => false
  | _ => true

def Op.writesOrConnects : Op → Bool
  | .connect | .write .. => true
  | _ => false

def copy (buffer : Nat → UInt8) (start : Nat) (bytes : List UInt8) : Nat → UInt8 :=
  fun i => if start ≤ i ∧ i < start + bytes.length then bytes.getD (i - start) 0 else buffer i

def read (buffer : Nat → UInt8) (start n : Nat) : List UInt8 :=
  (List.range n).map fun i => buffer (start + i)

/-- `StreamTransportImpl` with the transport's flags, and around it the operations in flight,
the handlers waiting to run, the bytes the peer has sent that no receive has taken, what went
out on the wire, the blocks handed to `m_receiveCallback`, and the exception thrown, if any. -/
structure Impl where
  isConnecting : Bool
  isConnected : Bool
  isReceiving : Bool
  inputBuffer : Nat → UInt8
  inputBufferSize : Nat
  transmissionQueue : List (Nat × BlockSequence)
  nextItem : Nat
  socketOpen : Bool
  pending : List Op
  handlers : List (Op × Result)
  peerBytes : List UInt8
  written : List BlockSequence
  delivered : List Block
  thrown : Option String

variable (F : Framing) (maxPacketSize : Nat)

/-- `processAllReceived`: the elements handed to `m_receiveCallback` in order, the final
`offset`, and whether it reached `nBytesAvailable`. -/
def processAllReceived (buffer : Nat → UInt8) (offset nBytesAvailable : Nat) :
    List Block × Nat × Bool :=
  if hlt : offset < nBytesAvailable then
    match h : F.fromBuffer (read buffer offset (nBytesAvailable - offset)) with
    | none => ([],offset,false)
    | some size =>
      let rest := processAllReceived buffer (offset + size) nBytesAvailable
      (read buffer offset size :: rest.1,rest.2)
  else ([],offset,true)
termination_by nBytesAvailable - offset
decreasing_by have := F.size_pos h; omega

namespace Impl

def init : Impl :=
  ⟨false,false,false,fun _ => 0,0,[],0,false,[],[],[],[],[],none⟩

/-- `NDN_THROW`: the exception that ends the run. -/
def ndnThrow (s : Impl) (what : String) : Impl := { s with thrown := some what }

/-- Starts an operation; one on a closed socket fails at once with an error. -/
def startOp (s : Impl) (op : Op) : Impl :=
  if op.onSocket && !s.socketOpen then { s with handlers := s.handlers ++ [(op,.error)] }
  else { s with pending := s.pending ++ [op] }

@[simp] theorem startOp_socketOpen (s : Impl) (op : Op) : (s.startOp op).socketOpen = s.socketOpen := by
  unfold startOp; split <;> rfl

@[simp] theorem startOp_written (s : Impl) (op : Op) : (s.startOp op).written = s.written := by
  unfold startOp; split <;> rfl

@[simp] theorem startOp_thrown (s : Impl) (op : Op) : (s.startOp op).thrown = s.thrown := by
  unfold startOp; split <;> rfl

/-- Cancels the operations `p` selects: their handlers are queued with `operation_canceled`,
in the order the operations started. -/
def cancelOps (s : Impl) (p : Op → Bool) : Impl :=
  { s with
    pending := s.pending.filter (fun op => !p op)
    handlers := s.handlers ++ (s.pending.filter p).map (·,.operationCanceled) }

@[simp] theorem cancelOps_socketOpen (s : Impl) (p : Op → Bool) :
    (s.cancelOps p).socketOpen = s.socketOpen := rfl

def cancelTimer (s : Impl) : Impl := s.cancelOps fun op => !op.onSocket

def cancelSocket (s : Impl) : Impl := s.cancelOps Op.onSocket

/-- `close`: the timer's and the socket's operations are cancelled and the socket closed,
errors ignored; the queue is dropped. -/
def close (s : Impl) : Impl :=
  { s.cancelTimer.cancelSocket with
    isConnecting := false
    socketOpen := false
    isConnected := false
    isReceiving := false
    transmissionQueue := [] }

/-- `asyncWrite`: writes the queue's front; the queue is never empty here. -/
def asyncWrite (s : Impl) : Impl :=
  match s.transmissionQueue with
  | (queueItem,sequence) :: _ => s.startOp (.write queueItem sequence)
  | [] => s

/-- `asyncReceive`: receives into the buffer after the bytes it holds. With more bytes held
than the buffer's size, the room `MAX_NDN_PACKET_SIZE - m_inputBufferSize` wraps in `size_t`
and the receive writes past the buffer's end; the model ends the run at that undefined
behaviour, as at an exception. -/
def asyncReceive (s : Impl) : Impl :=
  if s.inputBufferSize ≤ maxPacketSize then
    s.startOp (.receive s.inputBufferSize (maxPacketSize - s.inputBufferSize))
  else s.ndnThrow "undefined behaviour: receive past the end of m_inputBuffer"

theorem asyncReceive_of_le (s : Impl) (h : s.inputBufferSize ≤ maxPacketSize) :
    s.asyncReceive maxPacketSize =
      s.startOp (.receive s.inputBufferSize (maxPacketSize - s.inputBufferSize)) :=
  if_pos h

/-- `connect`: `expires_from_now` cancels a wait still pending before the new one starts, and
`m_socket.open()` throws when the socket is open already. -/
def connect (s : Impl) : Impl :=
  if s.isConnecting then s
  else
    let s := ({ s with isConnecting := true }.cancelTimer).startOp .wait
    if s.socketOpen then s.ndnThrow "open: Already open"
    else { s with socketOpen := true }.startOp .connect

/-- `pause`; `m_socket.cancel()` throws on a closed socket. -/
def pause (s : Impl) : Impl :=
  if s.isConnecting then s
  else if s.isReceiving then
    if s.socketOpen then { s with isReceiving := false }.cancelSocket
    else { s with isReceiving := false }.ndnThrow "cancel: Bad file descriptor"
  else s

def resume (s : Impl) : Impl :=
  if s.isConnecting then s
  else if !s.isReceiving then
    { s with isReceiving := true, inputBufferSize := 0 }.asyncReceive maxPacketSize
  else s

/-- `send`: queues the sequence, and writes it at once when connected and nothing else is
queued. -/
def send (s : Impl) (sequence : BlockSequence) : Impl :=
  let s := { s with
    transmissionQueue := s.transmissionQueue ++ [(s.nextItem,sequence)]
    nextItem := s.nextItem + 1 }
  if s.isConnected && s.transmissionQueue.length == 1 then s.asyncWrite else s

def connectHandler (s : Impl) (result : Result) : Impl :=
  let s := { s with isConnecting := false }.cancelTimer
  match result with
  | .success _ =>
    let s := { s with isConnected := true }
    if s.transmissionQueue.isEmpty then s else (s.resume maxPacketSize).asyncWrite
  | _ => { s with isConnected := false }.close.ndnThrow "error while connecting to the forwarder"

/-- `connectTimeoutHandler`: a wait that ran out closes the transport. -/
def connectTimeoutHandler (s : Impl) : Result → Impl
  | .success _ => s.close.ndnThrow "error while connecting to the forwarder"
  | _ => s

/-- `handleAsyncWrite`: a written item leaves the queue, and the next one is written. -/
def handleAsyncWrite (s : Impl) (queueItem : Nat) : Result → Impl
  | .operationCanceled => s
  | .error => s.close.ndnThrow "error while writing data to socket"
  | .success _ =>
    if !s.isConnected then s
    else
      let s := { s with transmissionQueue := s.transmissionQueue.filter (·.1 ≠ queueItem) }
      if s.transmissionQueue.isEmpty then s else s.asyncWrite

/-- `handleAsyncReceive`: the received bytes extend the buffer, the whole elements at its
front go to `m_receiveCallback`, and the bytes after them move to the front. -/
def handleAsyncReceive (s : Impl) : Result → Impl
  | .operationCanceled => s
  | .error => s.close.ndnThrow "error while receiving data from socket"
  | .success nBytesRecvd =>
    let inputBufferSize := s.inputBufferSize + nBytesRecvd
    let processed := processAllReceived F s.inputBuffer 0 inputBufferSize
    let offset := processed.2.1
    let s := { s with inputBufferSize := inputBufferSize, delivered := s.delivered ++ processed.1 }
    if !processed.2.2 && inputBufferSize == maxPacketSize && offset == 0 then
      s.close.ndnThrow "input buffer full, but a valid TLV cannot be decoded"
    else
      let s :=
        if 0 < offset then
          if offset ≠ inputBufferSize then
            { s with
              inputBuffer := copy s.inputBuffer 0 (read s.inputBuffer offset (inputBufferSize - offset))
              inputBufferSize := inputBufferSize - offset }
          else { s with inputBufferSize := 0 }
        else s
      s.asyncReceive maxPacketSize

/-- Runs the handler of an operation that completed with `result`. -/
def runHandler (s : Impl) : Op → Result → Impl
  | .connect, result => s.connectHandler maxPacketSize result
  | .wait, result => s.connectTimeoutHandler result
  | .write queueItem _, result => s.handleAsyncWrite queueItem result
  | .receive _ _, result => s.handleAsyncReceive F maxPacketSize result

/-- The `i`-th operation in flight completes with `result`; only `cancel` aborts one. A write
puts its blocks on the wire; a receive takes at least one byte the peer sent, as many as fit
its room, and writes them where it points. -/
def complete (s : Impl) (i : Nat) (result : Result) : Option Impl :=
  match s.pending.get? i with
  | none => none
  | some op =>
    let s' := { s with pending := s.pending.eraseIdx i, handlers := s.handlers ++ [(op,result)] }
    match op, result with
    | _, .operationCanceled => none
    | .receive start room, .success n =>
      if n ≤ room ∧ n ≤ s.peerBytes.length ∧ (0 < n ∨ room = 0) then
        some { s' with
          inputBuffer := copy s.inputBuffer start (s.peerBytes.take n)
          peerBytes := s.peerBytes.drop n }
      else none
    | .write _ sequence, .success _ => some { s' with written := s.written ++ [sequence] }
    | _, _ => some s'

end Impl

/-- The user's calls, the peer, and the io_service. -/
inductive Event
  | connect
  | close
  | pause
  | resume
  | send (sequence : BlockSequence)
  | peerSends (bytes : List UInt8)
  | complete (i : Nat) (result : Result)
  | runHandler
  deriving DecidableEq, Repr

open Impl in
/-- One event; `none` when it cannot happen, and nothing happens after an exception. -/
def step (s : Impl) (e : Event) : Option Impl :=
  if s.thrown.isSome then none
  else
    match e with
    | .connect => some s.connect
    | .close => some s.close
    | .pause => some s.pause
    | .resume => some (s.resume maxPacketSize)
    | .send sequence => some (s.send sequence)
    | .peerSends bytes => some { s with peerBytes := s.peerBytes ++ bytes }
    | .complete i result => s.complete i result
    | .runHandler =>
      match s.handlers with
      | [] => none
      | (op,result) :: rest => some ({ s with handlers := rest }.runHandler F maxPacketSize op result)

def execute (s : Impl) : List Event → Option Impl
  | [] => some s
  | e :: es => (step F maxPacketSize s e).bind (execute · es)

theorem execute_append (s : Impl) (es₁ es₂ : List Event) :
    execute F maxPacketSize s (es₁ ++ es₂) =
      (execute F maxPacketSize s es₁).bind (execute F maxPacketSize · es₂) := by
  induction es₁ generalizing s with
  | nil => rfl
  | cons e es₁ ih =>
    simp only [List.cons_append,execute,Option.bind_assoc]
    congr 1
    funext s₁
    exact ih s₁

theorem execute_of_thrown {s s' : Impl} (ht : s.thrown.isSome) {es : List Event}
    (hs : execute F maxPacketSize s es = some s') : es = [] ∧ s' = s := by
  cases es with
  | nil => cases hs; exact ⟨rfl,rfl⟩
  | cons e es => simp [execute,step,ht] at hs

theorem execute_cons_of_thrown {s : Impl} (ht : s.thrown.isSome) (e : Event) (es : List Event) :
    execute F maxPacketSize s (e :: es) = none := by
  simp [execute,step,ht]

theorem thrown_execute {s s' : Impl} (ht : s.thrown.isSome) {es : List Event}
    (hs : execute F maxPacketSize s es = some s') : s'.thrown.isSome :=
  (execute_of_thrown F maxPacketSize ht hs).2 ▸ ht

/-- `MAX_NDN_PACKET_SIZE` of ndn-cxx, for the runs on fixed inputs below. -/
def maxNdnPacketSize : Nat := 8800

/-- A connected transport with blocks queued, no write in flight or waiting for its handler,
and no connect whose handler could start one. -/
structure Stalled (s : Impl) : Prop where
  connected : s.isConnected = true
  queued : s.transmissionQueue ≠ []
  socketOpen : s.socketOpen = true
  notThrown : s.thrown = none
  pending : ∀ op ∈ s.pending, op.writesOrConnects = false
  handlers : ∀ p ∈ s.handlers, p.1.writesOrConnects = false

instance (s : Impl) : Decidable (Stalled s) :=
  decidable_of_iff (s.isConnected = true ∧ s.transmissionQueue ≠ [] ∧ s.socketOpen = true ∧
      s.thrown = none ∧ (∀ op ∈ s.pending, op.writesOrConnects = false) ∧
      ∀ p ∈ s.handlers, p.1.writesOrConnects = false)
    ⟨fun ⟨a,b,c,d,e,f⟩ => ⟨a,b,c,d,e,f⟩,fun ⟨a,b,c,d,e,f⟩ => ⟨a,b,c,d,e,f⟩⟩

namespace Stalled

variable {F maxPacketSize} {s : Impl}

theorem cancelOps (h : Stalled s) (p : Op → Bool) : Stalled (s.cancelOps p) where
  connected := h.connected
  queued := h.queued
  socketOpen := h.socketOpen
  notThrown := h.notThrown
  pending op hop := h.pending op (List.mem_of_mem_filter hop)
  handlers q hq := by
    simp only [Impl.cancelOps,List.mem_append,List.mem_map] at hq
    rcases hq with hq | ⟨op,hop,rfl⟩
    · exact h.handlers q hq
    · exact h.pending op (List.mem_of_mem_filter hop)

theorem startOp (h : Stalled s) {op : Op} (hop : op.writesOrConnects = false) :
    Stalled (s.startOp op) := by
  rw [Impl.startOp,if_neg (by simp [h.socketOpen])]
  refine ⟨h.connected,h.queued,h.socketOpen,h.notThrown,fun o ho => ?_,h.handlers⟩
  rcases List.mem_append.mp ho with ho | ho
  · exact h.pending o ho
  · rw [List.mem_singleton.mp ho,hop]

theorem asyncReceive (h : Stalled s) :
    (Stalled (s.asyncReceive maxPacketSize) ∧ (s.asyncReceive maxPacketSize).written = s.written) ∨
      (s.asyncReceive maxPacketSize).thrown.isSome := by
  unfold Impl.asyncReceive
  split
  · exact .inl ⟨h.startOp rfl,Impl.startOp_written _ _⟩
  · exact .inr rfl

theorem runHandler (h : Stalled s) {op : Op} (hop : op.writesOrConnects = false) (r : Result) :
    (Stalled (s.runHandler F maxPacketSize op r) ∧ (s.runHandler F maxPacketSize op r).written = s.written) ∨
      (s.runHandler F maxPacketSize op r).thrown.isSome := by
  cases op with
  | connect | write => cases hop
  | wait =>
    cases r <;> first
      | exact .inl ⟨h,rfl⟩
      | simp [Impl.runHandler,Impl.connectTimeoutHandler,Impl.ndnThrow]
  | receive =>
    cases r with
    | success n =>
      simp only [Impl.runHandler,Impl.handleAsyncReceive]
      split_ifs
      · simp [Impl.ndnThrow]
      all_goals exact asyncReceive ⟨h.connected,h.queued,h.socketOpen,h.notThrown,h.pending,h.handlers⟩
    | operationCanceled => exact .inl ⟨h,rfl⟩
    | error => simp [Impl.runHandler,Impl.handleAsyncReceive,Impl.ndnThrow]

theorem complete (h : Stalled s) (i : Nat) {op : Op} (hw : op.writesOrConnects = false) (r : Result) :
    Stalled { s with pending := s.pending.eraseIdx i, handlers := s.handlers ++ [(op,r)] } where
  connected := h.connected
  queued := h.queued
  socketOpen := h.socketOpen
  notThrown := h.notThrown
  pending o ho := h.pending o (List.mem_of_mem_eraseIdx ho)
  handlers q hq := by
    rcases List.mem_append.mp hq with hq | hq
    · exact h.handlers q hq
    · rw [List.mem_singleton.mp hq,hw]

/-- From a stalled transport, every event but `close` leaves it stalled with nothing more
written, or throws. -/
theorem step (h : Stalled s) {e : Event} (he : e ≠ .close) {s' : Impl}
    (hs : StreamTransport.step F maxPacketSize s e = some s') :
    (Stalled s' ∧ s'.written = s.written) ∨ s'.thrown.isSome := by
  unfold StreamTransport.step at hs
  rw [if_neg (by simp [h.notThrown])] at hs
  cases e with
  | close => exact absurd rfl he
  | connect =>
    cases hs
    by_cases hc : s.isConnecting
    · rw [Impl.connect,if_pos hc]
      exact .inl ⟨h,rfl⟩
    · simp [Impl.connect,Impl.cancelTimer,hc,h.socketOpen,Impl.ndnThrow]
  | pause =>
    cases hs
    unfold Impl.pause
    split_ifs with hc hr ho
    · exact .inl ⟨h,rfl⟩
    · exact .inl ⟨cancelOps (s := { s with isReceiving := false })
        ⟨h.connected,h.queued,h.socketOpen,h.notThrown,h.pending,h.handlers⟩ _,rfl⟩
    · exact absurd h.socketOpen ho
    · exact .inl ⟨h,rfl⟩
  | resume =>
    cases hs
    unfold Impl.resume
    split_ifs
    · exact .inl ⟨h,rfl⟩
    · exact asyncReceive ⟨h.connected,h.queued,h.socketOpen,h.notThrown,h.pending,h.handlers⟩
    · exact .inl ⟨h,rfl⟩
  | send sequence =>
    cases hs
    have hq := h.queued
    unfold Impl.send
    rw [if_neg (by simp; intro; exact hq)]
    exact .inl ⟨⟨h.connected,by simp,h.socketOpen,h.notThrown,h.pending,h.handlers⟩,rfl⟩
  | peerSends bytes =>
    cases hs
    exact .inl ⟨⟨h.connected,h.queued,h.socketOpen,h.notThrown,h.pending,h.handlers⟩,rfl⟩
  | complete i r =>
    dsimp only at hs
    unfold Impl.complete at hs
    split at hs
    · cases hs
    · rename_i op hop
      have hw := h.pending op (List.get?_mem hop)
      have hc := h.complete i hw r
      split at hs
      · cases hs
      · split_ifs at hs
        cases hs
        exact .inl ⟨⟨hc.connected,hc.queued,hc.socketOpen,hc.notThrown,hc.pending,hc.handlers⟩,rfl⟩
      · cases hw
      · cases hs
        exact .inl ⟨hc,rfl⟩
  | runHandler =>
    dsimp only at hs
    split at hs
    · cases hs
    · rename_i op r rest hh
      cases hs
      have hw := h.handlers (op,r) (by simp [hh])
      exact runHandler (s := { s with handlers := rest }) ⟨h.connected,h.queued,h.socketOpen,h.notThrown,h.pending,
        fun p hp => h.handlers p (by simp [hh,hp])⟩ hw r

/-- From a stalled transport, a run without `close` that throws nothing leaves it stalled,
with nothing more written. -/
theorem execute (h : Stalled s) {es : List Event} (hc : Event.close ∉ es) {s' : Impl}
    (hs : StreamTransport.execute F maxPacketSize s es = some s') (ht : s'.thrown = none) :
    Stalled s' ∧ s'.written = s.written := by
  induction es generalizing s with
  | nil => cases hs; exact ⟨h,rfl⟩
  | cons e es ih =>
    obtain ⟨s₁,h₁,hs⟩ := Option.bind_eq_some.mp hs
    rcases h.step (fun he => hc (he ▸ List.mem_cons_self _ _)) h₁ with ⟨h₁,hw⟩ | ht₁
    · obtain ⟨h',hw'⟩ := ih h₁ (fun hm => hc (List.mem_cons_of_mem _ hm)) hs
      exact ⟨h',hw'.trans hw⟩
    · simpa [ht] using thrown_execute F maxPacketSize ht₁ hs

end Stalled

/-- `connect`, the connection made, a `send`, then `resume` and `pause`, and a second `send`. -/
def pauseDuringWrite : List Event :=
  [.connect,.complete 1 (.success 0),.runHandler,.runHandler,.send [[0x05,0x00]],.resume,.pause,
    .runHandler,.runHandler,.send [[0x06,0x00]]]

/-- `pause` cancels the write in flight along with the receive, and the write's handler returns
on `operation_canceled`: after `pauseDuringWrite` the transport is connected with both sequences
queued, nothing written and no write in flight, and from such a state no run without `close`
that throws nothing writes anything again. -/
theorem pause_stalls_transmission :
    (∃ s, execute ndnTlv maxNdnPacketSize Impl.init pauseDuringWrite = some s ∧ Stalled s ∧
      s.transmissionQueue.map Prod.snd = [[[0x05,0x00]],[[0x06,0x00]]] ∧ s.written = []) ∧
    ∀ (F : Framing) (maxPacketSize : Nat) (s : Impl) (es : List Event) (s' : Impl), Stalled s →
      Event.close ∉ es → execute F maxPacketSize s es = some s' → s'.thrown = none →
      Stalled s' ∧ s'.written = s.written :=
  ⟨⟨_,rfl,by decide,rfl,rfl⟩,fun _ _ _ _ _ h hc hs ht => h.execute hc hs ht⟩

end StreamTransport

end MwNfd
