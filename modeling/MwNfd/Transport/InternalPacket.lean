import MwNfd.Transport.Internal
import MwNfd.Transport.Stream

/-! # The packets of the in-process face pair

Each `receivePacket` posts a handler to the global io_service, which runs them in order. Over
every run the transports receive what a direct channel would deliver, and a teardown leaves the
handlers still posted to the client dangling. -/

namespace MwNfd
namespace Internal

/-- A handler `receivePacket` posts to the global io_service. -/
inductive Posted
  /-- The handler of `InternalForwarderTransport::receivePacket` on forwarder transport `f`. -/
  | forwarderReceive (f : Nat) (packet : Block)
  /-- The handler of `InternalClientTransport::receivePacket` on client `c`. -/
  | clientReceive (c : Nat) (packet : Block)
  /-- A client's handler after the client's teardown: its `this` dangles. -/
  | dangling (packet : Block)
  deriving DecidableEq, Repr

namespace Posted

def toForwarder (f : Nat) : Posted → Option Block
  | .forwarderReceive g packet => if g = f then some packet else none
  | _ => none

def toClient (c : Nat) : Posted → Option Block
  | .clientReceive d packet => if d = c then some packet else none
  | _ => none

def orphan (c : Nat) : Posted → Posted
  | .clientReceive d packet => if d = c then .dangling packet else .clientReceive d packet
  | p => p

@[simp] theorem toForwarder_forwarderReceive (f g : Nat) (packet : Block) :
    (forwarderReceive g packet).toForwarder f = if g = f then some packet else none := rfl

@[simp] theorem toForwarder_clientReceive (f c : Nat) (packet : Block) :
    (clientReceive c packet).toForwarder f = none := rfl

@[simp] theorem toClient_clientReceive (c d : Nat) (packet : Block) :
    (clientReceive d packet).toClient c = if d = c then some packet else none := rfl

@[simp] theorem toClient_forwarderReceive (c f : Nat) (packet : Block) :
    (forwarderReceive f packet).toClient c = none := rfl

theorem toForwarder_orphan (c f : Nat) (p : Posted) : (p.orphan c).toForwarder f = p.toForwarder f := by
  cases p <;> simp only [orphan]
  split_ifs <;> rfl

theorem toClient_orphan (c d : Nat) (p : Posted) :
    (p.orphan c).toClient d = if d = c then none else p.toClient d := by
  cases p <;> simp only [orphan,toClient] <;> split_ifs <;> simp_all [toClient]

theorem filterMap_toForwarder_orphan (ps : List Posted) (c f : Nat) :
    (ps.map (orphan c)).filterMap (toForwarder f) = ps.filterMap (toForwarder f) := by
  simp only [List.filterMap_map,Function.comp_def,toForwarder_orphan]

theorem filterMap_toClient_orphan (ps : List Posted) (c d : Nat) :
    (ps.map (orphan c)).filterMap (toClient d) = if d = c then [] else ps.filterMap (toClient d) := by
  simp only [List.filterMap_map,Function.comp_def,toClient_orphan]
  split_ifs <;> simp

end Posted

/-- The face pair with the global io_service's queue of posted handlers, whether each client's
`m_receiveCallback` is set (by ndn-cxx's `Transport::connect`), and what each forwarder transport
has passed to `Transport::receive` and each client to its `m_receiveCallback`. -/
structure Link where
  faces : State
  posted : List Posted
  receiveCallback : Nat → Bool
  forwarderReceived : Nat → List Block
  clientReceived : Nat → List Block

namespace Link

def forwarderReceivePacket (s : Link) (f : Nat) (packet : Block) : Link :=
  { s with posted := s.posted ++ [.forwarderReceive f packet] }

def clientReceivePacket (s : Link) (c : Nat) (packet : Block) : Link :=
  { s with posted := s.posted ++ [.clientReceive c packet] }

def send (s : Link) (c : Nat) (wire : Block) : Link :=
  match (s.faces.clients c).bind Client.forwarder with
  | some f => s.forwarderReceivePacket f wire
  | none => s

/-- `InternalClientTransport::send(header, payload)`: both wires copied into one buffer, of
which `EncodingBuffer::block` makes a `Block`; that throws (`none`) unless the buffer is one
whole element. -/
def sendHeaderPayload (F : Framing) (s : Link) (c : Nat) (header payload : Block) : Option Link :=
  if F.IsElement (header ++ payload) then some (s.send c (header ++ payload)) else none

def doSend (s : Link) (f : Nat) (packet : Block) : Link :=
  match (s.faces.forwarders f).peer with
  | some c => s.clientReceivePacket c packet
  | none => s

/-- The io_service runs the handler at the front of its queue: `receive(packet)` on a forwarder
transport, or `m_receiveCallback(packet)` on a client if it is set. Running a handler whose
`this` dangles is undefined (`none`), and so is running one from an empty queue. -/
def runHandler (s : Link) : Option Link :=
  match s.posted with
  | .forwarderReceive f packet :: rest =>
    some { s with
      posted := rest
      forwarderReceived := Function.update s.forwarderReceived f (s.forwarderReceived f ++ [packet]) }
  | .clientReceive c packet :: rest =>
    some { s with
      posted := rest
      clientReceived := if s.receiveCallback c then
          Function.update s.clientReceived c (s.clientReceived c ++ [packet])
        else s.clientReceived }
  | _ => none

/-- The pairing's operation `e`, which left the pairing at `faces`: a new client has no
`m_receiveCallback`, and a teardown leaves the handlers posted to the client dangling. -/
def afterFace (s : Link) (faces : State) : Internal.Event → Link
  | .create c => { s with faces := faces, receiveCallback := Function.update s.receiveCallback c false }
  | .destroy c => { s with faces := faces, posted := s.posted.map (Posted.orphan c) }
  | _ => { s with faces := faces }

/-- The pairing's operations, `Transport::connect` on a client, the two `send`s of a client,
`doSend` on a forwarder transport, and the io_service running a handler. -/
inductive Event
  | face (e : Internal.Event)
  | connect (c : Nat)
  | send (c : Nat) (wire : Block)
  | sendHeaderPayload (c : Nat) (header payload : Block)
  | doSend (f : Nat) (packet : Block)
  | runHandler
  deriving DecidableEq, Repr

/-- One event; `none` where it does not apply: a call on a client that is not live, an
operation of the pairing that does not apply, a throw, or a handler that cannot run. -/
def step (F : Framing) (s : Link) : Event → Option Link
  | .face e => (Internal.step s.faces e).map (s.afterFace · e)
  | .connect c =>
    if (s.faces.clients c).isSome then
      some { s with receiveCallback := Function.update s.receiveCallback c true }
    else none
  | .send c wire => if (s.faces.clients c).isSome then some (s.send c wire) else none
  | .sendHeaderPayload c header payload =>
    if (s.faces.clients c).isSome then s.sendHeaderPayload F c header payload else none
  | .doSend f packet => some (s.doSend f packet)
  | .runHandler => s.runHandler

def execute (F : Framing) (s : Link) : List Event → Option Link
  | [] => some s
  | e :: es => (step F s e).bind (execute F · es)

def init : Link := ⟨Internal.init,[],fun _ => false,fun _ => [],fun _ => []⟩

def pendingForwarder (s : Link) (f : Nat) : List Block := s.posted.filterMap (Posted.toForwarder f)

def pendingClient (s : Link) (c : Nat) : List Block := s.posted.filterMap (Posted.toClient c)

theorem send_eq (s : Link) (c : Nat) (wire : Block) :
    s.send c wire =
      { s with
        posted := s.posted ++
          ((s.faces.clients c).bind Client.forwarder).toList.map (Posted.forwarderReceive · wire) } := by
  unfold send
  cases (s.faces.clients c).bind Client.forwarder <;> simp [forwarderReceivePacket]

theorem doSend_eq (s : Link) (f : Nat) (packet : Block) :
    s.doSend f packet =
      { s with posted := s.posted ++ (s.faces.forwarders f).peer.toList.map (Posted.clientReceive · packet) } := by
  unfold doSend
  cases (s.faces.forwarders f).peer <;> simp [clientReceivePacket]

/-- Running the handler at the front of a queue whose front does not dangle: its packet moves
from the queue to what its transport has received, unless it is a client's and the client's
callback is not set. -/
theorem runHandler_spec {s : Link} {p : Posted} {rest : List Posted} (hp : s.posted = p :: rest)
    (hl : ∀ packet, p ≠ .dangling packet) :
    ∃ s₁, s.runHandler = some s₁ ∧ s₁.posted = rest ∧ s₁.faces = s.faces ∧
      s₁.receiveCallback = s.receiveCallback ∧
      (∀ f, s₁.forwarderReceived f ++ s₁.pendingForwarder f =
        s.forwarderReceived f ++ s.pendingForwarder f) ∧
      ∀ c, s₁.clientReceived c ++ (if s.receiveCallback c then s₁.pendingClient c else []) =
        s.clientReceived c ++ if s.receiveCallback c then s.pendingClient c else [] := by
  unfold runHandler pendingForwarder pendingClient
  rw [hp]
  cases p with
  | forwarderReceive f packet =>
    refine ⟨_,rfl,rfl,rfl,rfl,fun g => ?_,fun c => by simp⟩
    by_cases hfg : f = g
    · subst hfg
      simp
    · simp [Function.update_apply,hfg,Ne.symm hfg]
  | clientReceive c packet =>
    refine ⟨_,rfl,rfl,rfl,rfl,fun g => by simp,fun d => ?_⟩
    by_cases hcd : c = d
    · subst hcd
      cases s.receiveCallback c <;> simp
    · cases s.receiveCallback c <;> simp [Function.update_apply,hcd,Ne.symm hcd]
  | dangling packet => exact absurd rfl (hl packet)

theorem runHandler_front {s s' : Link} (hs : s.runHandler = some s') :
    ∃ p rest, s.posted = p :: rest ∧ ∀ packet, p ≠ .dangling packet := by
  unfold runHandler at hs
  split at hs <;> first | exact ⟨_,_,‹_›,fun _ => Posted.noConfusion⟩ | cases hs

/-- What one event can do. -/
theorem step_eq_some {F : Framing} {s s' : Link} {e : Event} (hs : step F s e = some s') :
    (∃ e' faces, e = .face e' ∧ Internal.step s.faces e' = some faces ∧ s' = s.afterFace faces e') ∨
    (∃ c, e = .connect c ∧ s' = { s with receiveCallback := Function.update s.receiveCallback c true }) ∨
    (∃ c wire, e = .send c wire ∧ s' = s.send c wire) ∨
    (∃ c header payload, e = .sendHeaderPayload c header payload ∧ s' = s.send c (header ++ payload)) ∨
    (∃ f packet, e = .doSend f packet ∧ s' = s.doSend f packet) ∨
    (e = .runHandler ∧ s.runHandler = some s') := by
  cases e with
  | face e =>
    obtain ⟨faces,he,rfl⟩ := Option.map_eq_some'.mp hs
    exact .inl ⟨e,faces,rfl,he,rfl⟩
  | connect c =>
    simp only [step] at hs
    split_ifs at hs
    exact .inr (.inl ⟨c,rfl,(Option.some_inj.mp hs).symm⟩)
  | send c wire =>
    simp only [step] at hs
    split_ifs at hs
    exact .inr (.inr (.inl ⟨c,wire,rfl,(Option.some_inj.mp hs).symm⟩))
  | sendHeaderPayload c header payload =>
    simp only [step,sendHeaderPayload] at hs
    split_ifs at hs
    exact .inr (.inr (.inr (.inl ⟨c,header,payload,rfl,(Option.some_inj.mp hs).symm⟩)))
  | doSend f packet => exact .inr (.inr (.inr (.inr (.inl ⟨f,packet,rfl,(Option.some_inj.mp hs).symm⟩))))
  | runHandler => exact .inr (.inr (.inr (.inr (.inr ⟨rfl,hs⟩))))

end Link

/-- What the face pair is for: a direct channel, which hands each packet at once to the
transport its sender is paired with. -/
structure Channel where
  faces : State
  forwarderInbox : Nat → List Block
  clientInbox : Nat → List Block

namespace Channel

def deliver (inbox : Nat → List Block) (dest : Option Nat) (packet : Block) : Nat → List Block :=
  match dest with
  | some t => Function.update inbox t (inbox t ++ [packet])
  | none => inbox

/-- One event: a client's send reaches the forwarder transport it points at, and a forwarder
transport's reaches its peer. -/
def step (a : Channel) : Link.Event → Channel
  | .face e => { a with faces := (Internal.step a.faces e).getD a.faces }
  | .send c wire =>
    { a with forwarderInbox := deliver a.forwarderInbox ((a.faces.clients c).bind Client.forwarder) wire }
  | .sendHeaderPayload c header payload =>
    { a with
      forwarderInbox :=
        deliver a.forwarderInbox ((a.faces.clients c).bind Client.forwarder) (header ++ payload) }
  | .doSend f packet => { a with clientInbox := deliver a.clientInbox (a.faces.forwarders f).peer packet }
  | .connect _ | .runHandler => a

def execute (a : Channel) (es : List Link.Event) : Channel := es.foldl step a

def init : Channel := ⟨Internal.init,fun _ => [],fun _ => []⟩

theorem deliver_apply (inbox : Nat → List Block) (dest : Option Nat) (packet : Block) (g : Nat) :
    deliver inbox dest packet g = inbox g ++ if dest = some g then [packet] else [] := by
  cases dest with
  | none => simp [deliver]
  | some t => by_cases h : g = t <;> simp [deliver,Function.update_apply,h,eq_comm]

end Channel

/-- The link against the channel: one pairing, each forwarder transport's packets received and
waiting are its inbox, and each client's are a sublist of its inbox. -/
structure Refines (s : Link) (a : Channel) : Prop where
  faces : s.faces = a.faces
  forwarder : ∀ f, s.forwarderReceived f ++ s.pendingForwarder f = a.forwarderInbox f
  client : ∀ c, (s.clientReceived c ++ s.pendingClient c).Sublist (a.clientInbox c)

namespace Refines

open Link

variable {F : Framing} {s s' : Link} {a : Channel}

theorem init : Refines Link.init Channel.init := ⟨rfl,fun _ => rfl,fun _ => .refl _⟩

theorem post (h : Refines s a) (ps : List Posted) {a' : Channel} (hf : a'.faces = a.faces)
    (hfi : ∀ f, a'.forwarderInbox f = a.forwarderInbox f ++ ps.filterMap (Posted.toForwarder f))
    (hci : ∀ c, a'.clientInbox c = a.clientInbox c ++ ps.filterMap (Posted.toClient c)) :
    Refines { s with posted := s.posted ++ ps } a' where
  faces := h.faces.trans hf.symm
  forwarder f := by
    rw [hfi,← h.forwarder,pendingForwarder,pendingForwarder,List.filterMap_append,List.append_assoc]
  client c := by
    rw [hci,pendingClient,List.filterMap_append,← List.append_assoc]
    exact (h.client c).append (.refl _)

theorem send (h : Refines s a) (c : Nat) (wire : Block) :
    Refines (s.send c wire)
      { a with forwarderInbox :=
          Channel.deliver a.forwarderInbox ((a.faces.clients c).bind Client.forwarder) wire } := by
  rw [send_eq,← h.faces]
  refine h.post _ h.faces (fun f => ?_) fun d => ?_
  · dsimp only
    rw [Channel.deliver_apply]
    cases (s.faces.clients c).bind Client.forwarder with
    | none => simp
    | some t => by_cases ht : t = f <;> simp [ht]
  · cases (s.faces.clients c).bind Client.forwarder <;> simp

theorem doSend (h : Refines s a) (f : Nat) (packet : Block) :
    Refines (s.doSend f packet)
      { a with clientInbox := Channel.deliver a.clientInbox (a.faces.forwarders f).peer packet } := by
  rw [doSend_eq,← h.faces]
  refine h.post _ h.faces (fun g => ?_) fun d => ?_
  · cases (s.faces.forwarders f).peer <;> simp
  · dsimp only
    rw [Channel.deliver_apply]
    cases (s.faces.forwarders f).peer with
    | none => simp
    | some t => by_cases ht : t = d <;> simp [ht]

theorem frame (h : Refines s a) {a' : Channel} (hf : s'.faces = a'.faces) (hp : s'.posted = s.posted)
    (hfr : s'.forwarderReceived = s.forwarderReceived) (hcr : s'.clientReceived = s.clientReceived)
    (hfi : a'.forwarderInbox = a.forwarderInbox) (hci : a'.clientInbox = a.clientInbox) :
    Refines s' a' where
  faces := hf
  forwarder f := by rw [hfi,hfr,← h.forwarder,pendingForwarder,hp]; rfl
  client c := by rw [hci,hcr,pendingClient,hp]; exact h.client c

theorem runHandler (h : Refines s a) (hs : s.runHandler = some s') : Refines s' a := by
  obtain ⟨p,rest,hp,hl⟩ := runHandler_front hs
  obtain ⟨s₁,hs₁,hrest,hf,hcb,hfr,hcr⟩ := runHandler_spec hp hl
  cases hs.symm.trans hs₁
  refine ⟨hf.trans h.faces,fun f => (hfr f).trans (h.forwarder f),fun c => ?_⟩
  have hc := hcr c
  cases hcb' : s.receiveCallback c <;> simp only [hcb',if_true,Bool.false_eq_true,if_false,
    List.append_nil] at hc
  · rw [hc]
    refine ((List.Sublist.refl _).append ?_).trans (h.client c)
    rw [pendingClient,pendingClient,hrest,hp]
    exact (List.sublist_cons_self p rest).filterMap _
  · exact hc ▸ h.client c

theorem afterFace (h : Refines s a) {e : Internal.Event} {faces : State}
    (he : Internal.step s.faces e = some faces) :
    Refines (s.afterFace faces e) (a.step (.face e)) := by
  have hf : faces = (a.step (.face e)).faces := by
    simp [Channel.step,← h.faces,he]
  cases e with
  | destroy c =>
    refine ⟨hf,fun f => ?_,fun d => ?_⟩
    · simp only [Link.afterFace,pendingForwarder,Posted.filterMap_toForwarder_orphan]
      exact h.forwarder f
    · simp only [Link.afterFace,pendingClient,Posted.filterMap_toClient_orphan]
      split_ifs
      · rw [List.append_nil]
        exact (List.sublist_append_left _ _).trans (h.client d)
      · exact h.client d
  | _ => exact h.frame hf rfl rfl rfl rfl rfl

/-- One event keeps the relation, with the channel taking the same event. -/
theorem step (h : Refines s a) {e : Link.Event} (hs : Link.step F s e = some s') :
    Refines s' (a.step e) := by
  rcases Link.step_eq_some hs with ⟨e,faces,rfl,he,rfl⟩ | ⟨c,rfl,rfl⟩ | ⟨c,wire,rfl,rfl⟩ |
    ⟨c,header,payload,rfl,rfl⟩ | ⟨f,packet,rfl,rfl⟩ | ⟨rfl,hs⟩
  · exact h.afterFace he
  · exact h.frame h.faces rfl rfl rfl rfl rfl
  · exact h.send c wire
  · exact h.send c (header ++ payload)
  · exact h.doSend f packet
  · exact h.runHandler hs

/-- A run keeps the relation, with the channel taking the same run. -/
theorem execute (h : Refines s a) {es : List Link.Event} (hs : Link.execute F s es = some s') :
    Refines s' (a.execute es) := by
  induction es generalizing s a with
  | nil =>
    cases hs
    exact h
  | cons e es ih =>
    obtain ⟨s₁,h₁,hs⟩ := Option.bind_eq_some.mp hs
    exact ih (h.step h₁) hs

end Refines

/-- Over every run of the face pair that runs no dangling handler, against a direct channel
taking the same run: the pairing is the same; the packets each forwarder transport has passed
to `Transport::receive`, followed by those still posted to it, are exactly those clients sent
it while pointing at it, in the order sent; and those each client has passed to its
`m_receiveCallback`, followed by those still posted to it, are a sublist of those forwarder
transports sent it while it was their peer, so none reaches a client it was not sent to, twice,
or out of order. -/
theorem received_refines_channel (F : Framing) (es : List Link.Event) (s : Link)
    (hs : Link.execute F Link.init es = some s) :
    s.faces = (Channel.init.execute es).faces ∧
      (∀ f, s.forwarderReceived f ++ s.pendingForwarder f =
        (Channel.init.execute es).forwarderInbox f) ∧
      ∀ c, (s.clientReceived c ++ s.pendingClient c).Sublist ((Channel.init.execute es).clientInbox c) :=
  let h := Refines.init.execute hs
  ⟨h.faces,h.forwarder,h.client⟩

/-- A client sends a packet to its forwarder transport, which sends one back, and the first
handler runs. -/
theorem received_refines_channel_exchange :
    ∃ s, Link.execute ndnTlv Link.init
        [.face (.create 0),.face (.connectToForwarder 0 (some 0)),.send 0 [5,0],.doSend 0 [6,0],
          .runHandler] = some s ∧
      (s.faces = (Channel.init.execute
          [.face (.create 0),.face (.connectToForwarder 0 (some 0)),.send 0 [5,0],.doSend 0 [6,0],
            .runHandler]).faces ∧
        (∀ f, s.forwarderReceived f ++ s.pendingForwarder f =
          (Channel.init.execute
            [.face (.create 0),.face (.connectToForwarder 0 (some 0)),.send 0 [5,0],.doSend 0 [6,0],
              .runHandler]).forwarderInbox f) ∧
        ∀ c, (s.clientReceived c ++ s.pendingClient c).Sublist
          ((Channel.init.execute
            [.face (.create 0),.face (.connectToForwarder 0 (some 0)),.send 0 [5,0],.doSend 0 [6,0],
              .runHandler]).clientInbox c)) :=
  ⟨_,rfl,received_refines_channel ndnTlv
    [.face (.create 0),.face (.connectToForwarder 0 (some 0)),.send 0 [5,0],.doSend 0 [6,0],
      .runHandler] _ rfl⟩

namespace Link

variable {F : Framing} {s s' : Link}

theorem execute_append (F : Framing) (s : Link) (es₁ es₂ : List Event) :
    execute F s (es₁ ++ es₂) = (execute F s es₁).bind (execute F · es₂) := by
  induction es₁ generalizing s with
  | nil => rfl
  | cons e es₁ ih =>
    simp only [List.cons_append,execute,Option.bind_assoc]
    congr 1
    funext s₁
    exact ih s₁

/-- Teardowns that leave no handler of the client waiting. -/
def Quiescent (s : Link) : Event → Prop
  | .face (.destroy c) => s.pendingClient c = []
  | _ => True

/-- The runs from the initial state whose every event `allowed` admits, with the state each
reaches. -/
inductive Runs (F : Framing) (allowed : Link → Event → Prop) : List Event → Link → Prop
  | nil : Runs F allowed [] init
  | snoc {es : List Event} {s s' : Link} {e : Event} :
    Runs F allowed es s → allowed s e → step F s e = some s' → Runs F allowed (es ++ [e]) s'

theorem Runs.execute {allowed : Link → Event → Prop} {es : List Event} (h : Runs F allowed es s) :
    Link.execute F init es = some s := by
  induction h with
  | nil => rfl
  | snoc _ _ hs ih => rw [execute_append,ih,Option.some_bind,Link.execute,hs]; rfl

def Live (s : Link) : Prop := ∀ packet, Posted.dangling packet ∉ s.posted

theorem Live.post (hl : s.Live) {ps : List Posted} (hps : ∀ packet, Posted.dangling packet ∉ ps) :
    ({ s with posted := s.posted ++ ps } : Link).Live := fun packet hm =>
  (List.mem_append.mp hm).elim (hl packet) (hps packet)

theorem Live.send (hl : s.Live) (c : Nat) (wire : Block) : (s.send c wire).Live := by
  rw [send_eq]
  exact hl.post (by simp)

theorem Live.doSend (hl : s.Live) (f : Nat) (packet : Block) : (s.doSend f packet).Live := by
  rw [doSend_eq]
  exact hl.post (by simp)

theorem dangling_mem_orphan (hl : s.Live) {c : Nat} {packet : Block} :
    Posted.dangling packet ∈ s.posted.map (Posted.orphan c) ↔ packet ∈ s.pendingClient c := by
  constructor
  · intro hm
    obtain ⟨p,hp,he⟩ := List.mem_map.mp hm
    cases p with
    | forwarderReceive => cases he
    | dangling q => exact absurd (Posted.dangling.inj (he : Posted.dangling q = _) ▸ hp) (hl packet)
    | clientReceive d q =>
      simp only [Posted.orphan] at he
      split_ifs at he with hd
      cases he
      exact List.mem_filterMap.mpr ⟨_,hp,by simp [hd]⟩
  · intro hm
    obtain ⟨p,hp,he⟩ := List.mem_filterMap.mp hm
    cases p with
    | clientReceive d q =>
      simp only [Posted.toClient_clientReceive] at he
      split_ifs at he with hd
      cases he
      exact List.mem_map.mpr ⟨_,hp,by simp [Posted.orphan,hd]⟩
    | forwarderReceive => cases he
    | dangling => cases he

/-- A teardown that leaves no handler of the client waiting orphans none. -/
theorem Live.destroy (hl : s.Live) {c : Nat} (hq : s.pendingClient c = []) (faces : State) :
    (s.afterFace faces (.destroy c)).Live := fun packet hm => by
  have hmem := (dangling_mem_orphan hl).mp hm
  rw [hq] at hmem
  exact List.not_mem_nil _ hmem

/-- Every event a quiescent run admits keeps every handler live. -/
theorem Live.step (hl : s.Live) {e : Event} (hq : Quiescent s e) (hs : Link.step F s e = some s') :
    s'.Live := by
  rcases step_eq_some hs with ⟨e,faces,rfl,-,rfl⟩ | ⟨c,rfl,rfl⟩ | ⟨c,wire,rfl,rfl⟩ |
    ⟨c,header,payload,rfl,rfl⟩ | ⟨f,packet,rfl,rfl⟩ | ⟨rfl,hs⟩
  · cases e with
    | destroy c => exact hl.destroy hq faces
    | _ => exact hl
  · exact hl
  · exact hl.send c wire
  · exact hl.send c _
  · exact hl.doSend f packet
  · obtain ⟨p,rest,hp,hp'⟩ := runHandler_front hs
    obtain ⟨s₁,hs₁,hrest,-⟩ := runHandler_spec hp hp'
    cases hs.symm.trans hs₁
    exact fun packet hm => hl packet (hp ▸ List.mem_cons_of_mem _ (hrest ▸ hm))

/-- The io_service runs every handler of a queue in which none dangles: each packet reaches its
transport, a client's when its callback is set, and the pairing stays as it was. -/
theorem drain (F : Framing) (s : Link) (hl : s.Live) :
    ∃ s', execute F s (List.replicate s.posted.length .runHandler) = some s' ∧ s'.posted = [] ∧
      s'.faces = s.faces ∧
      (∀ f, s'.forwarderReceived f = s.forwarderReceived f ++ s.pendingForwarder f) ∧
      ∀ c, s'.clientReceived c =
        s.clientReceived c ++ if s.receiveCallback c then s.pendingClient c else [] := by
  obtain ⟨ps,hps⟩ : ∃ ps, s.posted = ps := ⟨_,rfl⟩
  induction ps generalizing s with
  | nil =>
    refine ⟨s,by rw [hps]; rfl,hps,rfl,fun f => ?_,fun c => ?_⟩ <;>
      simp [pendingForwarder,pendingClient,hps]
  | cons p rest ih =>
    obtain ⟨s₁,hs₁,hrest,hf,hcb,hfr,hcr⟩ :=
      runHandler_spec hps fun packet he => hl packet (he ▸ hps ▸ List.mem_cons_self _ _)
    obtain ⟨s',hs',hp',hf',hfr',hcr'⟩ :=
      ih s₁ (fun packet hm => hl packet (hps ▸ List.mem_cons_of_mem _ (hrest ▸ hm))) hrest
    refine ⟨s',?_,hp',hf'.trans hf,fun f => by rw [hfr',hfr],fun c => by rw [hcr',hcb,hcr]⟩
    rw [hps,List.length_cons,List.replicate_succ,execute,step,hs₁,Option.some_bind,← hrest]
    exact hs'

end Link

end Internal
end MwNfd
