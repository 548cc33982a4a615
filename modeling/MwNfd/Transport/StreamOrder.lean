import MwNfd.Transport.StreamWrite

/-! The write path over runs that may pause. A pause can stall transmission for good, but over
every run without `close` at most one write is in flight, of the queue's front, and no
sequence goes on the wire twice or out of turn. -/

namespace MwNfd

namespace StreamTransport

open Impl

namespace Ordered

variable {F : Framing} {maxPacketSize : Nat} {sent : List BlockSequence} {s : Impl}

theorem pause (h : Ordered sent s) (ht : s.pause.thrown = none) : Ordered sent s.pause := by
  unfold Impl.pause at ht ⊢
  split_ifs at ht ⊢
  · exact h
  · exact (h.congr rfl rfl rfl rfl rfl rfl rfl : Ordered sent { s with isReceiving := false }).cancelOps _
  · simp [Impl.ndnThrow] at ht
  · exact h

/-- Every event but `close` keeps the invariant, or throws. -/
theorem step (h : Ordered sent s) {e : Event} (hc : e ≠ .close) {s' : Impl}
    (hs : StreamTransport.step F maxPacketSize s e = some s') (ht : s'.thrown = none) :
    Ordered (sent ++ e.sent) s' := by
  unfold StreamTransport.step at hs
  split_ifs at hs
  cases e with
  | close => exact absurd rfl hc
  | send sequence => cases hs; exact h.send sequence
  | connect => cases hs; simpa only [Event.sent,List.append_nil] using h.connect ht
  | pause => cases hs; simpa only [Event.sent,List.append_nil] using h.pause ht
  | resume => cases hs; simpa only [Event.sent,List.append_nil] using h.resume
  | peerSends bytes =>
    cases hs
    simp only [Event.sent,List.append_nil]
    exact h.congr rfl rfl rfl rfl rfl rfl rfl
  | complete i r => simpa only [Event.sent,List.append_nil] using h.complete hs
  | runHandler =>
    dsimp only at hs
    split at hs
    · cases hs
    · rename_i op r rest hh
      cases hs
      simpa only [Event.sent,List.append_nil] using h.runHandler hh ht

/-- A run without `close` that throws nothing keeps the invariant, with what it handed to `send`
added. -/
theorem execute (h : Ordered sent s) {es : List Event} (hc : Event.close ∉ es) {s' : Impl}
    (hs : StreamTransport.execute F maxPacketSize s es = some s') (ht : s'.thrown = none) :
    Ordered (sent ++ sends es) s' := by
  induction es generalizing s sent with
  | nil => cases hs; simpa [sends] using h
  | cons e es ih =>
    obtain ⟨s₁,h₁,hs⟩ := Option.bind_eq_some.mp hs
    have ht₁ : s₁.thrown = none := by
      cases hth : s₁.thrown
      · rfl
      · simpa [ht] using thrown_execute F maxPacketSize (by simp [hth]) hs
    have := ih (h.step (fun he => hc (he ▸ List.mem_cons_self _ _)) h₁ ht₁)
      (fun hm => hc (List.mem_cons_of_mem _ hm)) hs
    rwa [List.append_assoc] at this

end Ordered

/-- Over every run of a fresh transport that does not call `close` and throws nothing, pauses
included: the sequences written, followed by those queued and not yet written, are those handed
to `send`, in order, so none goes on the wire twice or out of turn; and at most one write is in
flight, of the queue's front on a connected transport. -/
theorem sends_written_at_most_once (F : Framing) (maxPacketSize : Nat) (es : List Event) (s : Impl)
    (hc : Event.close ∉ es) (hs : execute F maxPacketSize Impl.init es = some s)
    (ht : s.thrown = none) :
    s.written ++ s.unwritten = sends es ∧ s.ops.countP Op.isWrite ≤ 1 ∧
      ∀ op ∈ s.ops, op.isWrite = true →
        s.isConnected = true ∧ ∃ x ∈ s.transmissionQueue.head?, op = .write x.1 x.2 := by
  have h := Ordered.init.execute hc hs ht
  exact ⟨h.account,h.countP_le,h.write_mem⟩

/-- The run of `pause_stalls_transmission`: the write cancelled by `pause` leaves both sequences
queued and unwritten, and nothing in flight. -/
theorem sends_written_at_most_once_pauseDuringWrite :
    ∃ s, execute ndnTlv maxNdnPacketSize Impl.init pauseDuringWrite = some s ∧ s.thrown = none ∧
      s.written ++ s.unwritten = sends pauseDuringWrite ∧ s.ops.countP Op.isWrite ≤ 1 ∧
      ∀ op ∈ s.ops, op.isWrite = true →
        s.isConnected = true ∧ ∃ x ∈ s.transmissionQueue.head?, op = .write x.1 x.2 :=
  ⟨_,rfl,rfl,sends_written_at_most_once ndnTlv maxNdnPacketSize _ _ (by decide) rfl rfl⟩

end StreamTransport

end MwNfd
