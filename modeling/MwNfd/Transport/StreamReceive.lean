import MwNfd.Transport.Stream

/-! The receive path of the stream transport: `processAllReceived` frames the bytes held, so runs
of receive completions deliver the framing of the stream whatever the split. `pause` and
`resume` placed inside a receive break this. -/

namespace MwNfd

namespace StreamTransport

@[simp] theorem read_length (buffer : Nat → UInt8) (start n : Nat) :
    (read buffer start n).length = n := by
  simp [read]

theorem getElem_read (buffer : Nat → UInt8) (start n i : Nat) (h : i < (read buffer start n).length) :
    (read buffer start n)[i] = buffer (start + i) := by
  simp [read]

theorem read_add (buffer : Nat → UInt8) (start a b : Nat) :
    read buffer start (a + b) = read buffer start a ++ read buffer (start + a) b := by
  simp [read,List.range_add,Nat.add_assoc]

theorem read_drop (buffer : Nat → UInt8) (start n k : Nat) :
    (read buffer start n).drop k = read buffer (start + k) (n - k) := by
  apply List.ext_getElem (by simp)
  intro i h₁ h₂
  simp [getElem_read,Nat.add_assoc]

theorem read_take (buffer : Nat → UInt8) (start n k : Nat) (h : k ≤ n) :
    (read buffer start n).take k = read buffer start k := by
  obtain ⟨m,rfl⟩ := Nat.exists_eq_add_of_le h
  simp [read_add]

@[simp] theorem read_copy_self (buffer : Nat → UInt8) (start : Nat) (bytes : List UInt8) :
    read (copy buffer start bytes) start bytes.length = bytes := by
  apply List.ext_getElem (by simp)
  intro i h₁ h₂
  simp only [read_length] at h₁
  simp [getElem_read,copy,h₁,List.getD_eq_getElem?_getD,List.getElem?_eq_getElem h₁]

theorem read_copy_of_le (buffer : Nat → UInt8) {start start' : Nat} (bytes : List UInt8) {n : Nat}
    (h : start' + n ≤ start) : read (copy buffer start bytes) start' n = read buffer start' n := by
  apply List.ext_getElem (by simp)
  intro i h₁ h₂
  simp only [read_length] at h₁
  simp only [getElem_read,copy]
  rw [if_neg (by omega)]

variable (F : Framing) (maxPacketSize : Nat)

/-- `processAllReceived` hands `m_receiveCallback` the elements at the front of the bytes from
`offset`, stops where they end, and reports whether no byte is left over. -/
theorem processAllReceived_eq (buffer : Nat → UInt8) (offset n : Nat) (h : offset ≤ n) :
    processAllReceived F buffer offset n =
      ((F.frames (read buffer offset (n - offset))).1,
        n - (F.frames (read buffer offset (n - offset))).2.length,
        (F.frames (read buffer offset (n - offset))).2.isEmpty) := by
  rw [processAllReceived]
  split_ifs with hlt
  · split
    · rename_i hnone
      rw [Framing.frames_of_none hnone]
      simp only [read_length,Prod.mk.injEq,true_and]
      refine ⟨by omega,?_⟩
      cases hr : read buffer offset (n - offset) with
      | nil => have := congrArg List.length hr; simp at this; omega
      | cons => rfl
    · rename_i size hsome
      have hpos := F.size_pos hsome
      have hle := F.size_le hsome
      simp only [read_length] at hle
      rw [processAllReceived_eq buffer (offset + size) n (by omega),Framing.frames_of_some hsome,
        read_take _ _ _ _ hle,read_drop,Nat.sub_sub]
  · obtain rfl : offset = n := by omega
    simp [read]
termination_by n - offset
decreasing_by all_goals omega

/-- `processAllReceived` from an `offset` within the bytes hands `m_receiveCallback` exactly the
longest run of whole elements starting there: the elements spell the bytes up to the returned
offset, which is within the bytes and starts no element, and the result says whether it is their
end. The loop ends because each element it takes is at least one byte (`Framing.size_pos`). -/
theorem processAllReceived_spec (buffer : Nat → UInt8) (offset nBytesAvailable : Nat)
    (h : offset ≤ nBytesAvailable) (blocks : List Block) (offset' : Nat) (processedAll : Bool) :
    processAllReceived F buffer offset nBytesAvailable = (blocks,offset',processedAll) ↔
      (∀ e ∈ blocks, F.IsElement e) ∧ blocks.flatten = read buffer offset (offset' - offset) ∧
        offset ≤ offset' ∧ offset' ≤ nBytesAvailable ∧
        F.fromBuffer (read buffer offset' (nBytesAvailable - offset')) = none ∧
        (processedAll = true ↔ offset' = nBytesAvailable) := by
  rw [processAllReceived_eq F buffer offset nBytesAvailable h]
  generalize hB : read buffer offset (nBytesAvailable - offset) = B
  have hsplit : ∀ d, offset + d ≤ nBytesAvailable →
      B = read buffer offset d ++ read buffer (offset + d) (nBytesAvailable - (offset + d)) := by
    intro d hd
    rw [← hB,← read_add]
    congr 1
    omega
  have hBlen : B.length = nBytesAvailable - offset := by rw [← hB,read_length]
  constructor
  · rintro ⟨rfl,rfl,rfl⟩
    have hflat := Framing.frames_flatten (F := F) B
    have hlen := congrArg List.length hflat
    rw [hBlen,List.length_append] at hlen
    have hd : nBytesAvailable - (F.frames B).2.length = offset + (F.frames B).1.flatten.length := by
      omega
    obtain ⟨h₁,h₂⟩ := List.append_inj (hflat.trans (hsplit _ (by omega))) (read_length _ _ _).symm
    rw [hd,Nat.add_sub_cancel_left]
    refine ⟨fun e he => Framing.isElement_of_mem_frames he,h₁,by omega,by omega,
      h₂ ▸ Framing.fromBuffer_frames_snd B,?_⟩
    rw [List.isEmpty_iff,← List.length_eq_zero]
    omega
  · rintro ⟨hes,hflat,h₁,h₂,hnone,hb⟩
    obtain ⟨d,rfl⟩ := Nat.exists_eq_add_of_le h₁
    rw [Nat.add_sub_cancel_left] at hflat
    rw [hsplit d h₂,← hflat,Framing.frames_elements hes hnone,read_length,Prod.mk.injEq,
      Prod.mk.injEq]
    refine ⟨rfl,by omega,?_⟩
    rw [Bool.eq_iff_iff,hb,List.isEmpty_iff,← List.length_eq_zero,read_length]
    omega

/-- `05 01 00 07`: one whole element, then a byte that starts none. -/
theorem processAllReceived_spec_heldBytes :
    0 ≤ 4 ∧
      (processAllReceived ndnTlv (fun i => [0x05,0x01,0x00,0x07].getD i 0) 0 4 =
          ([[0x05,0x01,0x00]],3,false) ↔
        (∀ e ∈ [[0x05,0x01,0x00]], ndnTlv.IsElement e) ∧
          [[(0x05 : UInt8),0x01,0x00]].flatten = read (fun i => [0x05,0x01,0x00,0x07].getD i 0) 0 (3 - 0) ∧
          0 ≤ 3 ∧ 3 ≤ 4 ∧
          ndnTlv.fromBuffer (read (fun i => [0x05,0x01,0x00,0x07].getD i 0) 3 (4 - 3)) = none ∧
          (false = true ↔ 3 = 4)) :=
  ⟨by decide,processAllReceived_spec ndnTlv _ 0 4 (by decide) _ _ _⟩

def Impl.held (s : Impl) : List UInt8 := read s.inputBuffer 0 s.inputBufferSize

theorem handleAsyncReceive_full (s : Impl) (n : Nat)
    (hnone : F.fromBuffer (read s.inputBuffer 0 (s.inputBufferSize + n)) = none)
    (hfull : s.inputBufferSize + n = maxPacketSize) (hpos : 0 < maxPacketSize) :
    s.handleAsyncReceive F maxPacketSize (.success n) =
      { s with inputBufferSize := s.inputBufferSize + n }.close.ndnThrow
        "input buffer full, but a valid TLV cannot be decoded" := by
  subst hfull
  generalize hB : read s.inputBuffer 0 (s.inputBufferSize + n) = B at hnone
  have hlen : B.length = s.inputBufferSize + n := by rw [← hB,read_length]
  have hne : B.isEmpty = false := by
    cases B with
    | nil => simp at hlen; omega
    | cons => rfl
  simp only [Impl.handleAsyncReceive,processAllReceived_eq F _ 0 _ (Nat.zero_le _),Nat.sub_zero,hB,
    Framing.frames_of_none hnone,hne,hlen]
  simp

/-- A receive of `n` bytes whose handler does not throw: the elements at the front of the
bytes then held are delivered, the bytes after them are held at the front of the buffer, and
the next receive starts. -/
theorem handleAsyncReceive_continue (s : Impl) (n : Nat)
    (h : ¬(F.fromBuffer (read s.inputBuffer 0 (s.inputBufferSize + n)) = none ∧
      s.inputBufferSize + n = maxPacketSize)) :
    ∃ buffer, read buffer 0 (F.frames (read s.inputBuffer 0 (s.inputBufferSize + n))).2.length =
        (F.frames (read s.inputBuffer 0 (s.inputBufferSize + n))).2 ∧
      s.handleAsyncReceive F maxPacketSize (.success n) =
        { s with
          inputBuffer := buffer
          inputBufferSize := (F.frames (read s.inputBuffer 0 (s.inputBufferSize + n))).2.length
          delivered := s.delivered ++ (F.frames (read s.inputBuffer 0 (s.inputBufferSize + n))).1 }.asyncReceive
          maxPacketSize := by
  generalize hB : read s.inputBuffer 0 (s.inputBufferSize + n) = B at h
  have hlen : B.length = s.inputBufferSize + n := by rw [← hB,read_length]
  have hflat := Framing.frames_flatten (F := F) B
  simp only [Impl.handleAsyncReceive,processAllReceived_eq F _ 0 _ (Nat.zero_le _),Nat.sub_zero,hB]
  cases hk : F.fromBuffer B with
  | none =>
    rw [Framing.frames_of_none hk] at hflat ⊢
    have hmax : s.inputBufferSize + n ≠ maxPacketSize := fun hm => h ⟨hk,hm⟩
    refine ⟨s.inputBuffer,by rw [hlen,← hB],?_⟩
    simp [hmax,hlen]
  | some k =>
    have hlt := Framing.frames_snd_length_lt hk
    generalize (F.frames B).2 = r at hflat hlt ⊢
    have hNm : s.inputBufferSize + n - (s.inputBufferSize + n - r.length) = r.length := by omega
    have hread : read s.inputBuffer (s.inputBufferSize + n - r.length) r.length = r := by
      have hd := read_drop s.inputBuffer 0 (s.inputBufferSize + n) (s.inputBufferSize + n - r.length)
      rw [hB,Nat.zero_add,hNm] at hd
      generalize (F.frames B).1.flatten = L at hflat
      subst hflat
      rw [← hd,show s.inputBufferSize + n - r.length = L.length by simp at hlen; omega,List.drop_left]
    rw [if_neg (by simp; omega),if_pos (by omega),hNm]
    by_cases hm : r.length = 0
    · rw [if_neg (by omega)]
      refine ⟨s.inputBuffer,by rw [List.length_eq_zero.mp hm]; rfl,?_⟩
      rw [hm]
    · rw [if_pos (by omega)]
      have hc := read_copy_self s.inputBuffer 0 (read s.inputBuffer (s.inputBufferSize + n - r.length) r.length)
      rw [read_length] at hc
      exact ⟨_,by rw [hc,hread],rfl⟩

/-- The receive path at rest: one receive in flight, pointed after the bytes held with the
rest of the buffer as room, no handler waiting, every byte the peer sent received, the socket
open, and nothing thrown. -/
structure Receiving (s : Impl) : Prop where
  pending : s.pending = [.receive s.inputBufferSize (maxPacketSize - s.inputBufferSize)]
  handlers : s.handlers = []
  peerBytes : s.peerBytes = []
  socketOpen : s.socketOpen = true
  thrown : s.thrown = none
  size_lt : s.inputBufferSize < maxPacketSize

/-- A receive completing with `chunk`: the peer sends it, the receive in flight takes all of
it, and its handler runs. -/
def chunkEvents (chunk : List UInt8) : List Event :=
  [.peerSends chunk,.complete 0 (.success chunk.length),.runHandler]

def receiveEvents (chunks : List (List UInt8)) : List Event := chunks.flatMap chunkEvents

/-- Chunks that fit: each is non-empty and no longer than the room the transport offers for
it, `maxPacketSize` less the bytes held after the elements before it; `held` is what it holds
first. -/
def Fits : List UInt8 → List (List UInt8) → Prop
  | _, [] => True
  | held, c :: cs => 0 < c.length ∧ held.length + c.length ≤ maxPacketSize ∧
      Fits (F.frames (held ++ c)).2 cs

instance Fits.decidable : (held : List UInt8) → (chunks : List (List UInt8)) →
    Decidable (Fits F maxPacketSize held chunks)
  | _, [] => isTrue trivial
  | held, c :: cs =>
    have := Fits.decidable (F.frames (held ++ c)).2 cs
    inferInstanceAs (Decidable (_ ∧ _ ∧ _))

theorem flatten_ne_nil_of_fits {held : List UInt8} {chunks : List (List UInt8)}
    (h : Fits F maxPacketSize held chunks) (hne : chunks ≠ []) : chunks.flatten ≠ [] := by
  match chunks, h with
  | c :: cs, ⟨hc,_⟩ => simpa using fun h => by simp [h] at hc

@[simp] theorem held_length (s : Impl) : s.held.length = s.inputBufferSize := read_length _ _ _

def pauseResumeEvents : List Event := [.pause,.runHandler,.resume]

/-- A receive completing with `c`, then `pause` and `resume` before its handler runs. -/
def pauseBeforeHandlerEvents (c : List UInt8) : List Event :=
  [.peerSends c,.complete 0 (.success c.length),.pause,.resume,.runHandler]

section

variable {F maxPacketSize} {s : Impl}

theorem Receiving.execute_chunk (h : Receiving maxPacketSize s) {c : List UInt8} (hc : 0 < c.length)
    (hfit : s.inputBufferSize + c.length ≤ maxPacketSize) :
    execute F maxPacketSize s (chunkEvents c) =
      some ({ s with pending := [], inputBuffer := copy s.inputBuffer s.inputBufferSize c }.handleAsyncReceive
        F maxPacketSize (.success c.length)) := by
  obtain ⟨hp,hh,hb,-,ht,-⟩ := h
  simp only [chunkEvents,execute,step,ht,Impl.complete,hp,hb,hh,Option.isSome_none,Bool.false_eq_true,
    if_false,Option.some_bind,List.get?_cons_zero,List.nil_append,List.length_nil,List.take_length,
    List.drop_length,List.eraseIdx_cons_zero]
  rw [if_pos ⟨by omega,by omega,.inl hc⟩]
  simp [Impl.runHandler,hh,hb,ht]

theorem Receiving.execute_chunk_none (h : Receiving maxPacketSize s) {c : List UInt8}
    (hc : ¬(0 < c.length ∧ s.inputBufferSize + c.length ≤ maxPacketSize)) :
    execute F maxPacketSize s (chunkEvents c) = none := by
  obtain ⟨hp,hh,hb,-,ht,hlt⟩ := h
  simp only [chunkEvents,execute,step,ht,Impl.complete,hp,hb,Option.isSome_none,Bool.false_eq_true,
    if_false,Option.some_bind,List.get?_cons_zero,List.nil_append]
  rw [if_neg (by omega)]
  rfl

theorem read_copy_append (buffer : Nat → UInt8) (size : Nat) (c : List UInt8) :
    read (copy buffer size c) 0 (size + c.length) = read buffer 0 size ++ c := by
  rw [read_add,read_copy_of_le _ _ (by omega),Nat.zero_add,read_copy_self]

theorem full_iff {B : List UInt8} (hB : B.length ≤ maxPacketSize) :
    (F.fromBuffer B = none ∧ B.length = maxPacketSize) ↔ (F.frames B).2.length = maxPacketSize := by
  constructor
  · rintro ⟨hnone,hlen⟩
    rw [Framing.frames_of_none hnone,hlen]
  · intro hlen
    have hle := Framing.frames_snd_length_le (F := F) B
    cases hk : F.fromBuffer B with
    | none => exact ⟨rfl,by omega⟩
    | some k => have := Framing.frames_snd_length_lt hk; omega

/-- One chunk from the receive path at rest: the elements at the front of the bytes held and
the chunk are delivered, and the receive path is at rest again holding the bytes after them,
unless they fill the buffer, which throws. -/
theorem Receiving.chunk (h : Receiving maxPacketSize s) {c : List UInt8} (hc : 0 < c.length)
    (hfit : s.inputBufferSize + c.length ≤ maxPacketSize) :
    ∃ s', execute F maxPacketSize s (chunkEvents c) = some s' ∧
      s'.delivered = s.delivered ++ (F.frames (s.held ++ c)).1 ∧
      if (F.frames (s.held ++ c)).2.length = maxPacketSize then
        s'.thrown = some "input buffer full, but a valid TLV cannot be decoded"
      else Receiving maxPacketSize s' ∧ s'.held = (F.frames (s.held ++ c)).2 ∧
        s'.isReceiving = s.isReceiving ∧ s'.isConnecting = s.isConnecting := by
  rw [h.execute_chunk hc hfit]
  have hB := read_copy_append s.inputBuffer s.inputBufferSize c
  have hlen : (s.held ++ c).length ≤ maxPacketSize := by simp [Impl.held]; omega
  by_cases hfull : (F.frames (s.held ++ c)).2.length = maxPacketSize
  · obtain ⟨hnone,hmax⟩ := (full_iff hlen).mpr hfull
    simp only [if_pos hfull]
    refine ⟨_,rfl,?_⟩
    rw [handleAsyncReceive_full F maxPacketSize _ _ (by simpa [Impl.held,hB] using hnone)
      (by simpa [Impl.held] using hmax) (by omega),Framing.frames_of_none hnone]
    simp [Impl.ndnThrow,Impl.close,Impl.cancelTimer,Impl.cancelSocket,Impl.cancelOps]
  · simp only [if_neg hfull]
    obtain ⟨buffer,hbuf,heq⟩ := handleAsyncReceive_continue F maxPacketSize
      { s with pending := [],inputBuffer := copy s.inputBuffer s.inputBufferSize c } c.length
      (by simp only [hB]; exact fun hf => hfull ((full_iff hlen).mp (by simpa [Impl.held] using hf)))
    simp only [hB] at hbuf heq
    have hlt : (F.frames (read s.inputBuffer 0 s.inputBufferSize ++ c)).2.length < maxPacketSize :=
      lt_of_le_of_ne ((Framing.frames_snd_length_le _).trans hlen) hfull
    refine ⟨_,congrArg some heq,?_,⟨?_,?_,?_,?_,?_,?_⟩,?_,?_,?_⟩
    all_goals simp [Impl.asyncReceive,Impl.startOp,h.socketOpen,h.handlers,h.peerBytes,h.thrown,
      Impl.held,Op.onSocket,hbuf,hlt,hlt.le]

/-- A run of chunk completions from the receive path at rest holding no element: whatever the
split, the elements delivered are those at the front of the bytes held and the chunks, and the
receive path ends at rest holding the bytes after them, or throws when those fill the buffer,
which only the last chunk may do. -/
theorem Receiving.execute_receiveEvents (h : Receiving maxPacketSize s)
    (hheld : F.fromBuffer s.held = none) {chunks : List (List UInt8)}
    (hfit : Fits F maxPacketSize s.held chunks)
    (hless : ∀ P, P <+: chunks.flatten → P.length < chunks.flatten.length →
      (F.frames (s.held ++ P)).2.length < maxPacketSize) :
    ∃ s', execute F maxPacketSize s (receiveEvents chunks) = some s' ∧
      s'.delivered = s.delivered ++ (F.frames (s.held ++ chunks.flatten)).1 ∧
      if (F.frames (s.held ++ chunks.flatten)).2.length = maxPacketSize then
        s'.thrown = some "input buffer full, but a valid TLV cannot be decoded"
      else Receiving maxPacketSize s' ∧ s'.held = (F.frames (s.held ++ chunks.flatten)).2 ∧
        s'.isReceiving = s.isReceiving ∧ s'.isConnecting = s.isConnecting := by
  induction chunks generalizing s with
  | nil =>
    refine ⟨s,rfl,by simp [Framing.frames_of_none hheld],?_⟩
    rw [List.flatten_nil,List.append_nil,Framing.frames_of_none hheld,held_length,
      if_neg (Nat.ne_of_lt h.size_lt)]
    exact ⟨h,rfl,rfl,rfl⟩
  | cons c cs ih =>
    obtain ⟨hc,hroom,hfit⟩ := hfit
    rw [held_length] at hroom
    obtain ⟨s₁,h₁,hdel,hif⟩ := h.chunk (F := F) hc hroom
    have happ : F.frames (s.held ++ (c :: cs).flatten) =
        ((F.frames (s.held ++ c)).1 ++ (F.frames ((F.frames (s.held ++ c)).2 ++ cs.flatten)).1,
          (F.frames ((F.frames (s.held ++ c)).2 ++ cs.flatten)).2) := by
      rw [List.flatten_cons,← List.append_assoc,Framing.frames_append]
    simp only [receiveEvents,List.flatMap_cons,execute_append,h₁,Option.some_bind,happ]
    by_cases hfull : (F.frames (s.held ++ c)).2.length = maxPacketSize
    · rw [if_pos hfull] at hif
      obtain rfl : cs = [] := by
        by_contra hne
        have := hless c (by simp [List.prefix_append])
          (by simpa using List.length_pos.mpr (flatten_ne_nil_of_fits F maxPacketSize hfit hne))
        omega
      simp only [List.flatten_nil,List.append_nil,
        Framing.frames_of_none (Framing.fromBuffer_frames_snd (F := F) (s.held ++ c))]
      exact ⟨s₁,rfl,by simp [hdel],by rw [if_pos hfull]; exact hif⟩
    · rw [if_neg hfull] at hif
      obtain ⟨hr₁,hheld₁,hrec₁,hcon₁⟩ := hif
      have hless₁ : ∀ P, P <+: cs.flatten → P.length < cs.flatten.length →
          (F.frames (s₁.held ++ P)).2.length < maxPacketSize := by
        intro P hP hlt
        have := hless (c ++ P) (by simpa using (List.prefix_append_right_inj c).mpr hP) (by simpa using hlt)
        rwa [← List.append_assoc,Framing.frames_append (s.held ++ c) P,← hheld₁] at this
      obtain ⟨s',hs',hdel',hif'⟩ := ih hr₁ (by rw [hheld₁]; exact Framing.fromBuffer_frames_snd _)
        (by rwa [hheld₁]) hless₁
      rw [hheld₁,hrec₁,hcon₁] at hif'
      rw [hheld₁] at hdel'
      exact ⟨s',hs',by simp [hdel',hdel],hif'⟩

theorem Receiving.fits_of_execute (h : Receiving maxPacketSize s) {chunks : List (List UInt8)}
    {s' : Impl} (hs : execute F maxPacketSize s (receiveEvents chunks) = some s') :
    Fits F maxPacketSize s.held chunks := by
  induction chunks generalizing s with
  | nil => trivial
  | cons c cs ih =>
    simp only [receiveEvents,List.flatMap_cons,execute_append] at hs
    have hfit : 0 < c.length ∧ s.inputBufferSize + c.length ≤ maxPacketSize := by
      by_contra hc
      rw [h.execute_chunk_none hc] at hs
      cases hs
    obtain ⟨s₁,h₁,-,hif⟩ := h.chunk (F := F) hfit.1 hfit.2
    rw [h₁,Option.some_bind] at hs
    refine ⟨hfit.1,by simpa using hfit.2,?_⟩
    split_ifs at hif with hfull
    · obtain ⟨hnil,-⟩ := execute_of_thrown F maxPacketSize (by simp [hif]) hs
      obtain rfl : cs = [] := by
        cases cs with
        | nil => rfl
        | cons => simp [receiveEvents,chunkEvents] at hnil
      trivial
    · rw [← hif.2.1]
      exact ih hif.1 hs

theorem held_eq_nil (h0 : s.inputBufferSize = 0) : s.held = [] := by
  simp [Impl.held,h0,read]

/-- A stream of elements of at most `maxPacketSize` bytes followed by a proper prefix `r` of
another: every split that fits is received, delivering exactly the elements and holding `r`. -/
theorem Receiving.receive_elements (h : Receiving maxPacketSize s) (h0 : s.inputBufferSize = 0)
    {es : List Block} {e r : List UInt8} (hes : ∀ x ∈ es, F.IsElement x ∧ x.length ≤ maxPacketSize)
    (he : F.IsElement e) (hemax : e.length ≤ maxPacketSize) (hre : r <+: e) (hlt : r.length < e.length)
    {chunks : List (List UInt8)} (hflat : chunks.flatten = es.flatten ++ r)
    (hfit : Fits F maxPacketSize [] chunks) :
    ∃ s', execute F maxPacketSize s (receiveEvents chunks) = some s' ∧ Receiving maxPacketSize s' ∧
      s'.delivered = s.delivered ++ es ∧ s'.held = r := by
  have hheld := held_eq_nil h0
  have hr : ∀ j, F.fromBuffer (r.take j) = none := fun j =>
    Framing.fromBuffer_of_prefix he ((List.take_prefix j r).trans hre)
      (lt_of_le_of_lt (List.take_prefix j r).length_le hlt)
  have hframes : F.frames (chunks.flatten) = (es,r) := by
    rw [hflat,Framing.frames_elements (fun x hx => (hes x hx).1) (by simpa using hr r.length)]
  have hless : ∀ P, P <+: chunks.flatten → (F.frames P).2.length < maxPacketSize := by
    intro P hP
    obtain ⟨-,hle,heq⟩ := Framing.frames_prefix_remainder hes hr (by omega) (hflat ▸ hP)
    refine lt_of_le_of_ne hle fun hm => ?_
    rw [heq hm,← hflat,hframes] at hm
    dsimp only at hm
    omega
  obtain ⟨s',hs',hdel,hif⟩ := h.execute_receiveEvents (by rw [hheld]; exact Framing.fromBuffer_nil (F := F))
    (by rwa [hheld]) (fun P hP _ => by rw [hheld]; exact hless P hP)
  rw [hheld,List.nil_append,hframes] at hdel hif
  dsimp only at hdel hif
  rw [if_neg (by omega)] at hif
  exact ⟨s',hs',hif.1,hdel,hif.2.1⟩

/-- Elements of at most `maxPacketSize` bytes followed by the first `maxPacketSize` bytes `t` of
a longer element: every split that fits is received; it delivers only whole elements before `t`,
and throws exactly when all of `t` has arrived, all the elements delivered. -/
theorem Receiving.receive_oversized (h : Receiving maxPacketSize s) (h0 : s.inputBufferSize = 0)
    {es : List Block} {t : List UInt8} (hes : ∀ x ∈ es, F.IsElement x ∧ x.length ≤ maxPacketSize)
    (ht : t.length = maxPacketSize) (hu : ∀ j, F.fromBuffer (t.take j) = none)
    {chunks : List (List UInt8)} (hpre : chunks.flatten <+: es.flatten ++ t)
    (hfit : Fits F maxPacketSize [] chunks) :
    ∃ s', execute F maxPacketSize s (receiveEvents chunks) = some s' ∧
      (∃ es', es' <+: es ∧ s'.delivered = s.delivered ++ es') ∧
      (s'.thrown = some "input buffer full, but a valid TLV cannot be decoded" ↔
        chunks.flatten = es.flatten ++ t) ∧
      (s'.thrown.isSome → s'.delivered = s.delivered ++ es) := by
  have hheld := held_eq_nil h0
  have hrem := fun P (hP : P <+: chunks.flatten) =>
    Framing.frames_prefix_remainder hes hu ht.le (hP.trans hpre)
  have hless : ∀ P, P <+: chunks.flatten → P.length < chunks.flatten.length →
      (F.frames P).2.length < maxPacketSize := by
    intro P hP hlt
    obtain ⟨-,hle,heq⟩ := hrem P hP
    refine lt_of_le_of_ne hle fun hm => ?_
    have h₁ := congrArg List.length (heq hm)
    have h₂ := hpre.length_le
    simp only [List.length_append] at h₁ h₂
    omega
  obtain ⟨s',hs',hdel,hif⟩ := h.execute_receiveEvents (by rw [hheld]; exact Framing.fromBuffer_nil (F := F))
    (by rwa [hheld]) (fun P hP hlt => by rw [hheld]; exact hless P hP hlt)
  rw [hheld,List.nil_append] at hdel hif
  obtain ⟨hpre',-,heq⟩ := hrem _ (List.prefix_refl _)
  refine ⟨s',hs',⟨_,hpre',hdel⟩,?_⟩
  split_ifs at hif with hm
  · have hall := heq hm
    have hframes : (F.frames chunks.flatten).1 = es := by
      rw [hall,Framing.frames_elements (fun x hx => (hes x hx).1) (by simpa using hu t.length)]
    exact ⟨iff_of_true hif hall,fun _ => hdel.trans (by rw [hframes])⟩
  · have hnone := hif.1.thrown
    refine ⟨iff_of_false (by simp [hnone]) fun hall => hm ?_,by simp [hnone]⟩
    rw [hall,Framing.frames_elements (fun x hx => (hes x hx).1) (by simpa using hu t.length),ht]

theorem Receiving.execute_pauseResume (h : Receiving maxPacketSize s) (hr : s.isReceiving = true)
    (hc : s.isConnecting = false) :
    execute F maxPacketSize s pauseResumeEvents =
      some { s with inputBufferSize := 0, pending := [.receive 0 (maxPacketSize - 0)] } := by
  obtain ⟨hp,hh,-,ho,ht,-⟩ := h
  simp [pauseResumeEvents,execute,step,ht,Impl.pause,hr,hc,ho,Impl.cancelSocket,Impl.cancelOps,hp,hh,
    Op.onSocket,Impl.runHandler,Impl.handleAsyncReceive,Impl.resume,Impl.asyncReceive,Impl.startOp]

theorem Receiving.pauseResume (h : Receiving maxPacketSize s) :
    Receiving maxPacketSize { s with inputBufferSize := 0, pending := [.receive 0 (maxPacketSize - 0)] } :=
  ⟨rfl,h.handlers,h.peerBytes,h.socketOpen,h.thrown,by have := h.size_lt; dsimp only; omega⟩

theorem Receiving.execute_pauseBeforeHandler (h : Receiving maxPacketSize s) (hr : s.isReceiving = true)
    (hc : s.isConnecting = false) {c : List UInt8} (hc0 : 0 < c.length)
    (hfit : s.inputBufferSize + c.length ≤ maxPacketSize) :
    execute F maxPacketSize s (pauseBeforeHandlerEvents c) =
      some ({ s with
        pending := [.receive 0 (maxPacketSize - 0)]
        inputBuffer := copy s.inputBuffer s.inputBufferSize c
        inputBufferSize := 0 }.handleAsyncReceive F maxPacketSize (.success c.length)) := by
  obtain ⟨hp,hh,hb,ho,ht,-⟩ := h
  simp only [pauseBeforeHandlerEvents,execute,step,ht,Impl.complete,hp,hb,Option.isSome_none,
    Bool.false_eq_true,if_false,Option.some_bind,List.get?_cons_zero,List.nil_append]
  rw [if_pos ⟨by omega,by simp,.inl hc0⟩]
  simp [Impl.pause,hr,hc,ho,hh,ht,Impl.cancelSocket,Impl.cancelOps,Op.onSocket,Impl.resume,
    Impl.asyncReceive,Impl.startOp,Impl.runHandler]

/-- After `pauseBeforeHandlerEvents`, the handler of the completed receive reads what it
received from the front of the buffer, keeps the bytes after the elements there, and starts a
second receive beside the one `resume` started. -/
theorem Receiving.pauseBeforeHandler (h : Receiving maxPacketSize s) (hr : s.isReceiving = true)
    (hc : s.isConnecting = false) {c : List UInt8} (hc0 : 0 < c.length)
    (hfit : s.inputBufferSize + c.length ≤ maxPacketSize) (hlt : c.length < maxPacketSize) :
    ∃ s', execute F maxPacketSize s (pauseBeforeHandlerEvents c) = some s' ∧ s'.thrown = none ∧
      s'.pending = [.receive 0 (maxPacketSize - 0),
        .receive (F.frames (read (copy s.inputBuffer s.inputBufferSize c) 0 c.length)).2.length
          (maxPacketSize - (F.frames (read (copy s.inputBuffer s.inputBufferSize c) 0 c.length)).2.length)] := by
  rw [h.execute_pauseBeforeHandler hr hc hc0 hfit]
  obtain ⟨buffer,-,heq⟩ := handleAsyncReceive_continue F maxPacketSize
    { s with
      pending := [.receive 0 (maxPacketSize - 0)]
      inputBuffer := copy s.inputBuffer s.inputBufferSize c
      inputBufferSize := 0 } c.length (fun hf => by simp at hf; omega)
  simp only [Nat.zero_add] at heq
  have hk := (Framing.frames_snd_length_le (F := F) (read (copy s.inputBuffer s.inputBufferSize c) 0 c.length)).trans
    (read_length _ _ _).le
  rw [heq,Impl.asyncReceive_of_le _ _ (by dsimp only; omega)]
  exact ⟨_,rfl,by simp [h.thrown],by simp [Impl.startOp,h.socketOpen]⟩

end

/-- The transport that `connect` and `resume` leave, once the connection is made: receiving,
with an empty buffer and one receive in flight. -/
def receivingExample : Impl :=
  ⟨false,true,true,fun _ => 0,0,[],0,true,[.receive 0 maxNdnPacketSize],[],[],[],[],none⟩

theorem execute_connect_resume :
    execute ndnTlv maxNdnPacketSize Impl.init
      [.connect,.complete 1 (.success 0),.runHandler,.runHandler,.resume] = some receivingExample :=
  rfl

theorem receiving_receivingExample : Receiving maxNdnPacketSize receivingExample :=
  ⟨rfl,rfl,rfl,rfl,rfl,by decide⟩

theorem exists_iff_and_forall {o : Option Impl} {fits : Prop} {P : Impl → Prop}
    (hfits : ∀ s', o = some s' → fits) (hrun : fits → ∃ s', o = some s' ∧ P s') :
    ((∃ s', o = some s') ↔ fits) ∧ ∀ s', o = some s' → P s' := by
  refine ⟨⟨fun ⟨s',h⟩ => hfits s' h,fun hf => (hrun hf).imp fun _ h => h.1⟩,fun s' h => ?_⟩
  obtain ⟨s'',h'',hp⟩ := hrun (hfits s' h)
  rwa [Option.some.inj (h.symm.trans h'')]

/-- The framing law of the receive path, from an empty buffer with one receive in flight. For
a stream of well-formed elements of at most `maxPacketSize` bytes followed by a proper prefix
`r` of another, a split into chunks can arrive exactly when each chunk fits the room offered
for it, and then the elements are delivered in order, each once, `r` is held and nothing is
thrown, whatever the split. For elements followed by the first `maxPacketSize` bytes `t` of a
longer element, only whole elements before `t` are delivered, and the transport throws exactly
when all of `t` has arrived, every element before it delivered. -/
theorem receive_framing (s : Impl) (hs : Receiving maxPacketSize s) (hs0 : s.inputBufferSize = 0) :
    (∀ (es : List Block) (e r : List UInt8), (∀ x ∈ es, F.IsElement x ∧ x.length ≤ maxPacketSize) →
      F.IsElement e → e.length ≤ maxPacketSize → r <+: e → r.length < e.length →
      ∀ chunks : List (List UInt8), chunks.flatten = es.flatten ++ r →
        ((∃ s', execute F maxPacketSize s (receiveEvents chunks) = some s') ↔
          Fits F maxPacketSize [] chunks) ∧
        ∀ s', execute F maxPacketSize s (receiveEvents chunks) = some s' →
          s'.delivered = s.delivered ++ es ∧ s'.held = r ∧ s'.thrown = none) ∧
    (∀ (es : List Block) (t : List UInt8), (∀ x ∈ es, F.IsElement x ∧ x.length ≤ maxPacketSize) →
      t.length = maxPacketSize → (∀ j, F.fromBuffer (t.take j) = none) →
      ∀ chunks : List (List UInt8), chunks.flatten <+: es.flatten ++ t →
        ((∃ s', execute F maxPacketSize s (receiveEvents chunks) = some s') ↔
          Fits F maxPacketSize [] chunks) ∧
        ∀ s', execute F maxPacketSize s (receiveEvents chunks) = some s' →
          (∃ es', es' <+: es ∧ s'.delivered = s.delivered ++ es') ∧
          (s'.thrown = some "input buffer full, but a valid TLV cannot be decoded" ↔
            chunks.flatten = es.flatten ++ t) ∧
          (s'.thrown.isSome → s'.delivered = s.delivered ++ es)) := by
  have hfits : ∀ chunks s', execute F maxPacketSize s (receiveEvents chunks) = some s' →
      Fits F maxPacketSize [] chunks := fun _ _ h' => held_eq_nil hs0 ▸ hs.fits_of_execute h'
  refine ⟨fun es e r hes he hemax hre hlt chunks hflat => exists_iff_and_forall (hfits chunks)
      fun hfit => ?_,fun es t hes ht hu chunks hpre => exists_iff_and_forall (hfits chunks)
      fun hfit => hs.receive_oversized hs0 hes ht hu hpre hfit⟩
  obtain ⟨s',h',hr,hdel,hheld⟩ := hs.receive_elements hs0 hes he hemax hre hlt hflat hfit
  exact ⟨s',h',hdel,hheld,hr.thrown⟩

theorem receive_framing_receivingExample :
    Receiving maxNdnPacketSize receivingExample ∧ receivingExample.inputBufferSize = 0 ∧
    (∀ (es : List Block) (e r : List UInt8), (∀ x ∈ es, ndnTlv.IsElement x ∧ x.length ≤ maxNdnPacketSize) →
      ndnTlv.IsElement e → e.length ≤ maxNdnPacketSize → r <+: e → r.length < e.length →
      ∀ chunks : List (List UInt8), chunks.flatten = es.flatten ++ r →
        ((∃ s', execute ndnTlv maxNdnPacketSize receivingExample (receiveEvents chunks) = some s') ↔
          Fits ndnTlv maxNdnPacketSize [] chunks) ∧
        ∀ s', execute ndnTlv maxNdnPacketSize receivingExample (receiveEvents chunks) = some s' →
          s'.delivered = receivingExample.delivered ++ es ∧ s'.held = r ∧ s'.thrown = none) ∧
    (∀ (es : List Block) (t : List UInt8), (∀ x ∈ es, ndnTlv.IsElement x ∧ x.length ≤ maxNdnPacketSize) →
      t.length = maxNdnPacketSize → (∀ j, ndnTlv.fromBuffer (t.take j) = none) →
      ∀ chunks : List (List UInt8), chunks.flatten <+: es.flatten ++ t →
        ((∃ s', execute ndnTlv maxNdnPacketSize receivingExample (receiveEvents chunks) = some s') ↔
          Fits ndnTlv maxNdnPacketSize [] chunks) ∧
        ∀ s', execute ndnTlv maxNdnPacketSize receivingExample (receiveEvents chunks) = some s' →
          (∃ es', es' <+: es ∧ s'.delivered = receivingExample.delivered ++ es') ∧
          (s'.thrown = some "input buffer full, but a valid TLV cannot be decoded" ↔
            chunks.flatten = es.flatten ++ t) ∧
          (s'.thrown.isSome → s'.delivered = receivingExample.delivered ++ es)) :=
  ⟨receiving_receivingExample,rfl,
    receive_framing ndnTlv maxNdnPacketSize receivingExample receiving_receivingExample rfl⟩

/-- `pause` and `resume` break the receive path where they fall inside a receive. Paused and
resumed between a receive's completion and its handler, from any receive path at rest, the
transport ends with two receives in flight: the one `resume` started, and the one the handler
started, since `handleAsyncReceive` restarts receiving without the `!m_isReceiving` guard of
`resume`. From `receivingExample` with `05 00`, both point at the front of the buffer. Paused
and resumed while a partial element is held, `resume` sets `m_inputBufferSize` to 0 and drops
it: `05 02 07 00` arriving as `05 02` and `07 00` is delivered whole, but with the pair between
the chunks `07 00` is delivered as an element. -/
theorem pause_resume_two_receives :
    (∀ (F : Framing) (maxPacketSize : Nat) (s : Impl) (c : List UInt8), Receiving maxPacketSize s →
      s.isReceiving = true → s.isConnecting = false → 0 < c.length →
      s.inputBufferSize + c.length ≤ maxPacketSize → c.length < maxPacketSize →
      ∃ s', execute F maxPacketSize s (pauseBeforeHandlerEvents c) = some s' ∧ s'.thrown = none ∧
        ∃ k, s'.pending = [.receive 0 (maxPacketSize - 0),.receive k (maxPacketSize - k)]) ∧
    (∃ s', execute ndnTlv maxNdnPacketSize receivingExample (pauseBeforeHandlerEvents [0x05,0x00]) =
        some s' ∧ s'.thrown = none ∧
        s'.pending = [.receive 0 maxNdnPacketSize,.receive 0 maxNdnPacketSize]) ∧
    (execute ndnTlv maxNdnPacketSize receivingExample (receiveEvents [[0x05,0x02],[0x07,0x00]])).map
        Impl.delivered = some [[0x05,0x02,0x07,0x00]] ∧
    (execute ndnTlv maxNdnPacketSize receivingExample
        (chunkEvents [0x05,0x02] ++ pauseResumeEvents ++ chunkEvents [0x07,0x00])).map
        Impl.delivered = some [[0x07,0x00]] := by
  have h := receiving_receivingExample
  have hheld : receivingExample.held = [] := held_eq_nil rfl
  refine ⟨fun F maxPacketSize s c hs hr hc hc0 hfit hlt => ?_,?_,?_,?_⟩
  · obtain ⟨s',hs',ht',hp'⟩ := hs.pauseBeforeHandler (F := F) hr hc hc0 hfit hlt
    exact ⟨s',hs',ht',_,hp'⟩
  · obtain ⟨s',hs',ht',hp'⟩ := h.pauseBeforeHandler (F := ndnTlv) rfl rfl
      (by decide : 0 < [(0x05 : UInt8),0x00].length) (by decide) (by decide)
    exact ⟨s',hs',ht',hp'.trans rfl⟩
  · have hfit : Fits ndnTlv maxNdnPacketSize receivingExample.held [[0x05,0x02],[0x07,0x00]] := by
      rw [hheld]; decide
    obtain ⟨s',hs',hdel,-⟩ := h.execute_receiveEvents (by rw [hheld]; exact Framing.fromBuffer_nil) hfit
      (fun P hP _ => by
        rw [hheld,List.nil_append]
        exact (Framing.frames_snd_length_le P).trans_lt (hP.length_le.trans_lt (by decide)))
    rw [hs',Option.map_some',hdel,hheld]
    rfl
  · obtain ⟨s₁,h₁,hdel₁,hif₁⟩ := h.chunk (F := ndnTlv) (by decide : 0 < [(0x05 : UInt8),0x02].length)
      (by decide)
    rw [hheld,if_neg (by decide)] at hif₁
    obtain ⟨hr₁,-,hrec₁,hcon₁⟩ := hif₁
    obtain ⟨s₃,h₃,hdel₃,-⟩ := hr₁.pauseResume.chunk (F := ndnTlv)
      (by decide : 0 < [(0x07 : UInt8),0x00].length) (by simp [maxNdnPacketSize])
    simp only [execute_append,h₁,Option.some_bind,
      hr₁.execute_pauseResume (hrec₁.trans rfl) (hcon₁.trans rfl)]
    rw [h₃,Option.map_some',hdel₃]
    simp only [hdel₁,hheld]
    rfl

end StreamTransport

end MwNfd
