import MwNfd.Transport.Stream

/-! The write path of `StreamTransportImpl`. `Ordered` holds over every run without `close`;
`Writing` adds, for runs without `pause`, that the writes outstanding are exactly the one
`asyncWrite` owes, so every sequence sent goes on the wire in order. -/

namespace MwNfd
namespace StreamTransport

def Op.isWrite : Op → Bool
  | .write .. => true
  | _ => false

def Result.isSuccess : Result → Bool
  | .success _ => true
  | _ => false

def Event.sent : Event → List BlockSequence
  | .send sequence => [sequence]
  | _ => []

/-- The sequences a run hands to `send`, in order. -/
def sends (es : List Event) : List BlockSequence := es.flatMap Event.sent

namespace Impl

/-- The operations whose handler has not run: those in flight, then those whose handler
waits. -/
def ops (s : Impl) : List Op := s.pending ++ s.handlers.map Prod.fst

/-- A write has completed, and its handler, which takes the front off the queue, waits. -/
def frontWritten (s : Impl) : Bool := s.handlers.any fun h => h.1.isWrite && h.2.isSuccess

def unwritten (s : Impl) : List BlockSequence :=
  (s.transmissionQueue.drop (if s.frontWritten then 1 else 0)).map Prod.snd

/-- The write `asyncWrite` owes: of the queue's front, once connected. -/
def frontWrite (s : Impl) : List Op :=
  if s.isConnected then (s.transmissionQueue.head?.map fun x => .write x.1 x.2).toList else []

theorem frontWrite_length_le (s : Impl) : s.frontWrite.length ≤ 1 := by
  unfold frontWrite
  split
  · cases s.transmissionQueue.head? <;> simp
  · simp

@[simp] theorem startOp_transmissionQueue (s : Impl) (op : Op) :
    (s.startOp op).transmissionQueue = s.transmissionQueue := by
  unfold startOp; split <;> rfl

@[simp] theorem startOp_nextItem (s : Impl) (op : Op) : (s.startOp op).nextItem = s.nextItem := by
  unfold startOp; split <;> rfl

@[simp] theorem startOp_isConnected (s : Impl) (op : Op) :
    (s.startOp op).isConnected = s.isConnected := by
  unfold startOp; split <;> rfl

@[simp] theorem resume_isConnected (s : Impl) (maxPacketSize : Nat) :
    (s.resume maxPacketSize).isConnected = s.isConnected := by
  unfold resume; split_ifs <;> simp [asyncReceive]

theorem ops_startOp (s : Impl) (op : Op) : List.Perm (s.startOp op).ops (s.ops ++ [op]) := by
  unfold startOp ops
  split
  · simp
  · simp only [List.append_assoc]
    exact (List.perm_append_comm : List.Perm ([op] ++ _) _).append_left s.pending

theorem handlers_startOp (s : Impl) (op : Op) {x : Op × Result} (hx : x ∈ (s.startOp op).handlers) :
    x ∈ s.handlers ∨ x = (op,.error) := by
  unfold startOp at hx
  split at hx <;> simp_all

theorem frontWritten_startOp (s : Impl) (op : Op) : (s.startOp op).frontWritten = s.frontWritten := by
  unfold startOp frontWritten
  split <;> simp [Result.isSuccess]

theorem ops_cancelOps (s : Impl) (p : Op → Bool) : List.Perm (s.cancelOps p).ops s.ops := by
  have h : (s.cancelOps p).ops =
      s.pending.filter (fun op => !p op) ++ s.handlers.map Prod.fst ++ s.pending.filter p := by
    simp [cancelOps,ops,Function.comp_def]
  rw [h]
  refine List.perm_append_comm.trans ?_
  rw [← List.append_assoc]
  exact (List.filter_append_perm p s.pending).append_right _

theorem frontWritten_cancelOps (s : Impl) (p : Op → Bool) :
    (s.cancelOps p).frontWritten = s.frontWritten := by
  simp [cancelOps,frontWritten,Result.isSuccess]

theorem ops_dropHandler {s : Impl} {op : Op} {r : Result} {rest : List (Op × Result)}
    (hh : s.handlers = (op,r) :: rest) : List.Perm ({ s with handlers := rest }.ops ++ [op]) s.ops := by
  simp only [ops,hh,List.map_cons,List.append_assoc]
  exact List.perm_append_comm.append_left s.pending

end Impl

open Impl

theorem perm_cons_eraseIdx {l : List Op} {i : Nat} {op : Op} (h : l.get? i = some op) :
    List.Perm l (op :: l.eraseIdx i) := by
  obtain ⟨hi,rfl⟩ := List.get?_eq_some.mp h
  exact (List.perm_cons_erase (List.get_mem l i hi)).trans (.cons _ (List.erase_getElem hi))

theorem ops_complete {s : Impl} {i : Nat} {op : Op} (r : Result) (hop : s.pending.get? i = some op) :
    List.Perm ({ s with pending := s.pending.eraseIdx i, handlers := s.handlers ++ [(op,r)] } : Impl).ops
      s.ops := by
  simp only [ops,List.map_append,List.map_cons,List.map_nil,← List.append_assoc]
  exact (List.perm_append_singleton _ _).trans ((perm_cons_eraseIdx hop).append_right _).symm

theorem frontWritten_of_countP {s : Impl} (h0 : s.ops.countP Op.isWrite = 0) :
    s.frontWritten = false := by
  rw [List.countP_eq_zero] at h0
  simp only [frontWritten,List.any_eq_false,Bool.and_eq_true,not_and]
  exact fun x hx hw => absurd hw (by simpa using h0 x.1 (List.mem_append_right _ (List.mem_map_of_mem _ hx)))

theorem frontWritten_of_pending {s : Impl} (hle : s.ops.countP Op.isWrite ≤ 1) {i : Nat} {op : Op}
    (hop : s.pending.get? i = some op) (hw : op.isWrite = true) : s.frontWritten = false := by
  cases hfw : s.frontWritten
  · rfl
  obtain ⟨y,hy,hyw⟩ := List.any_eq_true.mp hfw
  have h1 : 0 < s.pending.countP Op.isWrite := List.countP_pos_iff.mpr ⟨_,List.get?_mem hop,hw⟩
  have h2 : 0 < (s.handlers.map Prod.fst).countP Op.isWrite :=
    List.countP_pos_iff.mpr ⟨y.1,List.mem_map_of_mem _ hy,(Bool.and_eq_true_iff.mp hyw).1⟩
  rw [ops,List.countP_append] at hle
  omega

theorem written_unwritten_completeWrite {s : Impl} {i n : Nat} {x : Nat × BlockSequence}
    (hf : s.frontWritten = false) (hx : x ∈ s.transmissionQueue.head?) :
    let s' : Impl :=
      { s with
        pending := s.pending.eraseIdx i
        handlers := s.handlers ++ [(.write x.1 x.2,.success n)]
        written := s.written ++ [x.2] }
    s'.written ++ s'.unwritten = s.written ++ s.unwritten := by
  intro s'
  have hq := List.eq_cons_of_mem_head? hx
  generalize s.transmissionQueue.tail = rest at hq
  have hf' : s'.frontWritten = true := by simp [s',frontWritten,Op.isWrite,Result.isSuccess]
  have hq' : s'.transmissionQueue = x :: rest := hq
  rw [unwritten,unwritten,hf,hf',hq']
  simp [s']

theorem countP_isWrite_dropHandler {s : Impl} (hle : s.ops.countP Op.isWrite ≤ 1) {op : Op}
    {r : Result} {rest : List (Op × Result)} (hh : s.handlers = (op,r) :: rest)
    (hw : op.isWrite = true) : ({ s with handlers := rest } : Impl).ops.countP Op.isWrite = 0 := by
  have := (ops_dropHandler hh).countP_eq Op.isWrite
  simp [hw] at this
  omega

theorem unwritten_takeFront {s : Impl} {x : Nat × BlockSequence} {tail : List (Nat × BlockSequence)}
    {n : Nat} {rest : List (Op × Result)} (hh : s.handlers = (.write x.1 x.2,.success n) :: rest)
    (hq : s.transmissionQueue = x :: tail)
    (h0 : ({ s with handlers := rest } : Impl).ops.countP Op.isWrite = 0) :
    ({ s with handlers := rest, transmissionQueue := tail } : Impl).unwritten = s.unwritten := by
  have hf : s.frontWritten = true := by simp [frontWritten,hh,Op.isWrite,Result.isSuccess]
  have hf0 : ({ s with handlers := rest, transmissionQueue := tail } : Impl).frontWritten = false :=
    frontWritten_of_countP h0
  simp [unwritten,hf,hf0,hq]

theorem filter_front {q tail : List (Nat × BlockSequence)} {x : Nat × BlockSequence}
    (hs : (q.map Prod.fst).Pairwise (· < ·)) (hq : q = x :: tail) :
    q.filter (fun y => decide (y.1 ≠ x.1)) = tail := by
  subst hq
  rw [List.map_cons,List.pairwise_cons] at hs
  rw [List.filter_cons_of_neg (by simp),List.filter_eq_self]
  intro y hy
  simpa using Nat.ne_of_gt (hs.1 y.1 (List.mem_map_of_mem _ hy))

/-- The receive handler, where it does not throw, leaves the transport as it was or changes only
the buffer and the blocks delivered, then starts the next receive. -/
theorem handleAsyncReceive_cases (F : Framing) (maxPacketSize : Nat) (s : Impl) (r : Result)
    (ht : (s.handleAsyncReceive F maxPacketSize r).thrown = none) :
    s.handleAsyncReceive F maxPacketSize r = s ∨
      ∃ buffer size delivered, s.handleAsyncReceive F maxPacketSize r =
        Impl.asyncReceive maxPacketSize
          { s with inputBuffer := buffer, inputBufferSize := size, delivered := delivered } := by
  unfold Impl.handleAsyncReceive at ht ⊢
  cases r with
  | operationCanceled => exact .inl rfl
  | error => simp [Impl.ndnThrow] at ht
  | success n =>
    dsimp only at ht ⊢
    split
    · rename_i hfull
      simp [hfull,Impl.ndnThrow] at ht
    · split_ifs <;> exact .inr ⟨_,_,_,rfl⟩

theorem Impl.asyncWrite_eq (s : Impl) (ho : s.socketOpen = true) :
    s.asyncWrite =
      { s with pending := s.pending ++ (s.transmissionQueue.head?.map fun x => .write x.1 x.2).toList } := by
  unfold Impl.asyncWrite Impl.startOp
  split
  · rename_i hq
    simp [hq,ho]
  · rename_i hq
    cases s
    subst hq
    simp

theorem countP_isWrite_resume (s : Impl) (maxPacketSize : Nat) :
    (s.resume maxPacketSize).ops.countP Op.isWrite = s.ops.countP Op.isWrite := by
  unfold Impl.resume Impl.asyncReceive
  split_ifs
  all_goals first | rfl | (rw [(ops_startOp _ _).countP_eq,List.countP_append]; rfl)

/-- The write path's safety invariant, for runs that have handed `sent` to `send`. Weaker than
`Writing`: a write may be cancelled and not started again. -/
structure Ordered (sent : List BlockSequence) (s : Impl) : Prop where
  ids_sorted : (s.transmissionQueue.map Prod.fst).Pairwise (· < ·)
  ids_lt : ∀ x ∈ s.transmissionQueue, x.1 < s.nextItem
  connected_open : s.isConnected = true → s.socketOpen = true
  connect_open : 0 < s.ops.count .connect →
    s.socketOpen = true ∧ s.isConnected = false ∧ s.ops.count .connect = 1
  countP_le : s.ops.countP Op.isWrite ≤ 1
  write_mem : ∀ op ∈ s.ops, op.isWrite = true →
    s.isConnected = true ∧ ∃ x ∈ s.transmissionQueue.head?, op = .write x.1 x.2
  account : s.written ++ s.unwritten = sent

namespace Ordered

variable {F : Framing} {maxPacketSize : Nat} {sent : List BlockSequence} {s : Impl}

theorem frontWritten_queue (h : Ordered sent s) (hf : s.frontWritten = true) :
    s.transmissionQueue ≠ [] := by
  obtain ⟨x,hx,hw⟩ := List.any_eq_true.mp hf
  obtain ⟨-,y,hy,-⟩ := h.write_mem _ (List.mem_append_right _ (List.mem_map_of_mem _ hx))
    (Bool.and_eq_true_iff.mp hw).1
  intro hq
  simp [hq] at hy

/-- The fields the invariant reads are unchanged, up to operations leaving and operations that
are neither writes nor connects joining. -/
theorem frame (h : Ordered sent s) {s' : Impl} (removed extra : List Op)
    (hq : s'.transmissionQueue = s.transmissionQueue) (hn : s'.nextItem = s.nextItem)
    (hc : s'.isConnected = s.isConnected) (ho : s'.socketOpen = s.socketOpen)
    (hw : s'.written = s.written) (hf : s'.frontWritten = s.frontWritten)
    (hops : List.Perm (s'.ops ++ removed) (s.ops ++ extra))
    (hextra : ∀ op ∈ extra, op.isWrite = false ∧ op ≠ .connect) : Ordered sent s' := by
  have hle : ∀ p : Op → Bool, (∀ op ∈ extra, p op = false) →
      s'.ops.countP p ≤ s.ops.countP p := by
    intro p hp
    have he : extra.countP p = 0 := List.countP_eq_zero.mpr fun op hop => by simp [hp op hop]
    have := hops.countP_eq p
    rw [List.countP_append,List.countP_append,he] at this
    omega
  have hcon : s'.ops.count .connect ≤ s.ops.count .connect :=
    hle _ fun op hop => by simpa using (hextra op hop).2
  have hu : s'.unwritten = s.unwritten := by simp only [unwritten,hq,hf]
  refine ⟨hq ▸ h.ids_sorted,by rw [hq,hn]; exact h.ids_lt,by rw [hc,ho]; exact h.connected_open,
    fun hpos => ?_,(hle _ fun op hop => (hextra op hop).1).trans h.countP_le,
    fun op hop hw' => ?_,by rw [hw,hu]; exact h.account⟩
  · obtain ⟨h1,h2,h3⟩ := h.connect_open (by omega)
    exact ⟨ho ▸ h1,hc ▸ h2,by omega⟩
  · rcases List.mem_append.mp (hops.subset (List.mem_append_left _ hop)) with hop | hop
    · rw [hc,hq]
      exact h.write_mem op hop hw'
    · simp [(hextra op hop).1] at hw'

theorem congr (h : Ordered sent s) {s' : Impl}
    (hq : s'.transmissionQueue = s.transmissionQueue) (hn : s'.nextItem = s.nextItem)
    (hc : s'.isConnected = s.isConnected) (ho : s'.socketOpen = s.socketOpen)
    (hp : s'.pending = s.pending) (hh : s'.handlers = s.handlers) (hw : s'.written = s.written) :
    Ordered sent s' :=
  h.frame [] [] hq hn hc ho hw (by simp only [frontWritten,hh]) (by simp only [ops,hp,hh]; rfl)
    (by simp)

theorem startOp (h : Ordered sent s) {op : Op} (hw : op.isWrite = false) (hc : op ≠ .connect) :
    Ordered sent (s.startOp op) :=
  h.frame [] [op] (by simp) (by simp) (by simp) (by simp) (by simp) (frontWritten_startOp s op)
    (by simpa using ops_startOp s op) (by simp [hw,hc])

theorem asyncReceive (h : Ordered sent s) : Ordered sent (s.asyncReceive maxPacketSize) := by
  unfold Impl.asyncReceive
  split
  · exact h.startOp rfl (by simp)
  · exact h.congr rfl rfl rfl rfl rfl rfl rfl

theorem cancelOps (h : Ordered sent s) (p : Op → Bool) : Ordered sent (s.cancelOps p) :=
  h.frame [] [] rfl rfl rfl rfl rfl (frontWritten_cancelOps s p) (by simpa using ops_cancelOps s p)
    (by simp)

theorem cancelTimer (h : Ordered sent s) : Ordered sent s.cancelTimer :=
  h.cancelOps _

theorem resume (h : Ordered sent s) : Ordered sent (s.resume maxPacketSize) := by
  unfold Impl.resume
  split_ifs
  · exact h
  · refine asyncReceive ?_
    exact h.congr rfl rfl rfl rfl rfl rfl rfl
  · exact h

theorem dropHandler (h : Ordered sent s) {op : Op} {r : Result} {rest : List (Op × Result)}
    (hh : s.handlers = (op,r) :: rest) (hw : (op.isWrite && r.isSuccess) = false) :
    Ordered sent { s with handlers := rest } :=
  h.frame [op] [] rfl rfl rfl rfl rfl (by simp [frontWritten,hh,hw])
    (by simpa using ops_dropHandler hh) (by simp)

theorem asyncWrite (h : Ordered sent s) (hc : s.isConnected = true)
    (h0 : s.ops.countP Op.isWrite = 0) : Ordered sent s.asyncWrite := by
  unfold Impl.asyncWrite
  split
  · rename_i queueItem sequence rest hq
    have hops := ops_startOp s (.write queueItem sequence)
    refine ⟨by simpa using h.ids_sorted,by simpa using h.ids_lt,by simpa using h.connected_open,
      fun hpos => ?_,?_,fun op hop hw => ?_,?_⟩
    · rw [hops.count_eq,List.count_append] at hpos ⊢
      simpa using h.connect_open (by simpa using hpos)
    · rw [hops.countP_eq,List.countP_append,h0]
      rfl
    · rcases List.mem_append.mp (hops.subset hop) with hop | hop
      · exact absurd h0 (List.countP_pos_iff.mpr ⟨op,hop,hw⟩).ne'
      · simp [List.mem_singleton.mp hop,hc,hq]
    · simpa [unwritten,frontWritten_startOp] using h.account
  · exact h

theorem enqueue (h : Ordered sent s) (sequence : BlockSequence) :
    Ordered (sent ++ [sequence])
      { s with
        transmissionQueue := s.transmissionQueue ++ [(s.nextItem,sequence)]
        nextItem := s.nextItem + 1 } where
  ids_sorted := by
    rw [List.map_append]
    refine List.pairwise_append.mpr ⟨h.ids_sorted,List.pairwise_singleton _ _,?_⟩
    simp only [List.mem_map,List.map_cons,List.map_nil,List.mem_singleton]
    rintro _ ⟨x,hx,rfl⟩ _ rfl
    exact h.ids_lt x hx
  ids_lt x hx := by
    rcases List.mem_append.mp hx with hx | hx
    · exact Nat.lt_succ_of_lt (h.ids_lt x hx)
    · simp [List.mem_singleton.mp hx]
  connected_open := h.connected_open
  connect_open := h.connect_open
  countP_le := h.countP_le
  write_mem op hop hw := by
    obtain ⟨hc,x,hx,rfl⟩ := h.write_mem op hop hw
    refine ⟨hc,x,?_,rfl⟩
    rw [Option.mem_def] at hx ⊢
    rw [List.head?_append,hx]
    rfl
  account := by
    have hd : (if s.frontWritten then 1 else 0) ≤ s.transmissionQueue.length := by
      split
      · exact List.length_pos.mpr (h.frontWritten_queue ‹_›)
      · exact Nat.zero_le _
    simp only [unwritten,frontWritten] at hd ⊢
    rw [List.drop_append_of_le_length hd,List.map_append,← List.append_assoc]
    exact congrArg (· ++ _) h.account

theorem send (h : Ordered sent s) (sequence : BlockSequence) :
    Ordered (sent ++ [sequence]) (s.send sequence) := by
  have h₁ := h.enqueue sequence
  unfold Impl.send
  dsimp only
  split_ifs with hcq
  · obtain ⟨hc,hl⟩ := Bool.and_eq_true_iff.mp hcq
    have hq : s.transmissionQueue = [] := by simpa using hl
    refine h₁.asyncWrite hc (List.countP_eq_zero.mpr fun op hop hw => ?_)
    obtain ⟨-,x,hx,-⟩ := h.write_mem op hop hw
    simp [hq] at hx
  · exact h₁

theorem connect (h : Ordered sent s) (ht : s.connect.thrown = none) : Ordered sent s.connect := by
  by_cases hc : s.isConnecting
  · rw [Impl.connect,if_pos hc]
    exact h
  have h₁ : Ordered sent (({ s with isConnecting := true } : Impl).cancelTimer.startOp .wait) :=
    (h.congr rfl rfl rfl rfl rfl rfl rfl : Ordered sent { s with isConnecting := true }).cancelTimer.startOp
      rfl (by simp)
  rw [Impl.connect,if_neg hc] at ht ⊢
  generalize (({ s with isConnecting := true } : Impl).cancelTimer).startOp .wait = s₁ at h₁ ht ⊢
  dsimp only at ht ⊢
  split_ifs at ht ⊢ with ho
  · simp [Impl.ndnThrow] at ht
  have hnc : s₁.isConnected = false := by
    cases hcs : s₁.isConnected
    · rfl
    · exact absurd (h₁.connected_open hcs) ho
  have h0 : s₁.ops.count .connect = 0 := by
    by_contra hne
    exact ho (h₁.connect_open (Nat.pos_of_ne_zero hne)).1
  have hops : List.Perm ({ s₁ with socketOpen := true, pending := s₁.pending ++ [.connect] } : Impl).ops
      (s₁.ops ++ [.connect]) :=
    ops_startOp { s₁ with socketOpen := true } .connect
  rw [Impl.startOp,if_neg (by simp)]
  refine { h₁ with
    connected_open := fun _ => rfl
    connect_open := fun _ => ⟨rfl,hnc,?_⟩
    countP_le := ?_
    write_mem := fun op hop hw => ?_ }
  · rw [hops.count_eq,List.count_append,h0]
    rfl
  · rw [hops.countP_eq,List.countP_append]
    exact h₁.countP_le
  · rcases List.mem_append.mp (hops.subset hop) with hop | hop
    · exact h₁.write_mem op hop hw
    · simp [List.mem_singleton.mp hop,Op.isWrite] at hw

theorem completeHandler (h : Ordered sent s) {i : Nat} {op : Op} {r : Result}
    (hop : s.pending.get? i = some op) (hws : (op.isWrite && r.isSuccess) = false) :
    Ordered sent { s with pending := s.pending.eraseIdx i, handlers := s.handlers ++ [(op,r)] } :=
  h.frame [] [] rfl rfl rfl rfl rfl (by simp [frontWritten,hws])
    (by simpa using ops_complete r hop) (by simp)

theorem completeWrite (h : Ordered sent s) {i queueItem n : Nat} {sequence : BlockSequence}
    (hop : s.pending.get? i = some (.write queueItem sequence)) :
    Ordered sent
      { s with
        pending := s.pending.eraseIdx i
        handlers := s.handlers ++ [(.write queueItem sequence,.success n)]
        written := s.written ++ [sequence] } := by
  obtain ⟨hc,x,hx,hxe⟩ := h.write_mem _ (List.mem_append_left _ (List.get?_mem hop)) rfl
  cases hxe
  have hperm := ops_complete (.success n) hop
  simp only [ops] at hperm
  refine ⟨h.ids_sorted,h.ids_lt,h.connected_open,fun hpos => ?_,?_,fun op hop hw => ?_,?_⟩
  · simp only [ops] at hpos ⊢
    rw [hperm.count_eq] at hpos ⊢
    exact h.connect_open hpos
  · simp only [ops]
    rw [hperm.countP_eq]
    exact h.countP_le
  · simp only [ops] at hop
    exact h.write_mem op (hperm.subset hop) hw
  · rw [written_unwritten_completeWrite (frontWritten_of_pending h.countP_le hop rfl) hx]
    exact h.account

theorem complete (h : Ordered sent s) {i : Nat} {r : Result} {s' : Impl}
    (hs : s.complete i r = some s') : Ordered sent s' := by
  unfold Impl.complete at hs
  split at hs
  · cases hs
  rename_i op hop
  cases r with
  | operationCanceled => cases op <;> cases hs
  | error => cases op <;> (cases hs; exact h.completeHandler hop (by simp [Result.isSuccess]))
  | success n =>
    cases op with
    | connect => cases hs; exact h.completeHandler hop rfl
    | wait => cases hs; exact h.completeHandler hop rfl
    | receive start room =>
      dsimp only at hs
      split_ifs at hs
      cases hs
      exact (h.completeHandler hop rfl).congr rfl rfl rfl rfl rfl rfl rfl
    | write queueItem sequence => cases hs; exact h.completeWrite hop

theorem connected (h : Ordered sent s) (ho : s.socketOpen = true) (h0 : s.ops.count .connect = 0)
    (hw0 : s.ops.countP Op.isWrite = 0) : Ordered sent { s with isConnected := true } where
  ids_sorted := h.ids_sorted
  ids_lt := h.ids_lt
  connected_open _ := ho
  connect_open hpos := absurd h0 (Nat.pos_iff_ne_zero.mp hpos)
  countP_le := h.countP_le
  write_mem op hop hw := absurd hw0 (List.countP_pos_iff.mpr ⟨op,hop,hw⟩).ne'
  account := h.account

theorem connectHandler (h : Ordered sent s) {r : Result} {rest : List (Op × Result)}
    (hh : s.handlers = (.connect,r) :: rest)
    (ht : ({ s with handlers := rest }.connectHandler maxPacketSize r).thrown = none) :
    Ordered sent ({ s with handlers := rest }.connectHandler maxPacketSize r) := by
  have hdrop := ops_dropHandler hh
  obtain ⟨ho,hnc,h1⟩ := h.connect_open (List.count_pos_iff.mpr (hdrop.subset (by simp)))
  have h₁ : Ordered sent { s with handlers := rest } := h.dropHandler hh rfl
  have h0 : ({ s with handlers := rest } : Impl).ops.count .connect = 0 := by
    have := hdrop.count_eq .connect
    rw [List.count_append,h1] at this
    simpa using this
  have hw0 : ({ s with handlers := rest } : Impl).ops.countP Op.isWrite = 0 :=
    List.countP_eq_zero.mpr fun op hop hw => by simpa [hnc] using (h₁.write_mem op hop hw).1
  unfold Impl.connectHandler at ht ⊢
  cases r with
  | success n =>
    dsimp only at ht ⊢
    have hw₁ : ({ s with handlers := rest, isConnecting := false } : Impl).cancelTimer.ops.countP
        Op.isWrite = 0 := ((ops_cancelOps _ _).countP_eq _).trans hw0
    have h₂ := (Ordered.cancelTimer (h₁.congr rfl rfl rfl rfl rfl rfl rfl :
      Ordered sent { s with handlers := rest, isConnecting := false })).connected ho
      (((ops_cancelOps _ _).count_eq _).trans h0) hw₁
    split_ifs
    · exact h₂
    · exact h₂.resume.asyncWrite (by simp) ((countP_isWrite_resume _ _).trans hw₁)
  | operationCanceled => simp [Impl.ndnThrow] at ht
  | error => simp [Impl.ndnThrow] at ht

theorem takeFront (h : Ordered sent s) {x : Nat × BlockSequence} {tail : List (Nat × BlockSequence)}
    {n : Nat} {rest : List (Op × Result)} (hh : s.handlers = (.write x.1 x.2,.success n) :: rest)
    (hq : s.transmissionQueue = x :: tail) :
    Ordered sent { s with handlers := rest, transmissionQueue := tail } := by
  have hdrop := ops_dropHandler hh
  have h0 := countP_isWrite_dropHandler h.countP_le hh rfl
  have hsorted := h.ids_sorted
  rw [hq,List.map_cons,List.pairwise_cons] at hsorted
  refine ⟨hsorted.2,fun y hy => h.ids_lt y (hq ▸ List.mem_cons_of_mem _ hy),h.connected_open,
    fun hpos => ?_,by simp only [ops] at h0 ⊢; omega,
    fun op hop hw => absurd h0 (List.countP_pos_iff.mpr ⟨op,hop,hw⟩).ne',?_⟩
  · have hcount := hdrop.count_eq .connect
    simp only [List.count_append,List.count_singleton,beq_iff_eq,reduceCtorEq,if_false,
      Nat.add_zero] at hcount
    exact hcount ▸ h.connect_open (hcount ▸ hpos)
  · rw [unwritten_takeFront hh hq h0]
    exact h.account

theorem handleAsyncWrite (h : Ordered sent s) {queueItem : Nat} {sequence : BlockSequence}
    {r : Result} {rest : List (Op × Result)} (hh : s.handlers = (.write queueItem sequence,r) :: rest)
    (ht : ({ s with handlers := rest }.handleAsyncWrite queueItem r).thrown = none) :
    Ordered sent ({ s with handlers := rest }.handleAsyncWrite queueItem r) := by
  cases r with
  | operationCanceled => exact h.dropHandler hh rfl
  | error => simp [Impl.handleAsyncWrite,Impl.ndnThrow] at ht
  | success n =>
    obtain ⟨hc,x,hx,hxe⟩ :=
      h.write_mem _ ((ops_dropHandler hh).subset (by simp) : Op.write queueItem sequence ∈ s.ops) rfl
    cases hxe
    have hq := List.eq_cons_of_mem_head? hx
    generalize s.transmissionQueue.tail = tail at hq
    have h₂ := h.takeFront hh hq
    unfold Impl.handleAsyncWrite
    dsimp only
    rw [if_neg (by simp [hc]),filter_front h.ids_sorted hq]
    split_ifs
    · exact h₂
    · exact h₂.asyncWrite hc (countP_isWrite_dropHandler h.countP_le hh rfl)

theorem handleAsyncReceive (h : Ordered sent s) {r : Result}
    (ht : (s.handleAsyncReceive F maxPacketSize r).thrown = none) :
    Ordered sent (s.handleAsyncReceive F maxPacketSize r) := by
  rcases handleAsyncReceive_cases F maxPacketSize s r ht with hr | ⟨buffer,size,delivered,hr⟩ <;>
    rw [hr]
  · exact h
  · exact asyncReceive (h.congr rfl rfl rfl rfl rfl rfl rfl)

theorem runHandler (h : Ordered sent s) {op : Op} {r : Result} {rest : List (Op × Result)}
    (hh : s.handlers = (op,r) :: rest)
    (ht : ({ s with handlers := rest }.runHandler F maxPacketSize op r).thrown = none) :
    Ordered sent ({ s with handlers := rest }.runHandler F maxPacketSize op r) := by
  cases op with
  | connect => exact h.connectHandler hh ht
  | wait =>
    cases r <;> first
      | exact h.dropHandler hh rfl
      | simp [Impl.runHandler,Impl.connectTimeoutHandler,Impl.ndnThrow] at ht
  | write queueItem sequence => exact h.handleAsyncWrite hh ht
  | receive start room => exact (h.dropHandler hh rfl).handleAsyncReceive ht

theorem init : Ordered [] Impl.init where
  ids_sorted := .nil
  ids_lt := by simp [Impl.init]
  connected_open := by simp [Impl.init]
  connect_open := by simp [Impl.init,ops]
  countP_le := by simp [Impl.init,ops]
  write_mem := by simp [Impl.init,ops]
  account := rfl

end Ordered

/-- The write path's invariant over runs without `pause`: besides `Ordered`, the writes
outstanding are exactly the one `asyncWrite` owes, none waits with `operation_canceled`, and
nothing is written before the connection. With `owed`, an `asyncWrite` is owed: no write is
outstanding, whatever the queue holds. -/
structure Writing (sent : List BlockSequence) (owed : Bool) (s : Impl) extends Ordered sent s :
    Prop where
  writes : List.Perm (s.ops.filter Op.isWrite) (if owed then [] else s.frontWrite)
  write_not_canceled : ∀ x ∈ s.handlers, x.1.isWrite = true → x.2 ≠ .operationCanceled
  before_connect : s.isConnected = false → s.written = []

namespace Writing

variable {F : Framing} {maxPacketSize : Nat} {sent : List BlockSequence} {owed : Bool} {s : Impl}

/-- The fields the invariant reads are unchanged, up to operations that are neither writes nor
connects joining or leaving. -/
theorem frame (h : Writing sent owed s) {s' : Impl} (removed extra : List Op)
    (hq : s'.transmissionQueue = s.transmissionQueue) (hn : s'.nextItem = s.nextItem)
    (hc : s'.isConnected = s.isConnected) (ho : s'.socketOpen = s.socketOpen)
    (hw : s'.written = s.written) (hf : s'.frontWritten = s.frontWritten)
    (hops : List.Perm (s'.ops ++ removed) (s.ops ++ extra))
    (hremoved : ∀ op ∈ removed, op.isWrite = false)
    (hextra : ∀ op ∈ extra, op.isWrite = false ∧ op ≠ .connect)
    (hcancel : ∀ x ∈ s'.handlers, x.1.isWrite = true → x.2 ≠ .operationCanceled) :
    Writing sent owed s' := by
  have hwr : List.Perm (s'.ops.filter Op.isWrite) (s.ops.filter Op.isWrite) := by
    have hr : removed.filter Op.isWrite = [] :=
      List.filter_eq_nil_iff.mpr fun op hop => by simp [hremoved op hop]
    have he : extra.filter Op.isWrite = [] :=
      List.filter_eq_nil_iff.mpr fun op hop => by simp [(hextra op hop).1]
    have := hops.filter Op.isWrite
    rwa [List.filter_append,List.filter_append,hr,he,List.append_nil,List.append_nil] at this
  have hfw : s'.frontWrite = s.frontWrite := by simp only [frontWrite,hq,hc]
  exact ⟨h.toOrdered.frame removed extra hq hn hc ho hw hf hops hextra,hfw ▸ hwr.trans h.writes,
    hcancel,by rw [hc,hw]; exact h.before_connect⟩

theorem congr (h : Writing sent owed s) {s' : Impl}
    (hq : s'.transmissionQueue = s.transmissionQueue) (hn : s'.nextItem = s.nextItem)
    (hc : s'.isConnected = s.isConnected) (ho : s'.socketOpen = s.socketOpen)
    (hp : s'.pending = s.pending) (hh : s'.handlers = s.handlers) (hw : s'.written = s.written) :
    Writing sent owed s' :=
  h.frame [] [] hq hn hc ho hw (by simp only [frontWritten,hh])
    (by simp only [ops,hp,hh]; rfl) (by simp) (by simp) (hh ▸ h.write_not_canceled)

theorem startOp (h : Writing sent owed s) {op : Op} (hw : op.isWrite = false) (hc : op ≠ .connect) :
    Writing sent owed (s.startOp op) :=
  h.frame [] [op] (by simp) (by simp) (by simp) (by simp) (by simp) (frontWritten_startOp s op)
    (by simpa using ops_startOp s op) (by simp) (by simp [hw,hc]) fun x hx hxw => by
      rcases handlers_startOp s op hx with hx | rfl
      · exact h.write_not_canceled x hx hxw
      · simp

theorem asyncReceive (h : Writing sent owed s) : Writing sent owed (s.asyncReceive maxPacketSize) := by
  unfold Impl.asyncReceive
  split
  · exact h.startOp rfl (by simp)
  · exact h.congr rfl rfl rfl rfl rfl rfl rfl

theorem cancelTimer (h : Writing sent owed s) : Writing sent owed s.cancelTimer :=
  h.frame [] [] rfl rfl rfl rfl rfl (frontWritten_cancelOps s _)
    (by simpa using ops_cancelOps s _) (by simp) (by simp) fun x hx hxw => by
      simp only [Impl.cancelTimer,Impl.cancelOps,List.mem_append,List.mem_map,List.mem_filter] at hx
      rcases hx with hx | ⟨op,⟨-,hop⟩,rfl⟩
      · exact h.write_not_canceled x hx hxw
      · cases op <;> simp_all [Op.onSocket,Op.isWrite]

theorem resume (h : Writing sent owed s) : Writing sent owed (s.resume maxPacketSize) := by
  unfold Impl.resume
  split_ifs
  · exact h
  · refine asyncReceive ?_
    exact h.congr rfl rfl rfl rfl rfl rfl rfl
  · exact h

theorem dropHandler (h : Writing sent owed s) {op : Op} {r : Result} {rest : List (Op × Result)}
    (hh : s.handlers = (op,r) :: rest) (hw : op.isWrite = false) :
    Writing sent owed { s with handlers := rest } :=
  h.frame [op] [] rfl rfl rfl rfl rfl
    (by simp [frontWritten,hh,hw]) (by simpa using ops_dropHandler hh) (by simp [hw]) (by simp)
    fun x hx => h.write_not_canceled x (by simp [hh,hx])

theorem settle (h : Writing sent true s) (hq : s.transmissionQueue = []) : Writing sent false s :=
  { h with writes := by simpa [frontWrite,hq] using h.writes }

theorem asyncWrite (h : Writing sent true s) (hc : s.isConnected = true) :
    Writing sent false s.asyncWrite := by
  have h0 : s.ops.filter Op.isWrite = [] := by simpa using h.writes
  have hp : s.pending.filter Op.isWrite = [] ∧ (s.handlers.map Prod.fst).filter Op.isWrite = [] := by
    simpa [ops,List.filter_append] using h0
  refine ⟨h.toOrdered.asyncWrite hc (by rw [List.countP_eq_length_filter,h0]; rfl),?_,?_,?_⟩ <;>
    rw [Impl.asyncWrite_eq s (h.connected_open hc)]
  · simp only [ops,frontWrite,hc,List.filter_append,hp.1,hp.2,List.nil_append,List.append_nil,
      Bool.false_eq_true,if_false,if_true]
    cases s.transmissionQueue.head? <;> simp [Op.isWrite]
  · exact h.write_not_canceled
  · exact fun hnc => absurd hc (by simpa using hnc)

/-- A sequence joins the queue under a fresh number. A write of it is owed when it is the
front of a connected transport's queue. -/
theorem enqueue (h : Writing sent false s) (sequence : BlockSequence) :
    Writing (sent ++ [sequence]) (s.isConnected && s.transmissionQueue.isEmpty)
      { s with
        transmissionQueue := s.transmissionQueue ++ [(s.nextItem,sequence)]
        nextItem := s.nextItem + 1 } where
  toOrdered := h.toOrdered.enqueue sequence
  writes := by
    refine h.writes.trans ?_
    unfold frontWrite
    cases s.isConnected <;> cases hq : s.transmissionQueue <;> simp [hq]
  write_not_canceled := h.write_not_canceled
  before_connect := h.before_connect

theorem send (h : Writing sent false s) (sequence : BlockSequence) :
    Writing (sent ++ [sequence]) false (s.send sequence) := by
  have h₁ := h.enqueue sequence
  unfold Impl.send
  dsimp only
  split_ifs with hcq
  · obtain ⟨hc,hl⟩ := Bool.and_eq_true_iff.mp hcq
    have hb : (s.isConnected && s.transmissionQueue.isEmpty) = true := by
      simpa [hc,List.isEmpty_iff] using hl
    rw [hb] at h₁
    exact h₁.asyncWrite hc
  · have hq : (s.isConnected && s.transmissionQueue.isEmpty) = false := by
      simpa [List.isEmpty_iff] using hcq
    rwa [hq] at h₁

theorem connect (h : Writing sent false s) (ht : s.connect.thrown = none) :
    Writing sent false s.connect := by
  by_cases hc : s.isConnecting
  · rw [Impl.connect,if_pos hc]
    exact h
  have ho := h.toOrdered.connect ht
  have h₁ : Writing sent false (({ s with isConnecting := true } : Impl).cancelTimer.startOp .wait) :=
    (Writing.cancelTimer (h.congr rfl rfl rfl rfl rfl rfl rfl :
      Writing sent false { s with isConnecting := true })).startOp rfl (by simp)
  rw [Impl.connect,if_neg hc] at ht ho ⊢
  generalize (({ s with isConnecting := true } : Impl).cancelTimer).startOp .wait = s₁ at h₁ ht ho ⊢
  dsimp only at ht ho ⊢
  split_ifs at ht ho ⊢ with hso
  · simp [Impl.ndnThrow] at ht
  have hnc : s₁.isConnected = false := by
    cases hcs : s₁.isConnected
    · rfl
    · exact absurd (h₁.connected_open hcs) hso
  have hops : List.Perm ({ s₁ with socketOpen := true, pending := s₁.pending ++ [.connect] } : Impl).ops
      (s₁.ops ++ [.connect]) :=
    ops_startOp { s₁ with socketOpen := true } .connect
  rw [Impl.startOp,if_neg (by simp)] at ho ⊢
  refine ⟨ho,(hops.filter _).trans ?_,h₁.write_not_canceled,h₁.before_connect⟩
  rw [List.filter_append]
  simpa [frontWrite,hnc,Op.isWrite] using h₁.writes

/-- The invariant pins the writes outstanding down to the list, not only up to order. -/
theorem writes_eq (h : Writing sent false s) : s.ops.filter Op.isWrite = s.frontWrite := by
  have hw : List.Perm (s.ops.filter Op.isWrite) s.frontWrite := h.writes
  have hl := frontWrite_length_le s
  match s.frontWrite, hw, hl with
  | [], hw, _ => exact hw.eq_nil
  | [_], hw, _ => exact List.perm_singleton.mp hw
  | _ :: _ :: _, _, hl => simp at hl

theorem completeHandler (h : Writing sent owed s) {i : Nat} {op : Op} {r : Result}
    (hop : s.pending.get? i = some op) (hr : r ≠ .operationCanceled)
    (hws : (op.isWrite && r.isSuccess) = false) :
    Writing sent owed { s with pending := s.pending.eraseIdx i, handlers := s.handlers ++ [(op,r)] } :=
  h.frame [] [] rfl rfl rfl rfl rfl (by simp [frontWritten,hws]) (by simpa using ops_complete r hop)
    (by simp) (by simp) fun x hx hxw => by
      rcases List.mem_append.mp hx with hx | hx
      · exact h.write_not_canceled x hx hxw
      · rwa [List.mem_singleton.mp hx]

theorem completeWrite (h : Writing sent false s) {i queueItem n : Nat} {sequence : BlockSequence}
    (hop : s.pending.get? i = some (.write queueItem sequence)) :
    Writing sent false
      { s with
        pending := s.pending.eraseIdx i
        handlers := s.handlers ++ [(.write queueItem sequence,.success n)]
        written := s.written ++ [sequence] } := by
  obtain ⟨hc,-⟩ := h.write_mem _ (List.mem_append_left _ (List.get?_mem hop)) rfl
  have hperm := ops_complete (.success n) hop
  simp only [ops] at hperm
  refine ⟨h.toOrdered.completeWrite hop,?_,fun y hy hyw => ?_,fun hnc => absurd hc (by simpa using hnc)⟩
  · simp only [ops]
    exact (hperm.filter _).trans h.writes
  · rcases List.mem_append.mp hy with hy | hy
    · exact h.write_not_canceled y hy hyw
    · simp [List.mem_singleton.mp hy]

theorem complete (h : Writing sent false s) {i : Nat} {r : Result} {s' : Impl}
    (hs : s.complete i r = some s') : Writing sent false s' := by
  unfold Impl.complete at hs
  split at hs
  · cases hs
  rename_i op hop
  cases r with
  | operationCanceled => cases op <;> cases hs
  | error => cases op <;> (cases hs; exact h.completeHandler hop (by simp) (by simp [Result.isSuccess]))
  | success n =>
    cases op with
    | connect => cases hs; exact h.completeHandler hop (by simp) rfl
    | wait => cases hs; exact h.completeHandler hop (by simp) rfl
    | receive start room =>
      dsimp only at hs
      split_ifs at hs
      cases hs
      exact (h.completeHandler hop (by simp) rfl).congr rfl rfl rfl rfl rfl rfl rfl
    | write queueItem sequence => cases hs; exact h.completeWrite hop

theorem connected (h : Writing sent false s) (hnc : s.isConnected = false) (ho : s.socketOpen = true)
    (h0 : s.ops.count .connect = 0) : Writing sent true { s with isConnected := true } := by
  have hw : List.Perm (s.ops.filter Op.isWrite) [] := h.writes.trans (by simp [frontWrite,hnc])
  exact ⟨h.toOrdered.connected ho h0 (by rw [List.countP_eq_length_filter,hw.length_eq]; rfl),hw,
    h.write_not_canceled,fun hc => absurd hc (by simp)⟩

theorem connectHandler (h : Writing sent false s) {r : Result} {rest : List (Op × Result)}
    (hh : s.handlers = (.connect,r) :: rest)
    (ht : ({ s with handlers := rest }.connectHandler maxPacketSize r).thrown = none) :
    Writing sent false ({ s with handlers := rest }.connectHandler maxPacketSize r) := by
  have hdrop := ops_dropHandler hh
  obtain ⟨ho,hnc,h1⟩ := h.connect_open (List.count_pos_iff.mpr (hdrop.subset (by simp)))
  have h₁ : Writing sent false { s with handlers := rest } :=
    h.frame [.connect] [] rfl rfl rfl rfl rfl (by simp [frontWritten,hh,Op.isWrite])
      (by simpa using hdrop) (by simp [Op.isWrite]) (by simp)
      fun x hx => h.write_not_canceled x (by simp [hh,hx])
  have h0 : ({ s with handlers := rest } : Impl).ops.count .connect = 0 := by
    have := hdrop.count_eq .connect
    rw [List.count_append,h1] at this
    simpa using this
  unfold Impl.connectHandler at ht ⊢
  cases r with
  | success n =>
    dsimp only at ht ⊢
    have h₂ := (Writing.cancelTimer (h₁.congr rfl rfl rfl rfl rfl rfl rfl :
      Writing sent false { s with handlers := rest, isConnecting := false })).connected hnc ho
      (((ops_cancelOps _ _).count_eq _).trans h0)
    split_ifs with hq
    · exact h₂.settle (List.isEmpty_iff.mp hq)
    · exact h₂.resume.asyncWrite (by simp)
  | operationCanceled => simp [Impl.ndnThrow] at ht
  | error => simp [Impl.ndnThrow] at ht

theorem takeFront (h : Writing sent false s) {x : Nat × BlockSequence} {tail : List (Nat × BlockSequence)}
    {n : Nat} {rest : List (Op × Result)} (hh : s.handlers = (.write x.1 x.2,.success n) :: rest)
    (hq : s.transmissionQueue = x :: tail) (hc : s.isConnected = true) :
    Writing sent true { s with handlers := rest, transmissionQueue := tail } :=
  ⟨h.toOrdered.takeFront hh hq,
    by simpa [List.countP_eq_length_filter] using countP_isWrite_dropHandler h.countP_le hh rfl,
    fun y hy => h.write_not_canceled y (by simp [hh,hy]),fun hnc => absurd hc (by simpa using hnc)⟩

theorem handleAsyncWrite (h : Writing sent false s) {queueItem : Nat} {sequence : BlockSequence}
    {r : Result} {rest : List (Op × Result)} (hh : s.handlers = (.write queueItem sequence,r) :: rest)
    (ht : ({ s with handlers := rest }.handleAsyncWrite queueItem r).thrown = none) :
    Writing sent false ({ s with handlers := rest }.handleAsyncWrite queueItem r) := by
  obtain ⟨hc,x,hx,hxe⟩ :=
    h.write_mem _ ((ops_dropHandler hh).subset (by simp) : Op.write queueItem sequence ∈ s.ops) rfl
  cases hxe
  have hq := List.eq_cons_of_mem_head? hx
  generalize s.transmissionQueue.tail = tail at hq
  cases r with
  | operationCanceled =>
    exact absurd rfl (h.write_not_canceled (.write x.1 x.2,.operationCanceled) (by simp [hh]) rfl)
  | error => simp [Impl.handleAsyncWrite,Impl.ndnThrow] at ht
  | success n =>
    have h₂ := h.takeFront hh hq hc
    unfold Impl.handleAsyncWrite
    dsimp only
    rw [if_neg (by simp [hc]),filter_front h.ids_sorted hq]
    split_ifs with he
    · exact h₂.settle (List.isEmpty_iff.mp he)
    · exact h₂.asyncWrite hc

theorem handleAsyncReceive (h : Writing sent owed s) {r : Result}
    (ht : (s.handleAsyncReceive F maxPacketSize r).thrown = none) :
    Writing sent owed (s.handleAsyncReceive F maxPacketSize r) := by
  rcases handleAsyncReceive_cases F maxPacketSize s r ht with hr | ⟨buffer,size,delivered,hr⟩ <;>
    rw [hr]
  · exact h
  · exact asyncReceive (h.congr rfl rfl rfl rfl rfl rfl rfl)

theorem runHandler (h : Writing sent false s) {op : Op} {r : Result} {rest : List (Op × Result)}
    (hh : s.handlers = (op,r) :: rest)
    (ht : ({ s with handlers := rest }.runHandler F maxPacketSize op r).thrown = none) :
    Writing sent false ({ s with handlers := rest }.runHandler F maxPacketSize op r) := by
  cases op with
  | connect => exact h.connectHandler hh ht
  | wait =>
    cases r <;> first
      | exact h.dropHandler hh rfl
      | simp [Impl.runHandler,Impl.connectTimeoutHandler,Impl.ndnThrow] at ht
  | write queueItem sequence => exact h.handleAsyncWrite hh ht
  | receive start room => exact (h.dropHandler hh rfl).handleAsyncReceive ht

/-- Every event but `pause` and `close` keeps the invariant, or throws. -/
theorem step (h : Writing sent false s) {e : Event} (hp : e ≠ .pause) (hc : e ≠ .close) {s' : Impl}
    (hs : StreamTransport.step F maxPacketSize s e = some s') (ht : s'.thrown = none) :
    Writing (sent ++ e.sent) false s' := by
  unfold StreamTransport.step at hs
  split_ifs at hs
  cases e with
  | close => exact absurd rfl hc
  | pause => exact absurd rfl hp
  | send sequence => cases hs; exact h.send sequence
  | connect => cases hs; simpa only [Event.sent,List.append_nil] using h.connect ht
  | resume => cases hs; simpa only [Event.sent,List.append_nil] using h.resume
  | peerSends bytes =>
    cases hs
    simp only [Event.sent,List.append_nil]
    exact h.congr rfl rfl rfl rfl rfl rfl rfl
  | complete i r => simpa only [Event.sent,List.append_nil] using h.complete hs
  | runHandler =>
    dsimp only at hs
    split at hs
    · cases hs
    · rename_i op r rest hh
      cases hs
      simpa only [Event.sent,List.append_nil] using h.runHandler hh ht

/-- A run without `pause` or `close` that throws nothing keeps the invariant, with what it
handed to `send` added. -/
theorem execute (h : Writing sent false s) {es : List Event} (hp : Event.pause ∉ es)
    (hc : Event.close ∉ es) {s' : Impl} (hs : StreamTransport.execute F maxPacketSize s es = some s')
    (ht : s'.thrown = none) : Writing (sent ++ sends es) false s' := by
  induction es generalizing s sent with
  | nil => cases hs; simpa [sends] using h
  | cons e es ih =>
    obtain ⟨s₁,h₁,hs⟩ := Option.bind_eq_some.mp hs
    have ht₁ : s₁.thrown = none := by
      cases hth : s₁.thrown
      · rfl
      · simpa [ht] using thrown_execute F maxPacketSize (by simp [hth]) hs
    have := ih (h.step (fun he => hp (he ▸ List.mem_cons_self _ _))
      (fun he => hc (he ▸ List.mem_cons_self _ _)) h₁ ht₁)
      (fun hm => hp (List.mem_cons_of_mem _ hm)) (fun hm => hc (List.mem_cons_of_mem _ hm)) hs
    rwa [List.append_assoc] at this

theorem init : Writing [] false Impl.init where
  toOrdered := Ordered.init
  writes := by simp [Impl.init,ops,frontWrite]
  write_not_canceled := by simp [Impl.init]
  before_connect _ := rfl

end Writing

/-- Over every run of a fresh transport that calls neither `pause` nor `close` and throws
nothing: the sequences written, followed by those queued and not yet written, are those handed
to `send`, in order; nothing is written before the connection is made; and the writes
outstanding are exactly the one `asyncWrite` owes, of the queue's front once connected, with
no `operation_canceled` waiting for one. -/
theorem sends_written_in_order (F : Framing) (maxPacketSize : Nat) (es : List Event) (s : Impl)
    (hp : Event.pause ∉ es) (hc : Event.close ∉ es)
    (hs : execute F maxPacketSize Impl.init es = some s) (ht : s.thrown = none) :
    s.written ++ s.unwritten = sends es ∧ (s.isConnected = false → s.written = []) ∧
      s.ops.filter Op.isWrite = s.frontWrite ∧
      ∀ x ∈ s.handlers, x.1.isWrite = true → x.2 ≠ .operationCanceled := by
  have h := Writing.init.execute hp hc hs ht
  exact ⟨h.account,h.before_connect,h.writes_eq,h.write_not_canceled⟩

def sendTwice : List Event :=
  [.send [[0x05,0x00]],.connect,.complete 1 (.success 0),.runHandler,.runHandler,
    .send [[0x06,0x00]],.complete 1 (.success 2),.runHandler]

theorem sends_written_in_order_sendTwice :
    ∃ s, execute ndnTlv maxNdnPacketSize Impl.init sendTwice = some s ∧ s.thrown = none ∧
      s.written ++ s.unwritten = sends sendTwice ∧ (s.isConnected = false → s.written = []) ∧
      s.ops.filter Op.isWrite = s.frontWrite ∧
      ∀ x ∈ s.handlers, x.1.isWrite = true → x.2 ≠ .operationCanceled :=
  ⟨_,rfl,rfl,sends_written_in_order ndnTlv maxNdnPacketSize _ _ (by decide) (by decide) rfl rfl⟩

/-! ### Progress: without `pause`, every queued sequence gets written -/

/-- For each queued sequence in turn: the write in flight, at index `i` among the operations in
flight, completes with all the sequence's bytes, and its handler runs. -/
def writeFronts : List (Nat × BlockSequence) → List Event
  | [] => []
  | (i,sequence) :: rest => .complete i (.success sequence.flatten.length) :: .runHandler :: writeFronts rest

namespace Writing

variable {F : Framing} {maxPacketSize : Nat} {sent : List BlockSequence} {s : Impl}

/-- On a connected transport with no handler waiting, the write of the queue's front completes
with all its bytes and its handler runs: the front goes on the wire and leaves the queue, and
the write of the next front starts. -/
theorem writeFront (h : Writing sent false s) (hidle : s.handlers = []) (hc : s.isConnected = true)
    (ht : s.thrown = none) {x : Nat × BlockSequence} {tail : List (Nat × BlockSequence)}
    (hq : s.transmissionQueue = x :: tail) :
    ∃ i s', StreamTransport.execute F maxPacketSize s
        [.complete i (.success x.2.flatten.length),.runHandler] = some s' ∧ Writing sent false s' ∧ s'.handlers = [] ∧ s'.isConnected = true ∧
      s'.thrown = none ∧ s'.transmissionQueue = tail ∧ s'.written = s.written ++ [x.2] := by
  have hw := h.writes_eq
  rw [frontWrite,if_pos hc,hq] at hw
  have hmem : Op.write x.1 x.2 ∈ s.pending := by
    have hf : Op.write x.1 x.2 ∈ s.ops.filter Op.isWrite := by simp [hw]
    simpa [ops,hidle] using (List.mem_filter.mp hf).1
  obtain ⟨i,hi⟩ := List.get?_of_mem hmem
  have h₁ : Writing sent false
      { s with
        pending := s.pending.eraseIdx i
        handlers := s.handlers ++ [(.write x.1 x.2,.success x.2.flatten.length)]
        written := s.written ++ [x.2] } := h.completeWrite hi
  rw [hidle,List.nil_append] at h₁
  have ho := h.connected_open hc
  have hfront := filter_front h.ids_sorted hq
  refine ⟨i,_,?_,h₁.handleAsyncWrite rfl ?_,?_⟩
  · simp only [StreamTransport.execute,StreamTransport.step,ht,Option.isSome_none,Bool.false_eq_true,if_false,
      Impl.complete,hi,hidle,List.nil_append,Option.some_bind]
    rfl
  all_goals
    unfold Impl.handleAsyncWrite
    dsimp only
    rw [if_neg (by simp [hc]),hfront]
    split_ifs
  all_goals simp [Impl.asyncWrite_eq,ho,hc,ht,hidle]

/-- On a connected transport with no handler waiting, the writes of the queued sequences
complete one after another and their handlers run, which puts every queued sequence on the
wire in order. -/
theorem drain (h : Writing sent false s) (hidle : s.handlers = []) (hc : s.isConnected = true)
    (ht : s.thrown = none) :
    ∃ is : List Nat, is.length = s.transmissionQueue.length ∧
      ∃ s', StreamTransport.execute F maxPacketSize s
          (writeFronts (is.zip (s.transmissionQueue.map Prod.snd))) = some s' ∧
        s'.thrown = none ∧ s'.handlers = [] ∧ s'.transmissionQueue = [] ∧
        s'.written = s.written ++ s.transmissionQueue.map Prod.snd := by
  obtain ⟨q,hq⟩ : ∃ q, s.transmissionQueue = q := ⟨_,rfl⟩
  induction q generalizing s with
  | nil => exact ⟨[],by simp [hq],s,by simp [hq,writeFronts]; rfl,ht,hidle,hq,by simp [hq]⟩
  | cons x tail ih =>
    obtain ⟨i,s₁,hs₁,h₁,hidle₁,hc₁,ht₁,hq₁,hw₁⟩ := h.writeFront hidle hc ht hq
    obtain ⟨is,hlen,s',hs',ht',hidle',hq',hw'⟩ := ih h₁ hidle₁ hc₁ ht₁ hq₁
    refine ⟨i :: is,by simp [hq,hlen,hq₁],s',?_,ht',hidle',hq',by simp [hw',hw₁,hq₁,hq]⟩
    rw [hq,List.map_cons,List.zip_cons_cons,writeFronts,← hq₁,
      show _ :: _ :: writeFronts _ = [_,_] ++ writeFronts _ from rfl,execute_append,hs₁,
      Option.some_bind,hs']

end Writing

/-- Without `pause`, transmission never stalls. Take any run of a fresh transport that calls
neither `pause` nor `close` and throws nothing, and stop it where the transport is connected
and the io_service has no handler waiting. Then for each queued sequence in turn, completing
the outstanding write with all its bytes and running its handler, with no other event, puts on
the wire every sequence handed to `send`, in order. The queue ends empty, and nothing
throws. -/
theorem queued_sends_written (F : Framing) (maxPacketSize : Nat) (es : List Event) (s : Impl)
    (hp : Event.pause ∉ es) (hc : Event.close ∉ es)
    (hs : execute F maxPacketSize Impl.init es = some s) (ht : s.thrown = none)
    (hidle : s.handlers = []) (hconn : s.isConnected = true) :
    ∃ is : List Nat, is.length = s.transmissionQueue.length ∧
      ∃ s', execute F maxPacketSize s (writeFronts (is.zip (s.transmissionQueue.map Prod.snd))) =
          some s' ∧
        s'.thrown = none ∧ s'.handlers = [] ∧ s'.transmissionQueue = [] ∧ s'.written = sends es := by
  have h := Writing.init.execute hp hc hs ht
  obtain ⟨is,hlen,s',hs',ht',hidle',hq',hw'⟩ := h.drain hidle hconn ht
  refine ⟨is,hlen,s',hs',ht',hidle',hq',?_⟩
  have hun : s.unwritten = s.transmissionQueue.map Prod.snd := by
    simp [unwritten,frontWritten,hidle]
  rw [hw',← hun,h.account,List.nil_append]

/-- Two sequences queued on a connected transport whose io_service is idle. -/
theorem queued_sends_written_twoQueued :
    ∃ s, execute ndnTlv maxNdnPacketSize Impl.init
        [.send [[0x05,0x00]],.connect,.complete 1 (.success 0),.runHandler,.runHandler,
          .send [[0x06,0x00]]] = some s ∧
      Event.pause ∉ [.send [[0x05,0x00]],.connect,.complete 1 (.success 0),.runHandler,.runHandler,
        .send [[0x06,0x00]]] ∧
      Event.close ∉ [.send [[0x05,0x00]],.connect,.complete 1 (.success 0),.runHandler,.runHandler,
        .send [[0x06,0x00]]] ∧
      s.thrown = none ∧ s.handlers = [] ∧ s.isConnected = true ∧ s.transmissionQueue.length = 2 ∧
      ∃ is : List Nat, is.length = s.transmissionQueue.length ∧
        ∃ s', execute ndnTlv maxNdnPacketSize s
            (writeFronts (is.zip (s.transmissionQueue.map Prod.snd))) = some s' ∧
          s'.thrown = none ∧ s'.handlers = [] ∧ s'.transmissionQueue = [] ∧
          s'.written = sends [.send [[0x05,0x00]],.connect,.complete 1 (.success 0),.runHandler,
            .runHandler,.send [[0x06,0x00]]] :=
  ⟨_,rfl,by decide,by decide,rfl,rfl,rfl,rfl,
    queued_sends_written ndnTlv maxNdnPacketSize
      [.send [[0x05,0x00]],.connect,.complete 1 (.success 0),.runHandler,.runHandler,
        .send [[0x06,0x00]]] _ (by decide) (by decide) rfl rfl rfl rfl⟩

end StreamTransport

end MwNfd
