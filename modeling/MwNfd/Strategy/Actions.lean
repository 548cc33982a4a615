import MwNfd.Pit
import Mathlib.Algebra.Group.Nat.Basic

/-! The strategy actions that forward packets: `sendInterest` puts the forwarder's `PitToken` on
the Interest, `sendData` echoes the token of the downstream's in-record, and the fan-outs call
them once per face. The model records what each action hands to the outgoing pipelines. -/

namespace MwNfd
namespace Strategy

/-- The build flags `ETRI_NFD_ORG_ARCH`, `ETRI_DUAL_CS` and `ETRI_PITTOKEN_HASH`. -/
structure Config where
  orgArch : Bool
  dualCs : Bool
  pitTokenHash : Bool
  deriving DecidableEq, Repr

def Config.setsWorkerId (cfg : Config) : Bool := !cfg.orgArch || cfg.dualCs || cfg.pitTokenHash

/-- The fields of `ST_PIT_TOKEN`; the buffer it is laid out in starts zero-filled. -/
structure StPitToken where
  workerId : Nat
  canBePrefix : Bool
  hashValue : Nat
  deriving DecidableEq, Repr

def leBytes (n x : Nat) : List UInt8 :=
  (List.range n).map fun i => (x / 256 ^ i % 256).toUInt8

/-- Modelled from the spec: the token body `{workerId:4, flagBits:1, nameHash:8}`,
little-endian; the header that declares `ST_PIT_TOKEN` is not among these sources. -/
def StPitToken.encode (t : StPitToken) : PitToken :=
  ⟨leBytes 4 t.workerId ++ [if t.canBePrefix then 1 else 0] ++ leBytes 8 t.hashValue⟩

def forwarderToken (cfg : Config) (e : Entry) (interest : Interest) : StPitToken :=
  ⟨if cfg.setsWorkerId then e.workerId else 0, cfg.dualCs && interest.canBePrefix,
    if cfg.pitTokenHash then e.nameTreeHash else 0⟩

/-- What the actions read and change: the Interest objects by address, the PIT entry, and
the calls made to `Forwarder::onOutgoingInterest`, `onOutgoingData` and `onOutgoingNack`. -/
structure World where
  interests : Nat → Interest
  entry : Entry
  outInterests : List (Face × Interest)
  outData : List (Face × Data)
  outNacks : List (Face × NackHeader)

/-- `Strategy::sendInterest`, handed the Interest at address `interest`. -/
def sendInterest (cfg : Config) (w : World) (egress : Face) (interest : Nat) : World :=
  let token := (forwarderToken cfg w.entry (w.interests interest)).encode
  match (w.interests interest).pitToken with
  | some _ =>
    let interest2 := { w.interests interest with
      pitToken := if cfg.setsWorkerId then some token else none }
    { w with outInterests := w.outInterests ++ [(egress,interest2)] }
  | none =>
    let interests := if cfg.dualCs || cfg.pitTokenHash then
        Function.update w.interests interest { w.interests interest with pitToken := some token }
      else w.interests
    { w with interests := interests, outInterests := w.outInterests ++ [(egress,interests interest)] }

@[simp] theorem sendInterest_entry (cfg : Config) (w : World) (egress : Face) (a : Nat) :
    (sendInterest cfg w egress a).entry = w.entry := by
  unfold sendInterest
  split <;> rfl

theorem sendInterest_interests (cfg : Config) (w : World) (egress : Face) (a : Nat) :
    (sendInterest cfg w egress a).interests =
      if (cfg.dualCs || cfg.pitTokenHash) && (w.interests a).pitToken.isNone then
        Function.update w.interests a
          { w.interests a with pitToken := some (forwarderToken cfg w.entry (w.interests a)).encode }
      else w.interests := by
  unfold sendInterest
  cases h : (w.interests a).pitToken <;> cases cfg.dualCs || cfg.pitTokenHash <;> simp [h]

/-- After any sequence of `sendInterest` calls on one Interest object, its token is the one
it had, or, when it had none, the forwarder's token in an `ETRI_DUAL_CS` or
`ETRI_PITTOKEN_HASH` build once at least one call was made. -/
theorem sendInterests_pitToken (cfg : Config) (w : World) (a : Nat) (egresses : List Face) :
    ((egresses.foldl (fun w g => sendInterest cfg w g a) w).interests a).pitToken =
      match (w.interests a).pitToken with
      | some t => some t
      | none =>
        if (cfg.dualCs || cfg.pitTokenHash) && !egresses.isEmpty then
          some (forwarderToken cfg w.entry (w.interests a)).encode
        else none := by
  induction egresses generalizing w with
  | nil => cases h : (w.interests a).pitToken <;> simp [h]
  | cons g gs ih =>
    rw [List.foldl_cons,ih,sendInterest_entry,sendInterest_interests]
    cases h : (w.interests a).pitToken <;> cases cfg.dualCs || cfg.pitTokenHash <;>
      simp [h,forwarderToken]

def World.inRecordToken (w : World) (face : Face) : Option PitToken :=
  (w.entry.getInRecord face).bind fun r => (w.interests r.interest).pitToken

variable (matchesData : Interest → Name → Bool)

/-- `Strategy::sendData`, with the Data object it tags; `none` where its assertion that
the entry's Interest matches the Data fails. -/
def sendData (w : World) (data : Data) (egress : Face) : Option (World × Data) :=
  if matchesData w.entry.interest data.name then
    let data := { data with pitToken := w.inRecordToken egress }
    some ({ w with entry := w.entry.deleteInRecord egress, outData := w.outData ++ [(egress,data)] },
      data)
  else none

/-- The faces `sendDataToAll` remembers: those whose in-record has not expired, the face
the Data came in on only when it is ad hoc. -/
def pendingDownstreams (e : Entry) (inFace : Face) (now : Nat) : List Face :=
  (e.inRecords.filter fun r =>
    now < r.expiry && !(r.face.id == inFace.id && r.face.linkType != .adHoc)).map InRecord.face

def sendDataEach (w : World) (data : Data) : List Face → Option World
  | [] => some w
  | f :: fs =>
    match sendData matchesData w data f with
    | some (w',data') => sendDataEach w' data' fs
    | none => none

/-- `Strategy::sendDataToAll`. A `std::set<Face*>` visits its faces in an order of their
addresses, which the model leaves open: `iterate` gives it. -/
def sendDataToAll (iterate : List Face → List Face) (w : World) (inFace : Face) (data : Data)
    (now : Nat) : Option World :=
  sendDataEach matchesData w data (iterate (pendingDownstreams w.entry inFace now))

/-- `Strategy::afterContentStoreHit`: the cached Data goes back to the face the Interest came
in on. -/
def afterContentStoreHit (w : World) (ingress : Face) (data : Data) : Option (World × Data) :=
  sendData matchesData w data ingress

/-- `Strategy::afterReceiveData`: `beforeSatisfyInterest` only logs, then the Data goes to
every pending downstream. -/
def afterReceiveData (iterate : List Face → List Face) (w : World) (ingress : Face) (data : Data)
    (now : Nat) : Option World :=
  sendDataToAll matchesData iterate w ingress data now

/-- Modelled from the spec: `Forwarder::onOutgoingNack`, which is not among these sources.
"Outgoing Nack requires an in-record for `egressFace`; that in-record is then deleted." -/
def onOutgoingNack (w : World) (egress : Face) (header : NackHeader) : World :=
  { w with entry := w.entry.deleteInRecord egress, outNacks := w.outNacks ++ [(egress,header)] }

def sendNack (w : World) (egress : Face) (header : NackHeader) : World :=
  onOutgoingNack w egress header

/-- `Strategy::sendNacks`. A `std::unordered_set<Face*>` visits its faces in an order the
model leaves open: `iterate` gives it. -/
def sendNacks (iterate : List Face → List Face) (w : World) (header : NackHeader)
    (exceptFaces : List Face) : World :=
  (iterate ((w.entry.inRecords.map InRecord.face).filter (· ∉ exceptFaces))).foldl
    (fun w f => sendNack w f header) w

@[simp] theorem foldl_deleteInRecord_inRecords (e : Entry) (fs : List Face) :
    (fs.foldl Entry.deleteInRecord e).inRecords = e.inRecords.filter (fun r => r.face ∉ fs) := by
  induction fs generalizing e with
  | nil => simp
  | cons f fs ih =>
    simp only [List.foldl_cons,ih,Entry.deleteInRecord_inRecords,List.filter_filter,List.mem_cons,
      not_or]
    congr 1
    funext r
    by_cases h1 : r.face = f <;> by_cases h2 : r.face ∈ fs <;> simp [h1,h2]

theorem inRecordToken_deleteInRecord (w : World) (o : List (Face × Data)) {f g : Face}
    (h : g ≠ f) :
    World.inRecordToken { w with entry := w.entry.deleteInRecord f, outData := o } g =
      w.inRecordToken g := by
  simp [World.inRecordToken,h]

theorem sendData_eq {w : World} {data : Data} (egress : Face)
    (h : matchesData w.entry.interest data.name = true) :
    sendData matchesData w data egress =
      some ({ w with
          entry := w.entry.deleteInRecord egress
          outData := w.outData ++ [(egress,{ data with pitToken := w.inRecordToken egress })] },
        { data with pitToken := w.inRecordToken egress }) := by
  simp [sendData,h]

/-- The loop of `sendDataToAll` over distinct faces hands each face the Data with the token
of that face's in-record as it stood before the loop, and deletes those in-records. -/
theorem sendDataEach_eq (w : World) (data : Data) {fs : List Face} (hfs : fs.Nodup)
    (h : matchesData w.entry.interest data.name = true) :
    sendDataEach matchesData w data fs = some { w with
      entry := fs.foldl Entry.deleteInRecord w.entry
      outData := w.outData ++ fs.map fun f => (f,{ data with pitToken := w.inRecordToken f }) } := by
  induction fs generalizing w data with
  | nil => simp [sendDataEach]
  | cons f fs ih =>
    obtain ⟨hf,hfs⟩ := List.nodup_cons.mp hfs
    rw [sendDataEach,sendData_eq matchesData f h]
    dsimp only
    rw [ih _ _ hfs (by exact h)]
    simp only [List.foldl_cons,List.map_cons,List.append_assoc,List.singleton_append]
    congr 4
    refine List.map_congr_left fun g hg => ?_
    rw [inRecordToken_deleteInRecord w _ (by rintro rfl; exact hf hg)]

theorem mem_pendingDownstreams {e : Entry} {inFace f : Face} {now : Nat} :
    f ∈ pendingDownstreams e inFace now ↔
      ∃ r ∈ e.inRecords, r.face = f ∧ now < r.expiry ∧ (f.id ≠ inFace.id ∨ f.linkType = .adHoc) := by
  simp only [pendingDownstreams,List.mem_map,List.mem_filter,Bool.and_eq_true,decide_eq_true_eq,
    Bool.not_eq_true',Bool.and_eq_false_iff,beq_eq_false_iff_ne,bne_eq_false_iff_eq]
  constructor
  · rintro ⟨r,⟨hr,hexp,hface⟩,rfl⟩
    exact ⟨r,hr,rfl,hexp,hface⟩
  · rintro ⟨r,hr,rfl,hexp,hface⟩
    exact ⟨r,⟨hr,hexp,hface⟩,rfl⟩

theorem pendingDownstreams_nodup (e : Entry) (inFace : Face) (now : Nat) :
    (pendingDownstreams e inFace now).Nodup :=
  e.inRecords_nodup.sublist ((List.filter_sublist _).map _)

def consumerInterest : Interest := ⟨[⟨8,[0x42]⟩],false,[],none⟩

def exampleWorld : World where
  interests a := if a = 0 then consumerInterest else { consumerInterest with pitToken := some ⟨[7]⟩ }
  entry := ⟨consumerInterest,3,0,[⟨⟨1,.pointToPoint⟩,0,100⟩,⟨⟨2,.pointToPoint⟩,1,100⟩],by decide⟩
  outInterests := []
  outData := []
  outNacks := []

/-- `sendDataToAll` hands the Data once to each face with a live in-record other than the
ingress face (or the ingress face when ad hoc) and to no other face, each time with the
token of that face's own in-record, whatever order the set visits them in; afterwards
exactly those in-records are gone. -/
theorem sendDataToAll_spec (iterate : List Face → List Face) (w : World) (inFace : Face)
    (data : Data) (now : Nat) (h : matchesData w.entry.interest data.name = true)
    (hiter : (iterate (pendingDownstreams w.entry inFace now)).Perm
      (pendingDownstreams w.entry inFace now)) :
    ∃ w', sendDataToAll matchesData iterate w inFace data now = some w' ∧
      (∀ f, ((w'.outData.drop w.outData.length).map Prod.fst).count f =
        if ∃ r ∈ w.entry.inRecords, r.face = f ∧ now < r.expiry ∧
          (f.id ≠ inFace.id ∨ f.linkType = .adHoc) then 1 else 0) ∧
      (∀ p ∈ w'.outData.drop w.outData.length,
        p.2 = { data with
          pitToken := (w.entry.getInRecord p.1).bind fun r => (w.interests r.interest).pitToken }) ∧
      w'.entry.inRecords =
        w.entry.inRecords.filter (fun r => r.face ∉ pendingDownstreams w.entry inFace now) := by
  have hnodup := pendingDownstreams_nodup w.entry inFace now
  refine ⟨_,sendDataEach_eq matchesData w data (hiter.nodup_iff.mpr hnodup) h,fun f => ?_,?_,?_⟩
  · simp only [List.drop_left',List.map_map,Function.comp_def,List.map_id']
    rw [hiter.count_eq]
    by_cases hf : f ∈ pendingDownstreams w.entry inFace now
    · rw [if_pos (mem_pendingDownstreams.mp hf)]
      exact List.count_eq_one_of_mem hnodup hf
    · rw [if_neg (mt mem_pendingDownstreams.mpr hf)]
      exact List.count_eq_zero_of_not_mem hf
  · simp only [List.drop_left',List.mem_map]
    rintro p ⟨f,-,rfl⟩
    rfl
  · simp only [foldl_deleteInRecord_inRecords,hiter.mem_iff]

theorem sendDataToAll_spec_exampleWorld :
    let w := exampleWorld
    let inFace : Face := ⟨3,.adHoc⟩
    let data : Data := ⟨[⟨8,[0x42]⟩],none⟩
    let md : Interest → Name → Bool := fun _ _ => true
    md w.entry.interest data.name = true ∧
    (id (pendingDownstreams w.entry inFace 50)).Perm (pendingDownstreams w.entry inFace 50) ∧
    ∃ w', sendDataToAll md id w inFace data 50 = some w' ∧
      (∀ f, ((w'.outData.drop w.outData.length).map Prod.fst).count f =
        if ∃ r ∈ w.entry.inRecords, r.face = f ∧ 50 < r.expiry ∧
          (f.id ≠ inFace.id ∨ f.linkType = .adHoc) then 1 else 0) ∧
      (∀ p ∈ w'.outData.drop w.outData.length,
        p.2 = { data with
          pitToken := (w.entry.getInRecord p.1).bind fun r => (w.interests r.interest).pitToken }) ∧
      w'.entry.inRecords =
        w.entry.inRecords.filter (fun r => r.face ∉ pendingDownstreams w.entry inFace 50) :=
  ⟨rfl,List.Perm.refl _,
    sendDataToAll_spec _ id exampleWorld ⟨3,.adHoc⟩ ⟨[⟨8,[0x42]⟩],none⟩ 50 rfl (List.Perm.refl _)⟩

theorem foldl_sendNack (w : World) (header : NackHeader) (fs : List Face) :
    fs.foldl (fun w f => sendNack w f header) w = { w with
      entry := fs.foldl Entry.deleteInRecord w.entry
      outNacks := w.outNacks ++ fs.map fun f => (f,header) } := by
  induction fs generalizing w with
  | nil => simp
  | cons f fs ih =>
    rw [List.foldl_cons,ih]
    simp [sendNack,onOutgoingNack]

/-- `sendNacks` calls `sendNack` once for each face with an in-record that is not excepted
and for no other face, whatever order the set visits them in, though each call deletes its
face's in-record; afterwards only the excepted faces' in-records are left. -/
theorem sendNacks_spec (iterate : List Face → List Face) (w : World) (header : NackHeader)
    (exceptFaces : List Face)
    (hiter : (iterate ((w.entry.inRecords.map InRecord.face).filter (· ∉ exceptFaces))).Perm
      ((w.entry.inRecords.map InRecord.face).filter (· ∉ exceptFaces))) :
    let w' := sendNacks iterate w header exceptFaces
    (∀ f, ((w'.outNacks.drop w.outNacks.length).map Prod.fst).count f =
        if (∃ r ∈ w.entry.inRecords, r.face = f) ∧ f ∉ exceptFaces then 1 else 0) ∧
      (∀ p ∈ w'.outNacks.drop w.outNacks.length,
        p.2 = header ∧ (w.entry.getInRecord p.1).isSome) ∧
      w'.entry.inRecords = w.entry.inRecords.filter (fun r => r.face ∈ exceptFaces) := by
  have hnodup : ((w.entry.inRecords.map InRecord.face).filter (· ∉ exceptFaces)).Nodup :=
    w.entry.inRecords_nodup.filter _
  simp only [sendNacks,foldl_sendNack,List.drop_left']
  refine ⟨fun f => ?_,?_,?_⟩
  · simp only [List.map_map,Function.comp_def,List.map_id']
    rw [hiter.count_eq]
    split_ifs with hf
    · exact List.count_eq_one_of_mem hnodup (by simpa using hf)
    · exact List.count_eq_zero_of_not_mem (by simpa using hf)
  · simp only [List.mem_map]
    rintro p ⟨f,hf,rfl⟩
    obtain ⟨r,hr,rfl⟩ := List.mem_map.mp (List.mem_of_mem_filter (hiter.mem_iff.mp hf))
    exact ⟨rfl,Option.isSome_iff_exists.mpr ⟨r,Entry.getInRecord_eq_some_iff.mpr ⟨hr,rfl⟩⟩⟩
  · rw [foldl_deleteInRecord_inRecords]
    refine List.filter_congr fun r hr => ?_
    simp only [hiter.mem_iff]
    simp [List.mem_map_of_mem InRecord.face hr]

theorem sendNacks_spec_exampleWorld :
    let w := exampleWorld
    let header : NackHeader := ⟨.noRoute⟩
    let exceptFaces : List Face := [⟨2,.pointToPoint⟩]
    (id ((w.entry.inRecords.map InRecord.face).filter (· ∉ exceptFaces))).Perm
      ((w.entry.inRecords.map InRecord.face).filter (· ∉ exceptFaces)) ∧
    let w' := sendNacks id w header exceptFaces
    (∀ f, ((w'.outNacks.drop w.outNacks.length).map Prod.fst).count f =
        if (∃ r ∈ w.entry.inRecords, r.face = f) ∧ f ∉ exceptFaces then 1 else 0) ∧
      (∀ p ∈ w'.outNacks.drop w.outNacks.length,
        p.2 = header ∧ (w.entry.getInRecord p.1).isSome) ∧
      w'.entry.inRecords = w.entry.inRecords.filter (fun r => r.face ∈ exceptFaces) :=
  ⟨List.Perm.refl _,sendNacks_spec id exampleWorld ⟨.noRoute⟩ [⟨2,.pointToPoint⟩] (List.Perm.refl _)⟩

/-- In an `ETRI_DUAL_CS` build, forwarding face 1's untagged Interest to face 4 tags the
object face 1's in-record holds, so the Data then sent to face 1 carries the forwarder's
token for worker 3, though face 1 sent no token. -/
theorem sendData_after_sendInterest_tagged :
    (sendData (fun _ _ => true) (sendInterest ⟨false,true,false⟩ exampleWorld ⟨4,.pointToPoint⟩ 0)
        ⟨[⟨8,[0x42]⟩],none⟩ ⟨1,.pointToPoint⟩).map (fun r => r.2.pitToken) =
      some (some (StPitToken.encode ⟨3,false,0⟩)) := by
  decide

end Strategy
end MwNfd
