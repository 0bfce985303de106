import OdbcDns.RecordAccess
import OdbcDns.Proofs.Descriptions
import OdbcDns.Proofs.RecordOutcomes
import OdbcDns.Proofs.RequestReads

/-! What the loop of `cacheResponse` loads for the records of a reply. -/

namespace OdbcDns

section Result

variable (mem : Memory)

theorem loadBytes_result (n : Nat) (a : Address) :
    (loadBytes mem n a).1 = if n ≤ (mem.from a).length then .ok ((mem.from a).take n)
      else .error (.fault .outOfBounds) := by
  induction n generalizing a with
  | zero => simp [loadBytes]
  | succ n ih =>
    have next := mem.from_add a 1
    unfold loadBytes
    cases hm : mem.from a with
    | nil =>
      rw [load_of_nil hm]
      rfl
    | cons b rest =>
      rw [hm, List.drop_succ_cons, List.drop_zero] at next
      have first : (load mem a).1 = .ok b := by rw [load_of_cons hm]
      rw [Logged.bind_of_ok _ first, Logged.fst_bind, ih, next, List.length_cons,
        List.take_succ_cons]
      simp only [Nat.add_le_add_iff_right]
      split
      · rfl
      · rfl

theorem leadingPointerAt_result (a : Address) :
    (leadingPointerAt mem a).1 = leadingPointer (mem.from a) := by
  have next := fst_load mem a 1
  unfold leadingPointerAt leadingPointer
  cases hm : mem.from a with
  | nil =>
    rw [load_of_nil hm]
    rfl
  | cons b0 rest =>
    have first : (load mem a).1 = .ok b0 := by rw [load_of_cons hm]
    rw [Logged.bind_of_ok _ first]
    rw [hm] at next
    by_cases pointer : charToUnsigned b0 &&& 0xC0 = 0xC0
    · simp only [pointer, if_true]
      rw [Logged.fst_bind, next]
      cases rest with
      | nil => rfl
      | cons b1 rest => rfl
    · simp only [pointer, if_false]
      rfl

theorem FixedRRInfo.load_of_short {bs : List Byte} (h : bs.length < 10) :
    FixedRRInfo.load bs = .error (.fault .outOfBounds) := by
  unfold FixedRRInfo.load
  split
  · simp only [List.length_cons] at h
    omega
  · rfl

theorem FixedRRInfo.load_take (bs : List Byte) :
    FixedRRInfo.load (bs.take 10) = FixedRRInfo.load bs := by
  unfold FixedRRInfo.load
  split
  · rename_i he
    have whole := List.take_append_drop 10 bs
    rw [he] at whole
    rw [← whole]
    rfl
  · rename_i short
    split
    · exact absurd rfl (short _ _ _ _ _ _ _ _ _ _ _)
    · rfl

theorem FixedRRInfo.loadAt_result (a : Address) :
    (FixedRRInfo.loadAt mem a).1 = FixedRRInfo.load (mem.from a) := by
  unfold FixedRRInfo.loadAt
  rw [Logged.fst_bind, loadBytes_result]
  by_cases enough : 10 ≤ (mem.from a).length
  · rw [if_pos enough]
    exact FixedRRInfo.load_take (mem.from a)
  · rw [if_neg enough, FixedRRInfo.load_of_short (Nat.lt_of_not_le enough)]
    rfl

theorem DNSRDataA.decodeAt_result (uninit : Nat → Byte) (a : Address) (bufLen : Nat) :
    (DNSRDataA.decodeAt uninit mem a bufLen).1 =
      DNSRDataA.decode uninit (mem.from a) bufLen := by
  unfold DNSRDataA.decodeAt DNSRDataA.decode
  split
  · rfl
  · rw [Logged.fst_bind, loadBytes_result]
    by_cases enough : bufLen ≤ (mem.from a).length
    · have len : ((mem.from a).take bufLen).length = bufLen := List.length_take_of_le enough
      have octets : ([0, 1, 2, 3].map fun i =>
            if i < bufLen then byteAt ((mem.from a).take bufLen) i else uninit i) =
          [0, 1, 2, 3].map fun i => if i < bufLen then byteAt (mem.from a) i else uninit i := by
        refine List.map_congr_left fun i _ => ?_
        split
        · rename_i hi
          simp [byteAt, List.getElem?_take_of_lt hi]
        · rfl
      rw [if_pos enough, if_neg (Nat.not_lt.mpr enough), ← octets]
      simp only [bind, Except.bind, Logged.lift, len, Nat.lt_irrefl, if_false]
    · rw [if_neg enough, if_pos (Nat.lt_of_not_le enough)]
      rfl

theorem DNSRDataCNAME.decodeAt_result (buffer : Nat) :
    (DNSRDataCNAME.decodeAt mem buffer).1 =
      DNSRDataCNAME.decode ((mem .packet).drop buffer) (mem .packet) := by
  unfold DNSRDataCNAME.decodeAt DNSRDataCNAME.decode
  rw [Logged.fst_bind, leadingPointerAt_result]
  refine congrArg (_ >>= ·) (funext fun pointer => ?_)
  rw [Logged.fst_bind, decodeString_result]
  cases pointer with
  | none => rfl
  | some ptr => rfl

namespace DNSResourceRecord

theorem decodeRDataAt_result (uninit : Nat → Byte) (type : UInt16) (srcLoc rdlength : Nat) :
    (decodeRDataAt uninit mem type srcLoc rdlength).1 =
      decodeRData uninit type ((mem .packet).drop srcLoc) (mem .packet) rdlength := by
  unfold decodeRDataAt decodeRData
  split
  · rw [Logged.fst_bind, DNSRDataA.decodeAt_result, Memory.from]
    cases DNSRDataA.decode uninit ((mem .packet).drop srcLoc) rdlength with
    | error e => rfl
    | ok d => rfl
  · split
    · rw [Logged.fst_bind, DNSRDataCNAME.decodeAt_result]
      cases DNSRDataCNAME.decode ((mem .packet).drop srcLoc) (mem .packet) with
      | error e => rfl
      | ok d => rfl
    · rfl

/-- Without its accesses the traced decoder is the decoder. -/
theorem decodeAt_result (uninit : Nat → Byte) (buffer : Nat) :
    (decodeAt uninit mem buffer).1 = decode uninit (mem .packet) buffer := by
  unfold decodeAt decode decodeHead
  rw [Logged.fst_bind, leadingPointerAt_result, bind_assoc]
  refine congrArg (_ >>= ·) (funext fun pointer => ?_)
  by_cases far : pointer.getD buffer > maxDnsPacketLength
  · simp only [far, if_true]
    rfl
  · simp only [far, if_false]
    rw [Logged.fst_bind, decodeString_result, bind_assoc]
    refine congrArg (_ >>= ·) (funext fun r => ?_)
    obtain ⟨name, nameBytes⟩ := r
    simp only [Logged.fst_bind, FixedRRInfo.loadAt_result, decodeRDataAt_result, bind_assoc]
    rfl

end DNSResourceRecord

end Result

/-- The memory when every object ends after `n` bytes. -/
def Memory.cut (mem : Memory) (n : Nat) : Memory := fun r => (mem r).take n

theorem Memory.from_cut (mem : Memory) (n : Nat) (a : Address) :
    (mem.cut n).from a = (mem.from a).take (n - a.offset) :=
  List.drop_take ..

section Guards

variable (mem : Memory) (n : Nat)

/-- On the cut memory a computation stops at the first load that is not within it. -/
def Cuts {α : Type} (n : Nat) (x y : Traced α) : Prop :=
  Logged.Guards (Access.Within n) (.fault .outOfBounds) x y

theorem load_cuts (i : Nat) : Cuts n (load mem ⟨.packet, i⟩) (load (mem.cut n) ⟨.packet, i⟩) := by
  by_cases inside : i < n
  · have same : load (mem.cut n) ⟨.packet, i⟩ = load mem ⟨.packet, i⟩ := by
      simp only [load, readByte, Memory.cut, List.getElem?_take_of_lt inside]
    rw [same]
    exact .same (load_within inside)
  · refine .inr ⟨?_, fun all => inside (all (.load ⟨.packet, i⟩) List.mem_cons_self).2⟩
    have none : ((mem .packet).take n)[i]? = none := by
      rw [List.getElem?_eq_none_iff, List.length_take]
      omega
    simp only [load, readByte, Memory.cut, none]
    rfl

theorem strlenAt_outside {n i : Nat} (h : ¬ i < n) (bytes : List Byte) (k : Nat) :
    ¬ Logged.All (Access.Within n) (strlenAt ⟨.packet, i⟩ bytes k) := by
  intro all
  refine h (all (.load ⟨.packet, i⟩) ?_).2
  cases bytes with
  | nil => exact List.mem_cons_self
  | cons b rest => exact List.mem_cons_self

theorem strlenAt_cuts (bytes : List Byte) (i k : Nat) :
    Cuts n (strlenAt ⟨.packet, i⟩ bytes k) (strlenAt ⟨.packet, i⟩ (bytes.take (n - i)) k) := by
  induction bytes generalizing i k with
  | nil =>
    rw [List.take_nil]
    by_cases inside : i < n
    · exact .same (.bind (.log ⟨rfl, inside⟩) fun _ _ => .stop _)
    · exact .inr ⟨rfl, strlenAt_outside inside [] k⟩
  | cons b rest ih =>
    -- up to the cut both read the same byte, and at the cut only one of them finds a byte
    by_cases inside : i < n
    · have length : n - i = n - (i + 1) + 1 := by omega
      rw [length, List.take_succ_cons]
      refine .bind (.same (.log ⟨rfl, inside⟩)) fun _ _ => .ite (fun _ => .same (.pure k)) ?_
      exact fun _ => ih (i + 1) (k + 1)
    · have gone : n - i = 0 := by omega
      rw [gone, List.take_zero]
      exact .inr ⟨rfl, strlenAt_outside inside (b :: rest) k⟩

theorem copyLabelAt_cuts (bufLen k i : Nat) (c : Cursor) :
    Cuts n (copyLabelAt mem bufLen k ⟨.packet, i⟩ c)
      (copyLabelAt (mem.cut n) bufLen k ⟨.packet, i⟩ c) := by
  induction k generalizing i c with
  | zero => exact .same (.pure c)
  | succ k ih =>
    refine .ite (fun _ => .same (.stop _)) fun _ => ?_
    refine .bind (load_cuts mem n i) fun b _ => .bind (.same (.log trivial)) fun _ _ => ?_
    exact ih (i + 1) c.next

theorem decodeLoopAt_cuts (bufLen fuel i : Nat) (c : Cursor) :
    Cuts n (decodeLoopAt mem .packet bufLen fuel ⟨.packet, i⟩ c)
      (decodeLoopAt (mem.cut n) .packet bufLen fuel ⟨.packet, i⟩ c) := by
  induction fuel generalizing i c with
  | zero => exact .same (.stop _)
  | succ fuel ih =>
    refine .bind (load_cuts mem n i) fun b0 _ => .ite (fun _ => ?_) fun _ => .ite ?_ fun _ => ?_
    · exact .bind (load_cuts mem n (i + 1)) fun b1 _ => ih (pointerOffset b0 b1) c
    · exact fun _ => .same (.stop _)
    · refine .bind (copyLabelAt_cuts mem n bufLen b0.toNat (i + 1) c) fun c' _ => .ite ?_ fun _ => ?_
      · exact fun _ => .same (.stop _)
      · refine .bind (.same (.log trivial)) fun _ _ => .ite (fun _ => .same (.pure _)) fun _ => ?_
        exact ih (i + (b0.toNat + 1)) c'.next

theorem decodeString_cuts (i : Nat) :
    Cuts n (decodeString mem ⟨.packet, i⟩ .packet)
      (decodeString (mem.cut n) ⟨.packet, i⟩ .packet) := by
  refine .bind (.listen ?_) fun r _ => ?_
  · refine .bind ?_ fun k _ => .ite (fun _ => .same (.stop _)) fun _ => ?_
    · rw [Memory.from_cut]
      exact strlenAt_cuts n _ i 0
    · refine .bind (decodeLoopAt_cuts mem n _ _ i _) fun c _ => ?_
      exact .bind (.same (.log trivial)) fun _ _ => .same (.pure _)
  · exact .ite (fun _ => .same (.pure _)) fun _ => .same (.stop _)

theorem leadingPointerAt_cuts (i : Nat) :
    Cuts n (leadingPointerAt mem ⟨.packet, i⟩) (leadingPointerAt (mem.cut n) ⟨.packet, i⟩) := by
  refine .bind (load_cuts mem n i) fun b0 _ => .ite (fun _ => ?_) fun _ => .same (.pure _)
  exact .bind (load_cuts mem n (i + 1)) fun b1 _ => .same (.pure _)

theorem loadBytes_cuts (k i : Nat) :
    Cuts n (loadBytes mem k ⟨.packet, i⟩) (loadBytes (mem.cut n) k ⟨.packet, i⟩) := by
  induction k generalizing i with
  | zero => exact .same (.pure _)
  | succ k ih =>
    refine .bind (load_cuts mem n i) fun b _ => .bind (ih (i + 1)) fun bs _ => ?_
    exact .same (.pure _)

theorem decodeRDataAt_cuts (uninit : Nat → Byte) (type : UInt16) (srcLoc rdlength : Nat) :
    Cuts n (DNSResourceRecord.decodeRDataAt uninit mem type srcLoc rdlength)
      (DNSResourceRecord.decodeRDataAt uninit (mem.cut n) type srcLoc rdlength) := by
  refine .ite (fun _ => .bind ?_ fun d _ => .same (.pure _)) fun _ =>
    .ite (fun _ => .bind ?_ fun d _ => .same (.pure _)) fun _ => .same (.pure _)
  · refine .ite (fun _ => .same (.stop _)) fun _ => ?_
    exact .bind (loadBytes_cuts mem n rdlength srcLoc) fun bs _ => .same (.lift _)
  · refine .bind (leadingPointerAt_cuts mem n srcLoc) fun pointer _ => ?_
    exact .bind (decodeString_cuts mem n (pointer.getD srcLoc)) fun r _ => .same (.lift _)

/-- The decoder needs the bytes that it loads, and no others. -/
theorem decodeAt_cuts (uninit : Nat → Byte) (buffer : Nat) :
    Cuts n (DNSResourceRecord.decodeAt uninit mem buffer)
      (DNSResourceRecord.decodeAt uninit (mem.cut n) buffer) := by
  refine .bind (leadingPointerAt_cuts mem n buffer) fun pointer _ => ?_
  refine .ite (fun _ => .same (.stop _)) fun _ => ?_
  refine .bind (decodeString_cuts mem n (pointer.getD buffer)) fun r _ => ?_
  refine .bind (.bind (loadBytes_cuts mem n 10 _) fun bs _ => .same (.lift _)) fun info _ => ?_
  exact .bind (decodeRDataAt_cuts mem n uninit _ _ _) fun rdata _ => .same (.pure _)

end Guards

/-- The `n` records from `ptr` on are in the first 512 bytes, at least up to one that makes
the decoder throw or halt. -/
inductive RecordsContained (msg : List Byte) : Nat → Nat → Prop
  | none (ptr : Nat) : RecordsContained msg 0 ptr
  | record {n ptr next : Nat} (here : RecordReturns (msg.take 512) ptr next)
      (tail : RecordsContained msg n next) : RecordsContained msg (n + 1) ptr
  | throws {n ptr : Nat} (h : RecordThrows msg ptr) : RecordsContained msg (n + 1) ptr
  | halts {n ptr : Nat} (h : RecordHalts (msg.take 512) ptr) : RecordsContained msg (n + 1) ptr

namespace DecodeStep

theorem noting {P : DecodeStep → Prop} :
    host.Noting P (fun _ _ => True) (fun number buffer => P ⟨number, buffer⟩) where
  silent _ := rfl
  commits := rfl
  log _ _ _ _ := .lift _
  decoding _ _ step := .note step (.pure ())

/-- The step throws, or it loads nothing but the first 512 bytes of the packet. What comes
after an access outside an object is undefined and may load anything. -/
def ReadsMessage (heap : Nat → Nat → Byte) (packet : Packet) (step : DecodeStep) : Prop :=
  (∃ what, (DNSResourceRecord.decodeAt (heap step.number) (packet.memory []) step.buffer).1 =
      .error (.exception what)) ∨
    (DNSResourceRecord.decodeAt (heap step.number) (packet.memory []) step.buffer).1 ≠
        .error (.fault .outOfBounds) ∧
      (DNSResourceRecord.decodeAt (heap step.number) (packet.memory []) step.buffer).All
        (Access.Within 512)

section Bytes

variable (heap : Nat → Nat → Byte) (packet : Packet) (step : DecodeStep)

/-- A record that can be decoded from the first 512 bytes alone is decoded from them. -/
theorem within_of_cut {r : Except Stop (DNSResourceRecord × Nat)}
    (cut : DNSResourceRecord.decode (heap step.number) (packet.bytes.take 512) step.buffer = r)
    (defined : r ≠ .error (.fault .outOfBounds)) :
    step.ReadsMessage heap packet ∧
      DNSResourceRecord.decode (heap step.number) packet.bytes step.buffer = r := by
  have whole := DNSResourceRecord.decodeAt_result (packet.memory []) (heap step.number) step.buffer
  have alone := DNSResourceRecord.decodeAt_result ((packet.memory []).cut 512) (heap step.number)
    step.buffer
  rcases decodeAt_cuts (packet.memory []) 512 (heap step.number) step.buffer with
    ⟨same, inside⟩ | ⟨stopped, _⟩
  · rw [same] at alone
    have result := alone.trans cut
    refine ⟨.inr ⟨?_, inside⟩, whole.symm.trans result⟩
    rw [result]
    exact defined
  · exact absurd (cut.symm.trans (alone.symm.trans stopped)) defined

theorem recordThrows_of_step {what : String}
    (threw : (DNSResourceRecord.decodeAt (heap step.number) (packet.memory []) step.buffer).1 =
      .error (.exception what)) : RecordThrows packet.bytes step.buffer := by
  have thrown : DNSResourceRecord.decode (heap step.number) packet.bytes step.buffer =
      .error (.exception what) :=
    (DNSResourceRecord.decodeAt_result (packet.memory []) _ step.buffer).symm.trans threw
  have outcome := decode_outcome (heap step.number) packet.bytes step.buffer
  rw [thrown] at outcome
  exact outcome

/-- What the step reads is told by the bytes. -/
theorem readsMessage_iff : step.ReadsMessage heap packet ↔
    RecordThrows packet.bytes step.buffer ∨ RecordHalts (packet.bytes.take 512) step.buffer ∨
      ∃ next, RecordReturns (packet.bytes.take 512) step.buffer next := by
  have whole := DNSResourceRecord.decodeAt_result (packet.memory []) (heap step.number) step.buffer
  constructor
  · rintro (⟨what, threw⟩ | ⟨defined, inside⟩)
    · exact .inl (recordThrows_of_step heap packet step threw)
    · have cuts := decodeAt_cuts (packet.memory []) 512 (heap step.number) step.buffer
      have same := (cuts.resolve_right fun outside => outside.2 inside).1
      have alone := DNSResourceRecord.decodeAt_result ((packet.memory []).cut 512)
        (heap step.number) step.buffer
      rw [same] at alone
      have outcome := decode_outcome (heap step.number) (packet.bytes.take 512) step.buffer
      cases hd : DNSResourceRecord.decode (heap step.number) (packet.bytes.take 512) step.buffer with
      | ok r =>
        rw [hd] at outcome
        exact .inr (.inr ⟨_, outcome⟩)
      | error e =>
        have result := alone.trans hd
        rw [hd] at outcome
        cases e with
        | exception what => exact .inl (recordThrows_of_step heap packet step result)
        | code n => exact outcome.elim
        | fault f =>
          cases f with
          | outOfBounds => exact absurd result defined
          | invalidParameter => exact .inr (.inl outcome)
          | badRData => exact .inr (.inl outcome)
          | hang => exact .inr (.inl outcome)
  · rintro (throws | halts | ⟨next, returns⟩)
    · obtain ⟨what, threw⟩ := throws.decode (heap step.number)
      exact .inl ⟨what, whole.trans threw⟩
    · obtain ⟨f, defined, stopped⟩ := halts.decode (heap step.number)
      exact (within_of_cut heap packet step stopped (by simpa using defined)).1
    · obtain ⟨rr, decoded⟩ := returns.decode (heap step.number)
      exact (within_of_cut heap packet step decoded (by simp)).1

end Bytes

/-- The step of a call of the decoder. -/
def ofCall (c : DecodeCall) : DecodeStep := ⟨c.number, c.buffer⟩

/-- The calls that the packet leads to stay in the message exactly when its records do. -/
theorem readsMessage_calls_iff (heap : Nat → Nat → Byte) (packet : Packet) (n i ptr : Nat) :
    (∀ c ∈ decodeCalls heap packet.bytes n i ptr, (ofCall c).ReadsMessage heap packet) ↔
      RecordsContained packet.bytes n ptr := by
  induction n generalizing i ptr with
  | zero => exact ⟨fun _ => .none ptr, fun _ => List.forall_mem_nil _⟩
  | succ n ih =>
    have here := readsMessage_iff heap packet ⟨i, ptr⟩
    constructor
    · intro h
      rcases here.mp (h _ List.mem_cons_self) with throws | halts | ⟨next, returns⟩
      · exact .throws throws
      · exact .halts halts
      · obtain ⟨rr, decoded⟩ := returns.decode (heap i)
        have whole := (within_of_cut heap packet ⟨i, ptr⟩ decoded (by simp)).2
        rw [decodeCalls_of_ok whole] at h
        exact .record returns ((ih (i + 1) next).mp fun c hc => h c (List.mem_cons_of_mem _ hc))
    · intro h
      cases h with
      | record returns tail =>
        obtain ⟨rr, decoded⟩ := returns.decode (heap i)
        have whole := (within_of_cut heap packet ⟨i, ptr⟩ decoded (by simp)).2
        rw [decodeCalls_of_ok whole]
        exact List.forall_mem_cons.mpr ⟨here.mpr (.inr (.inr ⟨_, returns⟩)), (ih _ _).mpr tail⟩
      | throws throws =>
        obtain ⟨what, threw⟩ := throws.decode (heap i)
        rw [decodeCalls_of_error threw]
        exact List.forall_mem_singleton.mpr (here.mpr (.inl throws))
      | halts halts =>
        obtain ⟨f, defined, stopped⟩ := halts.decode (heap i)
        have whole := (within_of_cut heap packet ⟨i, ptr⟩ stopped (by simpa using defined)).2
        rw [decodeCalls_of_error whole]
        exact List.forall_mem_singleton.mpr (here.mpr (.inr (.inl halts)))

section Run

variable {heap : Nat → Nat → Byte} {s : Session} {n i ptr : Nat} {log : List DecodeStep}

/-- Without failures of the driver and without a log, the loop goes on after every record. -/
theorem cacheRecord_goes_on (e : Execution) (rr : DNSResourceRecord) (quiet : s.driver = [])
    (log : List DecodeStep) : ∃ t, t.driver = [] ∧ t.packet = s.packet ∧
      host.cacheRecord ⟨0, false⟩ e rr (s, log) = (.ok (), t, log) := by
  unfold Host.cacheRecord
  cases hr : rr.rdata with
  | none => exact ⟨s, quiet, rfl, rfl⟩
  | some rdata =>
    have update : ∀ f count c, (Act.silent (executeUpdate f count) : SteppingCall Int)
        ({ s with connection := c }, log) = (.ok count, { s with connection := f c }, log) := by
      intro f count c
      rw [Act.silent, executeUpdate_of_nil (s := { s with connection := c }) f count quiet]
    have deleted := update (deleteFor e rr) e.deleteCount s.connection
    have inserted := update (insertFor e rr rdata) e.insertCount (deleteFor e rr s.connection)
    refine ⟨{ s with connection := insertFor e rr rdata (deleteFor e rr s.connection) }, quiet,
      rfl, ?_⟩
    refine (Act.bind_of_ok deleted).trans ((Act.bind_of_ok inserted).trans ?_)
    simp only [host, Bool.and_false]
    rfl

theorem step_of_quiet (executions : Nat → Execution) (quiet : s.driver = []) {c : DecodeCall}
    (h : c ∈ decodeCalls heap s.packet.bytes n i ptr) :
    ofCall c ∈ (host.cacheLoop ⟨0, false⟩ executions heap n i ptr (s, log)).2.2 := by
  have all := noting (P := fun _ => True)
  induction n generalizing i ptr s log with
  | zero => cases h
  | succ n ih =>
    rw [all.cacheLoop_succ]
    have noted : host.decoding i ptr (s, log) = (.ok (), s, log ++ [⟨i, ptr⟩]) := rfl
    rw [Act.bind_of_ok noted]
    cases hd : DNSResourceRecord.decode (heap i) s.packet.bytes ptr with
    | error e =>
      rw [decodeCalls_of_error hd] at h
      rw [List.mem_singleton.mp h]
      exact List.mem_append_right log (List.mem_singleton_self _)
    | ok r =>
      obtain ⟨rr, after⟩ := r
      rw [decodeCalls_of_ok hd] at h
      obtain ⟨t, quiet', packet, cached⟩ :=
        cacheRecord_goes_on (executions i) rr quiet (log ++ [⟨i, ptr⟩])
      have step : (host.cacheRecord ⟨0, false⟩ (executions i) rr >>= fun _ =>
          host.cacheLoop ⟨0, false⟩ executions heap n (i + 1) after) (s, log ++ [⟨i, ptr⟩]) =
          host.cacheLoop ⟨0, false⟩ executions heap n (i + 1) after (t, log ++ [⟨i, ptr⟩]) :=
        Act.bind_of_ok cached
      show ofCall c ∈ ((host.cacheRecord ⟨0, false⟩ (executions i) rr >>= fun _ =>
        host.cacheLoop ⟨0, false⟩ executions heap n (i + 1) after) (s, log ++ [⟨i, ptr⟩])).2.2
      rw [step]
      rcases List.mem_cons.mp h with rfl | h
      · have keeps := (all.cacheLoop ⟨0, false⟩ executions heap (fun _ _ => trivial)
          (fun _ _ => trivial) n (i + 1) after).keeps (t, log ++ [⟨i, ptr⟩])
        exact keeps.subset (List.mem_append_right _ (List.mem_singleton_self _))
      · rw [← packet] at h
        exact ih quiet' h

end Run

end DecodeStep

/-- The loop stays in the message for every cache and whatever the driver returns exactly
when the records that the reply leads to are in the first 512 bytes of the packet, up to one
that makes the decoder throw or halt. -/
theorem record_reads_iff (heap : Nat → Nat → Byte) (packet : Packet) (data numResponses : Nat) :
    (∀ cfg executions s, s.packet = packet → ∀ step ∈ DecodeStep.steps
        (DecodeStep.host.cacheResponse cfg executions heap data numResponses) s,
          step.ReadsMessage heap packet) ↔
      RecordsContained packet.bytes numResponses data := by
  rw [← DecodeStep.readsMessage_calls_iff heap packet numResponses 0 data]
  constructor
  · intro h c hc
    have first := (DecodeStep.noting (P := fun _ => True)).prefix_cacheResponse ⟨0, false⟩
      (fun _ => .instant 0) heap (s := .caching packet) data numResponses rfl
    have made : DecodeStep.ofCall c ∈ (DecodeStep.host.cacheLoop ⟨0, false⟩
        (fun _ => .instant 0) heap numResponses 0 data (.caching packet, [])).2.2 :=
      DecodeStep.step_of_quiet _ rfl hc
    exact h ⟨0, false⟩ _ (.caching packet) rfl _ (first.subset made)
  · rintro h cfg executions s rfl
    exact DecodeStep.noting.cacheResponse_notes cfg executions heap
      fun c hc => ⟨h c hc, fun _ _ _ _ => trivial⟩

theorem length_behind : (List.replicate 512 (0 : Byte) ++ [1, 97, 0] ++
    List.replicate 509 0).length = packetAllocation := by
  rw [List.length_append, List.length_append, List.length_replicate, List.length_replicate]
  rfl

/-- A packet that holds another name behind its first 512 bytes. -/
def nameBehind : Packet :=
  ⟨List.replicate 512 0 ++ [1, 97, 0] ++ List.replicate 509 0, length_behind⟩

/-- An alias that points to the byte behind the message. -/
def farAlias : Packet :=
  .ofDatagram (upstreamReply 1 [0xC0, 12, 0, 5, 0, 1, 0, 0, 0, 60, 0, 2, 0xC2, 0]) nameBehind

/-- A text record that claims to have 65535 bytes of data, in front of another record. -/
def farRecord : Packet :=
  received (upstreamReply 2 [0xC0, 12, 0, 16, 0, 1, 0, 0, 0, 60, 0xFF, 0xFF])

/-- The alias is read from behind the message. -/
theorem farAlias_decodeAt :
    (DNSResourceRecord.decodeAt (fun _ => 0) (farAlias.memory []) 19).1 =
        .ok (⟨[97], ⟨5, 1, 60, 2⟩, some (.cname ⟨[97]⟩)⟩, 33) ∧
      .load ⟨.packet, 512⟩ ∈
        (DNSResourceRecord.decodeAt (fun _ => 0) (farAlias.memory []) 19).2 :=
  ⟨by decide +kernel, by decide +kernel⟩

/-- The second record is looked for behind the packet. -/
theorem farRecord_decodeAt :
    (DNSResourceRecord.decodeAt (fun _ => 0) (farRecord.memory []) 65566).1 =
      .error (.fault .outOfBounds) := by
  decide +kernel

/-- A pointer in an alias leads out of the message, and so does the length of a record. -/
theorem record_reads_outside :
    DecodeStep.steps (DecodeStep.host.cacheResponse ⟨0, false⟩ (fun _ => .instant 0)
        (fun _ _ => 0) 19 1) (.caching farAlias) = [⟨0, 19⟩] ∧
      ¬ DecodeStep.ReadsMessage (fun _ _ => 0) farAlias ⟨0, 19⟩ ∧
      DecodeStep.steps (DecodeStep.host.cacheResponse ⟨0, false⟩ (fun _ => .instant 0)
        (fun _ _ => 0) 19 2) (.caching farRecord) = [⟨0, 19⟩, ⟨1, 65566⟩] ∧
      ¬ DecodeStep.ReadsMessage (fun _ _ => 0) farRecord ⟨1, 65566⟩ := by
  refine ⟨by decide +kernel, ?_, by decide +kernel, ?_⟩
  · rintro (⟨what, threw⟩ | ⟨_, inside⟩)
    · cases farAlias_decodeAt.1.symm.trans threw
    · exact Nat.lt_irrefl 512 (inside _ farAlias_decodeAt.2).2
  · rintro (⟨what, threw⟩ | ⟨defined, _⟩)
    · cases farRecord_decodeAt.symm.trans threw
    · exact defined farRecord_decodeAt

end OdbcDns
