import OdbcDns.Proofs.OdbcDriver
import OdbcDns.Proofs.CachedRows
import OdbcDns.Proofs.Expansion
import OdbcDns.Proofs.Records

namespace OdbcDns.OdbcCalls

/-! Caching. -/

def deleteParams : List (ParameterType × CachePointer) := [(.string 256, .name)]

def insertParams : List (ParameterType × CachePointer) :=
  [(.string 256, .name), (.string 256, .value), (.string 256, .name), (.string 256, .value),
    (.long, .ttl), (.ushort, .type), (.ushort, .rclass)]

structure CacheStatements.Ready (q : CacheStatements) : Prop where
  insertStatement : OdbcCalls.Ready .insert insertParams q.insertStatement
  deleteStatement : OdbcCalls.Ready .delete deleteParams q.deleteStatement

theorem consults_prepareStatements {F : Stop → Prop} :
    Consults F CacheStatements.Ready prepareStatements := by
  unfold prepareStatements SQLStatement.bindString SQLStatement.bindLong SQLStatement.bindUShort
    SQLStatement.bind SQLStatement.prepare
  refine consults_new.bind ?_
  rintro _ rfl
  refine consults_new.bind ?_
  rintro _ rfl
  repeat
    refine (consults_update _ _).bind ?_
    rintro _ rfl
  refine .pure ⟨⟨rfl, ?_⟩, ⟨rfl, ?_⟩⟩
  · intro n hn
    simp only [SQLText.markers] at hn
    obtain rfl | rfl | rfl | rfl | rfl | rfl | rfl : n = 0 ∨ n = 1 ∨ n = 2 ∨ n = 3 ∨ n = 4 ∨
      n = 5 ∨ n = 6 := by omega
    all_goals rfl
  · intro n hn
    obtain rfl : n = 0 := Nat.lt_one_iff.mp hn
    rfl

/-- A record whose strings fit the buffers of `cacheResponse`. -/
structure RecordFits (rr : DNSResourceRecord) : Prop where
  name : (0 : Byte) ∉ rr.name ∧ rr.name.length ≤ 255
  value : ∀ rdata, rr.rdata = some rdata → (0 : Byte) ∉ rdata.getValue ∧ rdata.getValue.length ≤ 255

theorem decodeName_fits {name packet text : List Byte} {n : Nat}
    (h : decodeName name packet (maxDnsNameLength + 1) = .ok (text, n)) :
    (0 : Byte) ∉ text ∧ text.length ≤ 254 := by
  have hlen := decodeName_length h
  simp only [maxDnsNameLength] at hlen
  refine ⟨?_, by omega⟩
  obtain ⟨_, _, _, _, rfl, _⟩ := decodeName_ok_iff.mp h
  intro hm
  exact absurd (List.mem_takeWhile_imp hm) (by simp)

theorem decode_fits {uninit : Nat → Byte} {packet : List Byte} {buffer after : Nat}
    {rr : DNSResourceRecord} (h : DNSResourceRecord.decode uninit packet buffer = .ok (rr, after)) :
    RecordFits rr := by
  obtain ⟨p, hp⟩ : ∃ p, leadingPointer (packet.drop buffer) = .ok p := by
    obtain ⟨_, head, _⟩ := Except.bind_ok.mp h
    obtain ⟨p, hp, _⟩ := Except.bind_ok.mp head
    exact ⟨p, hp⟩
  obtain ⟨_, n, mid, hname, _, _, hdata, _⟩ := (decode_ok_iff hp).mp h
  have hn := decodeName_fits hname
  refine ⟨⟨hn.1, by omega⟩, fun rdata hr => ?_⟩
  rw [hr] at hdata
  unfold DNSResourceRecord.decodeRData at hdata
  split at hdata
  · cases hx : DNSRDataA.decode uninit (packet.drop (mid + 10)) rr.info.rdlength.toNat with
    | error e => simp [hx, Except.map] at hdata
    | ok a =>
      obtain ⟨q, hq⟩ := DNSRDataA.decode_ok hx
      simp only [hx, Except.map, Except.ok.injEq, Option.some.injEq] at hdata
      subst hdata
      have hlen := q.length_text_le
      simp only [DNSRData.getValue, hq]
      exact ⟨q.zero_not_mem, by omega⟩
  split at hdata
  · cases hx : DNSRDataCNAME.decode (packet.drop (mid + 10)) packet with
    | error e => simp [hx, Except.map] at hdata
    | ok c =>
      obtain ⟨hz, ho⟩ := DNSRDataCNAME.decode_ok hx
      simp only [hx, Except.map, Except.ok.injEq, Option.some.injEq] at hdata
      subst hdata
      refine ⟨hz, ?_⟩
      unfold DNSRDataCNAME.ofText at ho
      split at ho
      · cases ho
      · simp only [maxDnsNameLength] at *
        simp only [DNSRData.getValue]
        omega
  · cases hdata

/-- A string that fits is read back from the buffer. -/
theorem strcpyS_fits (buf : List Byte) {text : List Byte} {size : Nat} (zero : (0 : Byte) ∉ text)
    (fits : text.length + 1 ≤ size) :
    ∃ buf', strcpyS buf size text = .ok buf' ∧ cstr buf' = text := by
  refine ⟨_, if_neg (by omega), ?_⟩
  simp [Slice.overwrite, cstr_of_not_mem zero]

section Caching

variable {v : CacheBuffers} {name value : List Byte}

/-- What the marker of the delete stands for. -/
theorem bound_delete (hn : cstr v.name = name) (fits : name.length ≤ 255) :
    bound .delete deleteParams v.cell = some [.varchar name] := by
  have size : name.length ≤ 256 := by omega
  simp [bound, SQLText.markers, deleteParams, List.range_succ, ParameterType.read,
    CacheBuffers.cell, hn, size]

theorem bound_insert (hn : cstr v.name = name) (nameFits : name.length ≤ 255)
    (hv : cstr v.value = value) (valueFits : value.length ≤ 255) :
    bound .insert insertParams v.cell = some [.varchar name, .varchar value, .varchar name,
      .varchar value, .integer v.ttl, .smallint v.type, .smallint v.rclass] := by
  have nameSize : name.length ≤ 256 := by omega
  have valueSize : value.length ≤ 256 := by omega
  simp [bound, SQLText.markers, insertParams, List.range_succ, ParameterType.read,
    CacheBuffers.cell, hn, hv, nameSize, valueSize]

theorem update_delete (e : Execution) (rr : DNSResourceRecord) (c : Connection) :
    SQLText.delete.update e [.varchar rr.name] c = some ⟨deleteFor e rr c,
      if c.expired rr.name e.deleteNow = [] then .noData else .success, e.deleteCount, []⟩ := rfl

theorem update_insert (e : Execution) (rr : DNSResourceRecord) (rdata : DNSRData)
    (c : Connection) :
    SQLText.insert.update e [.varchar rr.name, .varchar rdata.getValue, .varchar rr.name,
      .varchar rdata.getValue, .integer rr.getTTL, .smallint rr.getType, .smallint rr.getClass] c =
        some ⟨insertFor e rr rdata c, .success, e.insertCount, []⟩ := rfl

theorem refined_cacheRecord (cfg : Config) (e : Execution) {rr : DNSResourceRecord}
    {q : CacheStatements} (fits : RecordFits rr) (ready : q.Ready) (v : CacheBuffers) :
    RefinedBy (fun p _ => p.1.Ready) (cacheRecord cfg e rr q v) (OdbcDns.cacheRecord cfg e rr) := by
  unfold cacheRecord
  cases hr : rr.rdata with
  | none =>
    rw [cacheRecord_none cfg e hr]
    exact .pure ready
  | some rdata =>
    obtain ⟨hzero, hlen⟩ := fits.name
    obtain ⟨hzero', hlen'⟩ := fits.value rdata hr
    obtain ⟨name, hname, hn⟩ := strcpyS_fits v.name hzero (Nat.succ_le_succ hlen)
    obtain ⟨value, hvalue, hv⟩ := strcpyS_fits v.value hzero' (Nat.succ_le_succ hlen')
    rw [cacheRecord_eq cfg e hr]
    simp only [hname, hvalue, Act.lift_ok_bind]
    refine .bind (ready.deleteStatement.executeUpdate (bound_delete hn hlen)
      (update_delete e rr) fun c => ?_) ?_
    · split <;> simp
    intro d _ hd
    refine .bind (ready.insertStatement.executeUpdate (bound_insert hn hlen hv hlen')
      (update_insert e rr rdata) fun c => ?_) ?_
    · simp
    intro i inserted hi
    simp only [hi.1, host]
    generalize (if decide (inserted ≠ 0) && cfg.infoEnabled then describe rr.getType rr.getClass
      else .ok ()) = line
    cases line with
    | ok _ => exact .pure ⟨hi.2, hd.2⟩
    | error e => exact .lift rfl

theorem refined_cacheLoop (cfg : Config) (t : Turn) (n i ptr : Nat)
    {p : CacheStatements × CacheBuffers} (ready : p.1.Ready) :
    RefinedBy (fun _ _ => True)
      (host.cacheLoopBy t.heap (fun i rr p => cacheRecord cfg (t.executions i) rr p.1 p.2) n i ptr p)
      (OdbcDns.cacheLoop cfg t.executions t.heap n i ptr) := by
  induction n generalizing i ptr p with
  | zero => exact .pure trivial
  | succ n ih =>
    unfold OdbcDns.cacheLoop Host.cacheLoop Host.cacheLoopBy
    refine .get_bind (fun _ _ => rfl) fun d => ?_
    refine .bind (V := fun _ _ => True) (.pure trivial) fun _ _ _ => ?_
    cases hd : DNSResourceRecord.decode (t.heap i) d.session.packet.bytes ptr with
    | error e =>
      simp only [view, hd, Act.lift_error_bind]
      exact .lift rfl
    | ok r =>
      simp only [view, hd, Act.lift_ok_bind]
      exact .bind (refined_cacheRecord cfg _ (decode_fits hd) ready p.2) fun p _ hp => ih _ _ hp

theorem refined_cacheResponse (cfg : Config) (t : Turn) (v : Driver) (data n : Nat) :
    RefinedBy Eq (cacheResponse cfg t v data n)
      (OdbcDns.cacheResponse cfg t.executions t.heap data n) := by
  rw [cacheResponse_eq]
  unfold cacheResponse
  refine consults_prepareStatements.refined (F := fun _ => False) (fun _ h => h.elim) ?_
  intro q ready
  refine .bind (refined_cacheLoop cfg t n 0 data ready) fun _ _ _ => ?_
  exact .bind refined_commit fun _ _ _ => refined_commit

end Caching

/-! Looking up. -/

/-- A part of the resolver that does not depend on the outcomes of the driver's calls. -/
def Undriven {α : Type} (y : Call α) : Prop :=
  ∀ s outcomes, y { s with driver := outcomes } = ((y s).1, { (y s).2 with driver := outcomes })

section Undriven

variable {α β : Type}

theorem Undriven.refined {y : Call α} (h : Undriven y) : RefinedBy Eq (OdbcCall.plain y) y := by
  refine .of_silent (fun _ zero => zero) (fun _ _ ho => ho) fun d =>
    ⟨(y d.session).1, ?_, fun outcomes => h d.session outcomes⟩
  unfold OdbcCall.plain
  cases (y d.session).1 <;> rfl

theorem Undriven.refined_and {y : Call α} {P : α → Prop} (h : Undriven y)
    (hp : ∀ s a t, y s = (.ok a, t) → P a) :
    RefinedBy (fun a b => a = b ∧ P a) (OdbcCall.plain y) y := by
  apply h.refined.and
  intro d a t ha
  have result : (y d.session).1 = .ok a := congrArg Prod.fst ha
  exact hp d.session a _ (Act.eq_of_fst result)

theorem Undriven.bind {y : Call α} {f : α → Call β} (hy : Undriven y) (hf : ∀ a, Undriven (f a)) :
    Undriven (y >>= f) := by
  intro s outcomes
  rw [Act.bind_apply, Act.bind_apply, hy]
  rcases y s with ⟨r, t⟩
  cases r with
  | ok a => exact hf a t outcomes
  | error e => rfl

theorem Undriven.lift (z : Except Stop α) : Undriven (Act.lift z) := fun _ _ => rfl

theorem Undriven.get_bind {f : Session → Call α}
    (hf : ∀ s outcomes, f { s with driver := outcomes } = f s) (h : ∀ s, Undriven (f s)) :
    Undriven (Act.get >>= f) := by
  intro s outcomes
  rw [Act.get_bind, Act.get_bind, hf]
  exact h s s outcomes

theorem undriven_extractLoop (cfg : Config) (stack : List Byte) (n ptr length : Nat) :
    Undriven (extractLoop cfg stack n ptr length) := by
  induction n generalizing ptr length with
  | zero => exact fun _ _ => rfl
  | succ n ih =>
    rw [extractLoop_succ]
    refine .get_bind (fun _ _ => rfl) fun s => .bind (.lift _) fun q => .bind (.lift _) fun _ => ?_
    exact .bind (fun _ _ => rfl) fun _ => ih _ _

theorem undriven_extractQueries (cfg : Config) (stack : List Byte) :
    Undriven (extractQueries cfg stack) :=
  .get_bind (fun _ _ => rfl) fun _ => undriven_extractLoop cfg stack _ _ _

theorem undriven_receiveReply (originalId : List Byte) (packetLen : Nat) :
    Undriven (receiveReply originalId packetLen) := by
  intro s outcomes
  unfold receiveReply
  simp only [Act.get_bind]
  cases s.socket.inbox with
  | nil => rfl
  | cons d rest =>
    simp only [Act.set_bind]
    split
    · rfl
    · simp only [Act.get_bind]
      split <;> rfl

theorem undriven_recursiveResolve (cfg : Config) (packetLen : Nat) :
    Undriven (recursiveResolve cfg packetLen) := by
  unfold recursiveResolve
  split
  · exact fun _ _ => rfl
  intro s outcomes
  simp only [Act.get_bind, Act.set_bind]
  cases (s.exchanges.headD .quiet).sendError with
  | some e => rfl
  | none =>
    dsimp only
    split
    · rfl
    · refine Undriven.bind (fun _ _ => rfl) (fun _ => ?_)
        { s with exchanges := s.exchanges.tail } outcomes
      split
      · exact fun _ _ => rfl
      · exact fun _ _ => rfl
      · exact undriven_receiveReply _ _

theorem undriven_encodeFetched (cfg : Config) (row : RowBuffers) (l : RowLoop) :
    Undriven (Host.plain.encodeFetched cfg row l) := by
  unfold Host.encodeFetched
  refine .bind (.lift _) fun rdata => .bind (.lift _) fun _ => ?_
  intro s outcomes
  simp only [Host.plain, Act.get_bind]
  generalize DNSResourceRecord.encode _ s.packet l.ptr (toSize l.remLen) s.pointerLocations =
    encoded
  cases encoded <;> rfl

end Undriven

end OdbcDns.OdbcCalls
