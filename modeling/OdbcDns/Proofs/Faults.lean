import OdbcDns.Proofs.Relay

namespace OdbcDns

/-- A stop that no handler sees. -/
def Stop.IsFault : Stop → Prop
  | .fault _ => True
  | _ => False

/-- A computation that throws nothing: where it does not return, it is a fault. -/
def Faults {α : Type} (x : Except Stop α) : Prop := ∀ e, x = .error e → e.IsFault

namespace Faults

variable {α β : Type}

theorem ok (a : α) : Faults (.ok a) := fun _ h => nomatch h

theorem fault (f : Fault) : Faults (.error (.fault f) : Except Stop α) := by
  rintro e ⟨⟩
  exact trivial

theorem bind {x : Except Stop α} {f : α → Except Stop β} (hx : Faults x)
    (hf : ∀ a, Faults (f a)) : Faults (x >>= f) := by
  intro e h
  cases x with
  | error e' =>
    cases h
    exact hx e rfl
  | ok a => exact hf a e h

theorem map {x : Except Stop α} (hx : Faults x) (f : α → β) : Faults (x.map f) := by
  intro e h
  cases x with
  | error e' =>
    cases h
    exact hx e rfl
  | ok a => cases h

theorem ite {p : Prop} [Decidable p] {x y : Except Stop α} (hx : Faults x) (hy : Faults y) :
    Faults (if p then x else y) := by
  split
  · exact hx
  · exact hy

end Faults

theorem getString_faults (text buf : List Byte) : Faults (getString text buf) :=
  .ite (.fault _) (.ok _)

theorem strlen_faults (mem : List Byte) : Faults (strlen mem) := .ite (.ok _) (.fault _)

theorem parseFields_faults (n : Nat) (ptr : List Byte) : Faults (DNSRDataA.parseFields n ptr) := by
  induction n generalizing ptr with
  | zero => exact .ok _
  | succ n ih =>
    refine .bind (.ite (.ok _) (.fault _)) fun temp => ?_
    exact .ite (.fault _) (.ite (.fault _) (.bind (ih _) fun _ => .ok _))

theorem makeRData_faults (type : UInt16) (valueBuf : List Byte) :
    Faults (makeRData type valueBuf) := by
  refine .ite (.map ?_ _) (.ite (.map (.ite (.fault _) (.ok _)) _) (.fault _))
  exact .bind (strlen_faults _) fun _ =>
    .ite (.fault _) (.bind (parseFields_faults 4 _) fun _ => .ok _)

theorem encodeLoop_faults (bufLen fuel : Nat) (lastPtr : List Byte) :
    Faults (encodeLoop bufLen fuel lastPtr) := by
  induction fuel generalizing lastPtr with
  | zero => exact .fault _
  | succ fuel ih => exact .ite (.fault _) (.ite (.bind (ih _) fun _ => .ok _) (.ok _))

theorem encodeName_faults (name : List Byte) (bufLen : Nat) : Faults (encodeName name bufLen) :=
  .bind (encodeLoop_faults _ _ _) fun _ => .ok _

theorem store_faults (p : Packet) (off : Nat) (bs : List Byte) : Faults (p.store off bs) := by
  unfold Packet.store
  split
  · exact .ok _
  · exact .fault _

theorem encodeOwner_faults (name : List Byte) (bufLen : Nat) (t : PointerLocations) :
    Faults (DNSResourceRecord.encodeOwner name bufLen t) := by
  unfold DNSResourceRecord.encodeOwner
  split
  · exact .ite (.fault _) (.ok _)
  · exact encodeName_faults _ _

theorem encodeRData_faults (d : DNSRData) (bufLen : Int) : Faults (d.encode bufLen) := by
  cases d with
  | a d => exact .ite (.fault _) (.ok _)
  | cname d => exact encodeName_faults _ _

theorem encode_faults (rr : DNSResourceRecord) (p : Packet) (off bufLen : Nat)
    (t : PointerLocations) : Faults (rr.encode p off bufLen t) := by
  refine .bind (encodeOwner_faults _ _ _) fun owner => ?_
  refine .bind (store_faults _ _ _) fun p => ?_
  cases rr.rdata with
  | none => exact .fault _
  | some rdata =>
    refine .bind (encodeRData_faults _ _) fun data => ?_
    refine .bind (store_faults _ _ _) fun p => ?_
    exact .ite (.fault _) (.bind (store_faults _ _ _) fun _ => .ok _)

theorem encodeRow_faults {cfg : Config} {row : Row} {l : RowLoop} {e : Stop} {s s' : Session}
    (h : encodeRow cfg row l s = (.error e, s')) : e.IsFault := by
  obtain ⟨_, ⟨_, _, he⟩ | ⟨_, _, he⟩ | ⟨_, _, _, _, _, he⟩⟩ := encodeRow_error h
  · exact getString_faults _ _ e he
  · exact makeRData_faults _ _ e he
  · exact encode_faults _ _ _ _ _ e he

/-- What a part of the program leaves alone that does not use the network. -/
structure Stays (s t : Session) : Prop where
  offline : Offline s t
  header : t.packet.bytes.take 12 = s.packet.bytes.take 12
  driver : t.driver ⊆ s.driver

theorem Stays.refl (s : Session) : Stays s s := ⟨.refl s, rfl, List.Subset.refl _⟩

theorem Stays.trans {s t u : Session} (h : Stays s t) (g : Stays t u) : Stays s u :=
  ⟨.trans s t u h.offline g.offline, g.header.trans h.header, List.Subset.trans g.driver h.driver⟩

/-- `E` holds of every stop that a part of the program can end with that does not
use the network: a fault, or an error of the driver. -/
structure Allows (E : Stop → Prop) (s : Session) : Prop where
  fault : ∀ f, E (.fault f)
  driver : ∀ m, some m ∈ s.driver → E (.exception m)

theorem Allows.stays {E : Stop → Prop} {s t : Session} (h : Allows E s) (hs : Stays s t) :
    Allows E t := ⟨h.fault, fun m hm => h.driver m (hs.driver hm)⟩

/-- Any way to end is allowed. -/
theorem Allows.all (s : Session) : Allows (fun _ => True) s :=
  ⟨fun _ => trivial, fun _ _ => trivial⟩

theorem Allows.of_isFault {E : Stop → Prop} {s : Session} {e : Stop} (h : Allows E s)
    (he : e.IsFault) : E e := by
  cases e with
  | fault f => exact h.fault f
  | code n => cases he
  | exception m => cases he

section Stays

variable {E : Stop → Prop} {s : Session}

theorem driverCall_stays (h : Allows E s) :
    Act.Ends E (fun _ t => Stays s t) (driverCall s) := by
  obtain ⟨packet, queries, table, connection, socket, exchanges, driver⟩ := s
  match driver with
  | [] => exact .refl _
  | none :: rest => exact ⟨⟨rfl, rfl, rfl⟩, rfl, List.subset_cons_self _ _⟩
  | some m :: rest => exact h.driver m (.head _)

theorem commit_stays (h : Allows E s) : Act.Ends E (fun _ t => Stays s t) (commit s) :=
  .bind (driverCall_stays h) fun _ t ht =>
    ht.trans ⟨⟨rfl, rfl, rfl⟩, rfl, List.Subset.refl t.driver⟩

end Stays

/-- What one row does to the variables of the loop. -/
structure RowRead (row : Row) (l l' : RowLoop) (n : Nat) : Prop where
  ptr : l'.ptr = l.ptr
  remLen : l'.remLen = l.remLen - n
  addresses : l'.numARecords = if row.type = typeA then l.numARecords + 1 else l.numARecords
  info : l'.info = l.info

/-- One row changes no byte before it. What stops it is a fault. -/
theorem encodeRow_stays (cfg : Config) (row : Row) {E : Stop → Prop} {l : RowLoop}
    {s : Session} (h : Allows E s) (hl : 12 ≤ l.ptr) :
    Act.Ends E (fun r t => Stays s t ∧ RowRead row l r.1 r.2)
      (encodeRow cfg row l s) := by
  rcases he : encodeRow cfg row l s with ⟨e | ⟨l', n⟩, s'⟩
  · exact h.of_isFault (encodeRow_faults he)
  · obtain ⟨_, _, _, _, packet, _, _, _, henc, rfl, rfl⟩ := encodeRow_inv he
    exact ⟨⟨⟨rfl, rfl, rfl⟩, encode_take henc hl, List.Subset.refl _⟩, rfl, rfl, rfl, rfl⟩

/-- What the loop over the rows does to its variables. -/
structure RowsRead (rows : List Row) (l l' : RowLoop) : Prop where
  forward : l.ptr ≤ l'.ptr
  inside : (l'.ptr : Int) ≤ l.ptr + l.remLen
  recursion : l'.info.recursionOccurred = l.info.recursionOccurred
  addresses : l'.truncated = false →
    l'.numARecords = l.numARecords + rows.countP (fun row => row.type = typeA)
  whole : l'.truncated = false → l'.info.truncationOccurred = l.info.truncationOccurred

theorem resolveRows_stays (cfg : Config) (rows : List Row) {E : Stop → Prop} {l : RowLoop}
    {s : Session} (h : Allows E s) (hl : 12 ≤ l.ptr) (hr : 0 ≤ l.remLen) :
    Act.Ends E (fun l' t => Stays s t ∧ RowsRead rows l l')
      (resolveRows cfg rows l s) := by
  induction rows generalizing l s with
  | nil =>
    exact .bind (driverCall_stays h) fun _ t ht =>
      ⟨ht, Nat.le_refl _, by omega, rfl, by simp, fun _ => rfl⟩
  | cons row rows ih =>
    rw [resolveRows_cons]
    refine .bind (driverCall_stays h) fun _ t ht => ?_
    refine .bind (encodeRow_stays cfg row (h.stays ht) hl) fun r u hu => ?_
    obtain ⟨l', n⟩ := r
    obtain ⟨hu, hptr, hrem, hcount, hinfo⟩ := hu
    have hst := ht.trans hu
    dsimp only at hptr hrem hcount hinfo ⊢
    split
    · exact ⟨hst, Nat.le_of_eq hptr.symm, by simp only; omega, by rw [hinfo], by simp, by simp⟩
    · refine (ih (h.stays hst) (by simp only; omega) (by simp only; omega)).mono fun l'' v hv => ?_
      obtain ⟨hv, hf, hin, hrec, hrest, hflag⟩ := hv
      simp only at hf hin hrec hrest hflag
      refine ⟨hst.trans hv, by omega, by omega, by rw [hrec, hinfo], fun htr => ?_,
        fun htr => by rw [hflag htr, hinfo]⟩
      rw [hrest htr, hcount, List.countP_cons]
      simp only [decide_eq_true_eq]
      split <;> omega

/-- Without an address among the rows none is counted. -/
theorem RowsRead.no_address {rows : List Row} {l l' : RowLoop} (h : RowsRead rows l l')
    (hl : l.numARecords = 0) (ht : l'.truncated = false) (hn : l'.numARecords = 0) :
    ∀ row ∈ rows, row.type ≠ typeA := by
  have hcount := h.addresses ht
  rw [hn, hl, eq_comm, Nat.zero_add, List.countP_eq_zero] at hcount
  exact fun row hrow => by simpa using hcount row hrow

theorem Stays.idOf {s t : Session} (h : Stays s t) : idOf t.packet.bytes = idOf s.packet.bytes :=
  idOf_of_take_eq h.header (by decide)

theorem Stays.rd {s t : Session} (h : Stays s t) : rd t.packet.bytes = rd s.packet.bytes :=
  rd_of_take_eq h.header (by decide)

theorem Stays.qr {s t : Session} (h : Stays s t) : qr t.packet.bytes = qr s.packet.bytes :=
  qr_of_take_eq h.header (by decide)

theorem Stays.available {s t : Session} (h : Stays s t) : t.available = s.available := by
  rw [Session.available, Session.available, Session.exchange, Session.exchange,
    h.offline.socket, h.offline.exchanges]

/-- `resolveA` answers from the rows, or asks the recursive server if it is to and
there is no address. -/
theorem resolveA_stays {E : Stop → Prop} {Q : Nat → Session → Prop} (cfg : Config) (locals : Locals)
    {lookup : List Byte → List Row} {query : DNSQuery} {responseData packetLen : Nat}
    {info : ResponseInfo} {s : Session} (h : Allows E s) (hr : 12 ≤ responseData)
    (hrec : rd s.packet.bytes = true → (∀ row ∈ lookup query.qname, row.type ≠ typeA) →
      ∀ u, Stays s u → Act.Ends E Q (recursiveResolve cfg packetLen u)) :
    Act.Ends E (fun r t =>
        Stays s t ∧ r.1 ≤ 500 ∧ r.2.recursionOccurred = info.recursionOccurred ∨
        Q r.1 t ∧ r.2.recursionOccurred = true ∧
          r.2.truncationOccurred = info.truncationOccurred)
      (resolveA cfg locals lookup query responseData info packetLen s) := by
  rw [resolveA_eq]
  split
  · exact h.fault _
  · refine .bind (driverCall_stays h) fun _ t ht => ?_
    have room : (0 : Int) ≤ maxDnsPacketLength - headerLength := by decide
    refine .bind (resolveRows_stays cfg _ (h.stays ht) hr room) fun l u hu => ?_
    obtain ⟨hu, hread⟩ := hu
    have hsu := ht.trans hu
    have hlen : l.ptr - responseData ≤ 500 := by
      have := hread.inside
      simp only [maxDnsPacketLength, headerLength] at this
      omega
    have answered : Act.Ends E (fun r t =>
        Stays s t ∧ r.1 ≤ 500 ∧ r.2.recursionOccurred = info.recursionOccurred ∨
        Q r.1 t ∧ r.2.recursionOccurred = true ∧
          r.2.truncationOccurred = info.truncationOccurred)
        ((do commit; pure (l.ptr - responseData, l.info) : Call (Nat × ResponseInfo)) u) :=
      .bind (commit_stays (h.stays hsu)) fun _ v hv => .inl ⟨hsu.trans hv, hlen, hread.recursion⟩
    split
    · exact answered
    · rename_i htr
      rw [Act.bind_of_ok (Act.get_apply u)]
      split
      · rename_i hno
        have none := hread.no_address rfl (Bool.eq_false_iff.mpr htr) hno.1
        refine .bind (commit_stays (h.stays hsu)) fun _ v hv => ?_
        refine .bind (hrec (hsu.rd ▸ hno.2) none v (hsu.trans hv)) fun n x hx => ?_
        exact .inr ⟨hx, rfl, hread.whole (Bool.eq_false_iff.mpr htr)⟩
      · exact answered

/-- Without a recursive server nothing but the answers is written. -/
theorem resolveA_noServer {cfg : Config} (locals : Locals) {lookup : List Byte → List Row}
    {query : DNSQuery} {responseData packetLen : Nat} {info : ResponseInfo} {s : Session}
    (hs : cfg.noServer = true) (hr : 12 ≤ responseData) :
    Act.Ends (fun _ => True) (fun _ t => Stays s t)
      (resolveA cfg locals lookup query responseData info packetLen s) := by
  refine (resolveA_stays (Q := fun _ t => Stays s t) cfg locals (.all s) hr
    fun _ _ u hu => ?_).mono fun _ _ ht => ?_
  · rw [recursiveResolve_of_noServer hs]
    exact hu
  · rcases ht with ⟨ht, _⟩ | ⟨ht, _⟩
    · exact ht
    · exact ht

end OdbcDns
