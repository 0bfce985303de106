import OdbcDns.Resolver
import OdbcDns.Proofs.Answers

namespace OdbcDns
open Slice Rfc1035

/-- The table after a record written at `ptr`: the first spelling of an alias is
remembered. -/
def extend (t : PointerLocations) (ptr : Nat) (a : Answer) : PointerLocations :=
  match a.target with
  | .address _ => t
  | .cname n =>
    if t n.text = none then
      t.insert n.text (UInt16.ofNat (ptr + (ownerBytes t a.owner).length + 10))
    else t

/-- The answer section that the loop of `resolveA` writes from `ptr` on. -/
def answerBytes (t : PointerLocations) (ptr : Nat) : List Answer → List Byte
  | [] => []
  | a :: as => recordBytes t a ++ answerBytes (extend t ptr a) (ptr + (recordBytes t a).length) as

/-- The compression table that it leaves. -/
def answerTable (t : PointerLocations) (ptr : Nat) : List Answer → PointerLocations
  | [] => t
  | a :: as => answerTable (extend t ptr a) (ptr + (recordBytes t a).length) as

theorem logGuarded_ok (cfg : Config) (type rclass : UInt16) :
    logGuarded cfg type rclass = .ok () := by
  unfold logGuarded
  split
  · rename_i h
    simp only [validateDescrArrays, Bool.and_eq_true, decide_eq_true_eq] at h
    exact if_pos ⟨h.2.1.2, h.2.2⟩
  · rfl

theorem overwrite_zero (buf bs : List Byte) :
    overwrite buf 0 (bs ++ [0]) = bs ++ 0 :: buf.drop (bs.length + 1) := by
  simp [overwrite]

theorem getString_text (text : List Byte) (h : text.length ≤ 254) (buf : List Byte) :
    getString text buf = .ok (text ++ 0 :: buf.drop (text.length + 1)) := by
  unfold getString
  rw [if_neg (by omega), overwrite_zero]

theorem getString_append {text buf out : List Byte} (h : getString text buf = .ok out) :
    ∃ rest, out = text ++ 0 :: rest := by
  unfold getString at h
  split at h
  · cases h
  · rw [← Except.ok.inj h, overwrite_zero]
    exact ⟨_, rfl⟩

theorem makeRData_target (x : Target) (rest : List Byte) :
    makeRData x.type (x.text ++ 0 :: rest) = .ok x.object := by
  cases x with
  | address q =>
    simp only [makeRData, Target.type, if_true, Target.text, q.ofText]
    rfl
  | cname n =>
    have hname : DNSRDataCNAME.ofText n.text = .ok ⟨n.text⟩ := ofText_of_le n.short
    have hne : typeCname ≠ typeA := by decide
    simp only [makeRData, Target.type, hne, if_false, if_true, Target.text,
      cstr_of_not_mem n.zero_not_mem, hname]
    rfl

/-- The loop variables after the record of one row. -/
def RowLoop.after (l : RowLoop) (a : Answer) (n : Nat) : RowLoop :=
  { l with
    valueBuf := a.target.text ++ 0 :: l.valueBuf.drop (a.target.text.length + 1)
    numARecords := if a.isAddress then l.numARecords + 1 else l.numARecords
    remLen := l.remLen - n }

theorem RowLoop.after_numARecords (l : RowLoop) (a : Answer) (n : Nat) :
    (l.after a n).numARecords = l.numARecords + if a.isAddress then 1 else 0 := by
  unfold RowLoop.after
  cases a.isAddress <;> rfl

theorem Answer.type_eq_typeA (a : Answer) : a.target.type = typeA ↔ a.isAddress = true := by
  unfold Answer.isAddress
  cases a.target <;> simp [Target.type, typeA, typeCname]

/-- For a well-formed row only `encode` can stop the body of the loop. -/
theorem encodeRow_row (cfg : Config) (a : Answer) (l : RowLoop) (s : Session) :
    encodeRow cfg a.row l s =
      match a.object.encode s.packet l.ptr (toSize l.remLen) s.pointerLocations with
      | .error e => (.error e, s)
      | .ok (_, packet, n) => (.ok (l.after a n, n), { s with
          packet
          pointerLocations :=
            if a.target.type = typeCname ∧ s.pointerLocations a.target.text = none then
              s.pointerLocations.insert a.target.text
                (UInt16.ofNat (l.ptr + n - a.target.text.length - 2))
            else s.pointerLocations }) := by
  have hv := getString_text _ a.target.length_text_le l.valueBuf
  have hn := getString_text a.owner.text a.owner.short []
  have hr := makeRData_target a.target (l.valueBuf.drop (a.target.text.length + 1))
  have ho : (⟨a.owner.text, ⟨a.target.type, a.rclass, a.ttl, 0⟩, some a.target.object⟩ :
      DNSResourceRecord) = a.object := rfl
  rw [encodeRow_eq]
  simp only [Answer.row, Act.bind_apply, Act.lift_apply, Act.get_apply, hv, hn, hr, logGuarded_ok,
    cstr_of_not_mem a.owner.zero_not_mem, cstr_of_not_mem a.target.zero_not_mem, ho]
  cases a.object.encode s.packet l.ptr (toSize l.remLen) s.pointerLocations with
  | error e => rfl
  | ok r => simp only [Act.set_apply, Act.pure_apply, RowLoop.after, a.type_eq_typeA]

/-- What the body of the loop does to the session and to its variables, whatever
the row is. -/
theorem encodeRow_inv {cfg : Config} {row : Row} {l l' : RowLoop} {n : Nat} {s s' : Session}
    (h : encodeRow cfg row l s = (.ok (l', n), s')) :
    ∃ valueBuf nameBuf rdata rr packet, getString row.value l.valueBuf = .ok valueBuf ∧
      getString row.name [] = .ok nameBuf ∧ makeRData row.type valueBuf = .ok rdata ∧
      DNSResourceRecord.encode ⟨cstr nameBuf, ⟨row.type, row.rclass, row.ttl, 0⟩, some rdata⟩
        s.packet l.ptr (toSize l.remLen) s.pointerLocations = .ok (rr, packet, n) ∧
      l' = ⟨l.ptr, l.remLen - n, if row.type = typeA then l.numARecords + 1 else l.numARecords,
        valueBuf, l.info, l.truncated⟩ ∧
      s' = { s with
        packet
        pointerLocations :=
          if row.type = typeCname ∧ s.pointerLocations (cstr valueBuf) = none then
            s.pointerLocations.insert (cstr valueBuf)
              (UInt16.ofNat (l.ptr + n - (cstr valueBuf).length - 2))
          else s.pointerLocations } := by
  rw [encodeRow_eq] at h
  simp only [Act.lift_bind_ok, Act.get_bind, Act.set_bind, Act.pure_apply] at h
  obtain ⟨nameBuf, hn, valueBuf, hv, rdata, hr, _, _, ⟨rr, packet, m⟩, he, h⟩ := h
  cases h
  exact ⟨valueBuf, nameBuf, rdata, rr, packet, hv, hn, hr, he, rfl, rfl⟩

/-- A row that stops the loop has changed nothing, and it stops it in one of three ways. -/
theorem encodeRow_error {cfg : Config} {row : Row} {l : RowLoop} {e : Stop} {s s' : Session}
    (h : encodeRow cfg row l s = (.error e, s')) : s' = s ∧
      ((∃ text buf, getString text buf = .error e) ∨
        (∃ type buf, makeRData type buf = .error e) ∨
        ∃ (rr : DNSResourceRecord) (p : Packet) (off bufLen : Nat) (t : PointerLocations),
          rr.encode p off bufLen t = .error e) := by
  rw [encodeRow_eq] at h
  simp only [Act.lift_bind_error, Act.get_bind, Act.set_bind, Act.pure_apply, Prod.mk.injEq,
    reduceCtorEq, false_and, and_false, exists_false, or_false, false_or, logGuarded_ok] at h
  obtain ⟨he, rfl⟩ | ⟨_, _, ⟨he, rfl⟩ | ⟨_, _, ⟨he, rfl⟩ | ⟨_, _, _, _, he, rfl⟩⟩⟩ := h
  · exact ⟨rfl, .inl ⟨_, _, he⟩⟩
  · exact ⟨rfl, .inl ⟨_, _, he⟩⟩
  · exact ⟨rfl, .inr (.inl ⟨_, _, he⟩)⟩
  · exact ⟨rfl, .inr (.inr ⟨_, _, _, _, _, he⟩)⟩

theorem extend_eq (t : PointerLocations) (ptr : Nat) (a : Answer) :
    (if a.target.type = typeCname ∧ t a.target.text = none then
      t.insert a.target.text
        (UInt16.ofNat (ptr + (recordBytes t a).length - a.target.text.length - 2))
    else t) = extend t ptr a := by
  unfold extend
  have hl := length_recordBytes t a
  cases hx : a.target with
  | address q => simp [Target.type, typeA, typeCname]
  | cname n =>
    have hw := n.length_wire
    rw [hx, Target.bytes, hw] at hl
    have he : ptr + (recordBytes t a).length - n.text.length - 2 =
        ptr + (ownerBytes t a.owner).length + 10 := by omega
    simp only [Target.type, Target.text, true_and, he]

/-- What one row does to the loop and to the session when its record is written. -/
structure WroteRow (a : Answer) (l : RowLoop) (n : Nat) (s s' : Session) : Prop where
  size : n = (recordBytes s.pointerLocations a).length
  inside : l.ptr + n ≤ 1024
  packet : s'.packet.bytes = overwrite s.packet.bytes l.ptr (recordBytes s.pointerLocations a)
  frame : s' = { s with
    packet := s'.packet
    pointerLocations := extend s.pointerLocations l.ptr a }

theorem encodeRow_ok {cfg : Config} {a : Answer} {l l' : RowLoop} {n : Nat} {s s' : Session}
    (h : encodeRow cfg a.row l s = (.ok (l', n), s')) :
    l' = l.after a n ∧ WroteRow a l n s s' := by
  rw [encodeRow_row] at h
  cases he : a.object.encode s.packet l.ptr (toSize l.remLen) s.pointerLocations with
  | error e => simp [he] at h
  | ok r =>
    obtain ⟨rr, packet, m⟩ := r
    obtain ⟨hm, hle, hp⟩ := Answer.encode_ok he
    simp only [he, Prod.mk.injEq, Except.ok.injEq] at h
    obtain ⟨⟨rfl, rfl⟩, rfl⟩ := h
    refine ⟨rfl, hm, hle, hp, ?_⟩
    rw [hm, extend_eq]

theorem encodeRow_of_fits (cfg : Config) (a : Answer) (l : RowLoop) (s : Session)
    (hfit : ((recordBytes s.pointerLocations a).length : Int) ≤ l.remLen) (hrem : l.remLen ≤ 500)
    (hoff : l.ptr + (recordBytes s.pointerLocations a).length ≤ 1024) :
    ∃ s', encodeRow cfg a.row l s =
      (.ok (l.after a (recordBytes s.pointerLocations a).length,
        (recordBytes s.pointerLocations a).length), s') := by
  have hs : toSize l.remLen = l.remLen.toNat := toSize_of_lt (by omega) (by omega)
  obtain ⟨rr, p', he, _⟩ := a.encode_of_fits s.packet s.pointerLocations
    l.ptr l.remLen.toNat (by omega) (by omega) hoff
  rw [encodeRow_row, hs, he]
  exact ⟨_, rfl⟩

theorem driverCall_snd (s : Session) : (driverCall s).2 = { s with driver := s.driver.tail } := by
  obtain ⟨packet, queries, table, connection, socket, exchanges, driver⟩ := s
  match driver with
  | [] => rfl
  | none :: _ => rfl
  | some _ :: _ => rfl

theorem driverCall_of_nil {s : Session} (h : s.driver = []) : driverCall s = (.ok (), s) := by
  simp [driverCall, Act.bind_apply, h]

theorem driverCall_ok {s s' : Session} (h : driverCall s = (.ok (), s')) :
    s' = { s with driver := s.driver.tail } := by
  rw [← driverCall_snd, h]

theorem resolveRows_nil_ok {cfg : Config} {l l' : RowLoop} {s s' : Session}
    (h : resolveRows cfg [] l s = (.ok l', s')) :
    l' = l ∧ s' = { s with driver := s.driver.tail } := by
  simp only [resolveRows_nil, Act.bind_ok, Act.pure_apply, Prod.mk.injEq, Except.ok.injEq] at h
  obtain ⟨_, _, hd, rfl, rfl⟩ := h
  exact ⟨rfl, driverCall_ok hd⟩

/-- The loop has turned the first record away, or has gone on behind it. -/
theorem resolveRows_cons_ok {cfg : Config} {row : Row} {rows : List Row} {l l' : RowLoop}
    {s s' : Session} (h : resolveRows cfg (row :: rows) l s = (.ok l', s')) :
    ∃ l₁ n t, encodeRow cfg row l { s with driver := s.driver.tail } = (.ok (l₁, n), t) ∧
      (l₁.remLen ≤ 0 ∧ s' = t ∧ l' = { l₁ with
          info := { l₁.info with truncationOccurred := true, answers := l₁.info.answers - 1 }
          truncated := true } ∨
        0 < l₁.remLen ∧ resolveRows cfg rows { l₁ with
          ptr := l₁.ptr + n
          info := { l₁.info with answers := l₁.info.answers + 1 } } t = (.ok l', s')) := by
  simp only [resolveRows_cons, Act.bind_ok] at h
  obtain ⟨_, t, hd, ⟨l₁, n⟩, t₁, he, h⟩ := h
  rw [driverCall_ok hd] at he
  refine ⟨l₁, n, t₁, he, ?_⟩
  by_cases hz : l₁.remLen ≤ 0
  · simp only [hz, if_true, Act.pure_apply, Prod.mk.injEq, Except.ok.injEq] at h
    exact .inl ⟨hz, h.2.symm, h.1.symm⟩
  · simp only [hz, if_false] at h
    exact .inr ⟨Int.not_le.mp hz, h⟩

/-- What the loop over all rows does when no record is turned away. -/
structure WroteRows (as : List Answer) (l l' : RowLoop) (s s' : Session) : Prop where
  fits : ((answerBytes s.pointerLocations l.ptr as).length : Int) < l.remLen
  inside : l.ptr + (answerBytes s.pointerLocations l.ptr as).length ≤ 1024
  ptr : l'.ptr = l.ptr + (answerBytes s.pointerLocations l.ptr as).length
  addresses : l'.numARecords = l.numARecords + as.countP Answer.isAddress
  info : l'.info = { l.info with answers := l.info.answers + UInt16.ofNat as.length }
  packet : s'.packet.bytes =
    overwrite s.packet.bytes l.ptr (answerBytes s.pointerLocations l.ptr as)
  frame : s' = { s with
    packet := s'.packet
    pointerLocations := answerTable s.pointerLocations l.ptr as
    driver := s'.driver }

theorem ofNat_succ (n : Nat) : UInt16.ofNat (n + 1) = 1 + UInt16.ofNat n := by
  rw [Nat.add_comm, UInt16.ofNat_add]
  rfl

theorem resolveRows_ok {cfg : Config} {as : List Answer} {l l' : RowLoop} {s s' : Session}
    (h : resolveRows cfg (as.map Answer.row) l s = (.ok l', s')) (ht : l'.truncated = false)
    (hrem : 0 < l.remLen) (hptr : l.ptr ≤ 1024) : WroteRows as l l' s s' := by
  induction as generalizing l s with
  | nil =>
    obtain ⟨rfl, rfl⟩ := resolveRows_nil_ok h
    refine ⟨by simpa [answerBytes] using hrem, by simpa [answerBytes] using hptr,
      by simp [answerBytes], by simp, by simp, by simp [answerBytes], rfl⟩
  | cons a as ih =>
    obtain ⟨l1, n, t1, he, ⟨_, _, rfl⟩ | ⟨hz, h⟩⟩ := resolveRows_cons_ok h
    · cases ht
    · obtain ⟨hl1, hw⟩ := encodeRow_ok he
      have hn : n = (recordBytes s.pointerLocations a).length := hw.size
      have hrem1 : l1.remLen = l.remLen - n := by rw [hl1]; rfl
      have hptr1 : l1.ptr = l.ptr := by rw [hl1]; rfl
      have hinfo1 : l1.info = l.info := by rw [hl1]; rfl
      have hwr := ih h hz (by rw [hptr1]; exact hw.inside)
      have htab1 : t1.pointerLocations = extend s.pointerLocations l.ptr a := by rw [hw.frame]
      have hpk1 : t1.packet.bytes =
          overwrite s.packet.bytes l.ptr (recordBytes s.pointerLocations a) := hw.packet
      obtain ⟨fits, inside, ptr, addresses, info, packet, frame⟩ := hwr
      simp only [hptr1, htab1, hn, hinfo1, hrem1, hpk1]
        at fits inside ptr addresses info packet frame
      have hlen : (answerBytes s.pointerLocations l.ptr (a :: as)).length =
          (recordBytes s.pointerLocations a).length +
            (answerBytes (extend s.pointerLocations l.ptr a)
              (l.ptr + (recordBytes s.pointerLocations a).length) as).length := by
        rw [answerBytes, List.length_append]
      refine ⟨by rw [hlen]; push_cast; omega, by rw [hlen]; omega,
        by rw [hlen, ptr]; omega, ?_, ?_, ?_, ?_⟩
      · rw [addresses, hl1, RowLoop.after_numARecords, List.countP_cons]
        omega
      · rw [info, List.length_cons, ofNat_succ, ← UInt16.add_assoc]
      · rw [packet, answerBytes]
        exact overwrite_append (by rw [List.length_append, s.packet.size, packetAllocation]; omega)
      · rw [frame, hw.frame]
        rfl

/-- The loop returns when the records fit strictly and the driver reports no
error. -/
theorem resolveRows_of_fits (cfg : Config) (as : List Answer) (l : RowLoop) (s : Session)
    (hdrv : s.driver = [])
    (hfit : ((answerBytes s.pointerLocations l.ptr as).length : Int) < l.remLen)
    (hrem : l.remLen ≤ 500)
    (hoff : l.ptr + (answerBytes s.pointerLocations l.ptr as).length ≤ 1024) :
    ∃ l' s', resolveRows cfg (as.map Answer.row) l s = (.ok l', s') ∧
      l'.truncated = l.truncated ∧ s'.driver = [] := by
  induction as generalizing l s with
  | nil => exact ⟨l, s, by simp [resolveRows_nil, Act.bind_apply, driverCall_of_nil hdrv], rfl, hdrv⟩
  | cons a as ih =>
    simp only [answerBytes, List.length_append] at hfit hoff
    push_cast at hfit
    obtain ⟨t, he⟩ := encodeRow_of_fits cfg a l s (by omega) hrem (by omega)
    have hw := (encodeRow_ok he).2
    have htab : t.pointerLocations = extend s.pointerLocations l.ptr a := by rw [hw.frame]
    have hz : ¬ (l.after a (recordBytes s.pointerLocations a).length).remLen ≤ 0 := by
      simp only [RowLoop.after]
      omega
    obtain ⟨l', s', hr, ht, hd⟩ := ih { l.after a (recordBytes s.pointerLocations a).length with
        ptr := l.ptr + (recordBytes s.pointerLocations a).length
        info := { l.info with answers := l.info.answers + 1 } } t
      (by rw [hw.frame]; exact hdrv)
      (by rw [htab]; simp only [RowLoop.after]; omega)
      (by simp only [RowLoop.after]; omega)
      (by rw [htab]; simp only; omega)
    refine ⟨l', s', ?_, ht, hd⟩
    simp only [List.map_cons, resolveRows_cons, Act.bind_apply, driverCall_of_nil hdrv, he, hz, if_false]
    exact hr

/-- Records that fit strictly are not turned away. -/
theorem resolveRows_whole {cfg : Config} {as : List Answer} {l l' : RowLoop} {s s' : Session}
    (h : resolveRows cfg (as.map Answer.row) l s = (.ok l', s'))
    (hfit : ((answerBytes s.pointerLocations l.ptr as).length : Int) < l.remLen) :
    l'.truncated = l.truncated := by
  induction as generalizing l s with
  | nil => rw [(resolveRows_nil_ok h).1]
  | cons a as ih =>
    obtain ⟨l1, n, t1, he, h⟩ := resolveRows_cons_ok h
    obtain ⟨hl1, hw⟩ := encodeRow_ok he
    have hn : n = (recordBytes s.pointerLocations a).length := hw.size
    simp only [answerBytes, List.length_append, ← hn] at hfit
    push_cast at hfit
    rcases h with ⟨hz, _, _⟩ | ⟨_, h⟩
    · simp only [hl1, RowLoop.after] at hz
      omega
    · rw [ih h, hl1]
      · rfl
      · rw [hw.frame, hl1]
        simp only [RowLoop.after]
        omega

/-- The loop leaves through the check for truncation only with the flag set. -/
theorem resolveRows_truncated {cfg : Config} {rows : List Row} {l l' : RowLoop} {s s' : Session}
    (h : resolveRows cfg rows l s = (.ok l', s')) (h0 : l.truncated = false)
    (ht : l'.truncated = true) : l'.info.truncationOccurred = true := by
  induction rows generalizing l s with
  | nil =>
    rw [(resolveRows_nil_ok h).1, h0] at ht
    cases ht
  | cons row rows ih =>
    obtain ⟨l1, n, t1, he, ⟨_, _, rfl⟩ | ⟨_, h⟩⟩ := resolveRows_cons_ok h
    · rfl
    · obtain ⟨_, _, _, _, _, _, _, _, _, hl, _⟩ := encodeRow_inv he
      exact ih h (by rw [hl]; exact h0)

/-- What `resolveA` does when it answers from the cache without truncation. -/
structure Answered (as : List Answer) (off : Nat) (info : ResponseInfo) (s : Session) (n : Nat)
    (info' : ResponseInfo) (s' : Session) : Prop where
  fits : (answerBytes s.pointerLocations off as).length < 500
  inside : off + (answerBytes s.pointerLocations off as).length ≤ 1024
  length : n = (answerBytes s.pointerLocations off as).length
  info : info' = { info with answers := info.answers + UInt16.ofNat as.length }
  packet : s'.packet.bytes = overwrite s.packet.bytes off (answerBytes s.pointerLocations off as)
  frame : s' = { s with
    packet := s'.packet
    pointerLocations := answerTable s.pointerLocations off as
    connection := s.connection.commit
    driver := s'.driver }

theorem commit_ok {s s' : Session} (h : commit s = (.ok (), s')) :
    s' = { s with connection := s.connection.commit, driver := s.driver.tail } := by
  simp only [commit, Act.bind_ok, Act.modify_apply, Prod.mk.injEq, true_and] at h
  obtain ⟨_, t, hd, rfl⟩ := h
  rw [driverCall_ok hd]

theorem commit_of_nil {s : Session} (h : s.driver = []) :
    commit s = (.ok (), { s with connection := s.connection.commit }) := by
  simp only [commit, Act.bind_apply, driverCall_of_nil h, Act.modify_apply]

theorem byteAt_overwrite {m bs : List Byte} {off i : Nat} (h : off + bs.length ≤ m.length)
    (hi : i < off) : byteAt (overwrite m off bs) i = byteAt m i := by
  simp only [byteAt, List.getD_eq_getElem?_getD, getElem?_overwrite h, hi, if_true]

/-- `resolveA` does not ask the recursive server when it has found an address,
or when the request does not ask for it. -/
def Local (as : List Answer) (request : List Byte) : Prop :=
  0 < as.countP Answer.isAddress ∨ rd request = false

/-- The variables of `resolveA` when its loop starts. -/
def RowLoop.start (locals : Locals) (off : Nat) (info : ResponseInfo) : RowLoop :=
  ⟨off, 500, 0, locals.valueBuf, info, false⟩

/-- A lookup whose first call into the driver fails. -/
theorem resolveA_of_fails {cfg : Config} {locals : Locals} {lookup : List Byte → List Row}
    {query : DNSQuery} {responseData packetLen : Nat} {info : ResponseInfo} {s : Session}
    {m : String} {rest : List (Option String)} (hn : query.qname.length ≤ 254)
    (hd : s.driver = some m :: rest) :
    resolveA cfg locals lookup query responseData info packetLen s =
      (.error (.exception m), { s with driver := rest }) := by
  have hlen : ¬ query.qname.length + 1 > maxDnsNameLength := by
    unfold maxDnsNameLength
    omega
  have hcall : driverCall s = (.error (.exception m), { s with driver := rest }) := by
    simp only [driverCall, Act.bind_apply, Act.get_apply, hd, Act.set_apply, Act.stop_apply]
  rw [resolveA_eq, if_neg hlen]
  exact Act.bind_of_error hcall

/-- The two ways in which `resolveA` returns. -/
theorem resolveA_inv {cfg : Config} {locals : Locals} {lookup : List Byte → List Row}
    {query : DNSQuery} {off packetLen n : Nat} {info info' : ResponseInfo} {s s' : Session}
    (h : resolveA cfg locals lookup query off info packetLen s = (.ok (n, info'), s')) :
    ∃ l t, resolveRows cfg (lookup query.qname) (.start locals off info)
        { s with driver := s.driver.tail } = (.ok l, t) ∧
      ((l.truncated = true ∨ ¬ (l.numARecords = 0 ∧ rd t.packet.bytes = true)) ∧
          n = l.ptr - off ∧ info' = l.info ∧ commit t = (.ok (), s') ∨
        l.truncated = false ∧ l.numARecords = 0 ∧ rd t.packet.bytes = true ∧
          info' = { l.info with recursionOccurred := true } ∧
          ∃ u, commit t = (.ok (), u) ∧ recursiveResolve cfg packetLen u = (.ok n, s')) := by
  rw [resolveA_eq] at h
  split at h
  · cases h
  · simp only [Act.bind_ok] at h
    obtain ⟨_, t0, hd, l, t, hr, h⟩ := h
    rw [driverCall_ok hd] at hr
    refine ⟨l, t, hr, ?_⟩
    cases hl : l.truncated with
    | true =>
      simp only [hl, if_true, Act.bind_ok, Act.pure_apply, Prod.mk.injEq, Except.ok.injEq] at h
      obtain ⟨_, u, hc, ⟨rfl, rfl⟩, rfl⟩ := h
      exact .inl ⟨.inl rfl, rfl, rfl, hc⟩
    | false =>
      simp only [hl, Bool.false_eq_true, if_false] at h
      rw [Act.bind_of_ok (Act.get_apply t)] at h
      by_cases hz : l.numARecords = 0 ∧ rd t.packet.bytes = true
      · simp only [if_pos hz, Act.bind_ok, Act.pure_apply, Prod.mk.injEq, Except.ok.injEq] at h
        obtain ⟨_, u, hc, m, _, hrec, ⟨rfl, rfl⟩, rfl⟩ := h
        exact .inr ⟨rfl, hz.1, hz.2, rfl, u, hc, hrec⟩
      · simp only [if_neg hz, Act.bind_ok, Act.pure_apply, Prod.mk.injEq, Except.ok.injEq] at h
        obtain ⟨_, u, hc, ⟨rfl, rfl⟩, rfl⟩ := h
        exact .inl ⟨.inr hz, rfl, rfl, hc⟩

theorem resolveA_ok {cfg : Config} {locals : Locals} {lookup : List Byte → List Row}
    {query : DNSQuery} {as : List Answer} {off packetLen n : Nat} {info info' : ResponseInfo}
    {s s' : Session}
    (h : resolveA cfg locals lookup query off info packetLen s = (.ok (n, info'), s'))
    (ht : info'.truncationOccurred = false ∨
      (answerBytes s.pointerLocations off as).length < 500)
    (hrows : lookup query.qname = as.map Answer.row)
    (hoff : 12 ≤ off) (hle : off ≤ 1024) (hloc : Local as s.packet.bytes) :
    Answered as off info s n info' s' := by
  obtain ⟨l, t, hr, h⟩ := resolveA_inv h
  rw [hrows] at hr
  have hl : l.truncated = false := by
    rcases ht with ht | hfit
    · by_contra hx
      have hf := resolveRows_truncated hr rfl (by simpa using hx)
      rcases h with ⟨_, _, rfl, _⟩ | ⟨h0, _⟩
      · rw [hf] at ht
        cases ht
      · exact hx h0
    · exact resolveRows_whole hr (by simp only [RowLoop.start]; omega)
  obtain ⟨fits, inside, ptr, addresses, info1, packet, frame⟩ :=
    resolveRows_ok hr hl (by simp [RowLoop.start]) hle
  simp only [RowLoop.start] at fits inside ptr addresses info1 packet frame
  have hrd : rd t.packet.bytes = rd s.packet.bytes := by
    rw [packet, rd, rd, byteAt_overwrite (by rw [s.packet.size]; exact inside) (by omega)]
  rcases h with ⟨_, rfl, rfl, hc⟩ | ⟨_, hz, hr1, _⟩
  · have hcm := commit_ok hc
    refine ⟨by omega, inside, by omega, info1, ?_, ?_⟩
    · rw [hcm, packet]
    · rw [hcm, frame]
  · rcases hloc with hpos | hrd0
    · omega
    · rw [hrd, hrd0] at hr1
      cases hr1

/-- `resolveA` returns when the records fit and the driver reports no error. -/
theorem resolveA_of_fits (cfg : Config) (locals : Locals) (lookup : List Byte → List Row)
    (n : DomainName) (qtype qclass : UInt16) (length : Nat) (as : List Answer) (off : Nat)
    (info : ResponseInfo) (packetLen : Nat) (s : Session)
    (hrows : lookup n.text = as.map Answer.row) (hdrv : s.driver = []) (hoff : 12 ≤ off)
    (hfit : (answerBytes s.pointerLocations off as).length < 500)
    (hin : off + (answerBytes s.pointerLocations off as).length ≤ 1024)
    (hloc : Local as s.packet.bytes) :
    ∃ k info' s', resolveA cfg locals lookup ⟨n.text, qtype, qclass, length⟩ off info packetLen s =
      (.ok (k, info'), s') ∧ info'.truncationOccurred = info.truncationOccurred ∧
      s'.driver = [] := by
  obtain ⟨l, t, hr, ht, hd⟩ := resolveRows_of_fits cfg as (.start locals off info) s hdrv
    (by simp only [RowLoop.start]; omega) (by simp [RowLoop.start]) hin
  have hl : l.truncated = false := ht
  obtain ⟨_, _, _, addresses, info1, packet, _⟩ :=
    resolveRows_ok hr hl (by simp [RowLoop.start]) (by simp only [RowLoop.start]; omega)
  simp only [RowLoop.start] at addresses info1 packet
  have hrd : rd t.packet.bytes = rd s.packet.bytes := by
    rw [packet, rd, rd, byteAt_overwrite (by rw [s.packet.size]; exact hin) (by omega)]
  have hz : ¬ (l.numARecords = 0 ∧ rd t.packet.bytes = true) := by
    rintro ⟨hz, hr1⟩
    rcases hloc with hpos | hrd0
    · omega
    · rw [hrd, hrd0] at hr1
      cases hr1
  have hn : ¬ n.text.length + 1 > maxDnsNameLength := by
    have := n.short
    unfold maxDnsNameLength DomainName.text
    omega
  refine ⟨l.ptr - off, l.info, { t with connection := t.connection.commit }, ?_, by rw [info1], hd⟩
  rw [resolveA_eq]
  simp only [hn, if_false, hrows]
  rw [Act.bind_of_ok (driverCall_of_nil hdrv)]
  refine (Act.bind_of_ok hr).trans ?_
  simp only [hl, Bool.false_eq_true, if_false]
  rw [Act.bind_of_ok (Act.get_apply t), if_neg hz, Act.bind_of_ok (commit_of_nil hd)]
  rfl

end OdbcDns
