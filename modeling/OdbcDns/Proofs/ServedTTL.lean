import OdbcDns.Proofs.CnameWalk
import OdbcDns.Proofs.CachedRows
import OdbcDns.Proofs.Relay
import Mathlib.Data.Rat.Floor

namespace OdbcDns
open Slice Rfc1035 RecordQuery

/-- A call of `resolveA`, apart from the connection that it is made on. -/
structure ResolveCall where
  cfg : Config
  now : Rat
  locals : Locals
  lookup : List Byte → List Row
  query : DNSQuery
  responseData : Nat
  info : ResponseInfo
  packetLen : Nat
  session : Session

def ResolveCall.result (call : ResolveCall) (c : Connection) :
    Except Stop (Nat × ResponseInfo) × Session :=
  resolveA call.cfg call.locals call.lookup call.query call.responseData call.info call.packetLen
    { call.session with connection := c }

/-- `Run past now c`: calls of `cacheResponse` and `resolveA` on a connection to
an empty table, at times that never go back, have led to `c`. The calls of
`cacheResponse` among them are `past`. Such a call may take time: each of its inserts has
its own one. -/
inductive Run : List CacheCall → Rat → Connection → Prop
  | start (now : Rat) : Run [] now ⟨[], [], []⟩
  | cache {past : List CacheCall} {now : Rat} {c : Connection} (run : Run past now c)
      (call : CacheCall) {after : Rat}
      (later : ∀ i, now ≤ (call.executions i).insertNow ∧ (call.executions i).insertNow ≤ after) :
      Run (past ++ [call]) after (call.perform c)
  | resolve {past : List CacheCall} {now : Rat} {c : Connection} (run : Run past now c)
      (call : ResolveCall) (later : now ≤ call.now) : Run past call.now (call.result c).2.connection

/-- The table is as it was. -/
def SameRecord (s t : Session) : Prop := t.connection.record = s.connection.record

theorem receiveReply_connection (id : List Byte) (packetLen : Nat) (s : Session) :
    (receiveReply id packetLen s).2.connection = s.connection := by
  cases h : s.socket.inbox with
  | nil => rw [receiveReply_nil h]
  | cons d rest =>
    rw [receiveReply_cons h]
    split
    · rfl
    · split <;> rfl

theorem recursiveResolve_connection (cfg : Config) (packetLen : Nat) (s : Session) :
    (recursiveResolve cfg packetLen s).2.connection = s.connection := by
  cases hs : cfg.noServer with
  | true => rw [recursiveResolve_of_noServer hs]
  | false =>
    by_cases hf : s.exchange.Works ∧ packetLen % 4294967296 ≤ 1024
    · rw [recursiveResolve_of_works hs hf.1 hf.2, receiveReply_connection]
      rfl
    · obtain ⟨_, _, he, _, _, rfl | rfl⟩ := recursiveResolve_of_fails hs hf
      · rw [he]
      · rw [he]
        rfl

theorem respects_sameRecord (cfg : Config) : Respects cfg SameRecord where
  refl _ := rfl
  trans _ _ _ h g := g.trans h
  driverCall s := by rw [SameRecord, driverCall_snd]
  commit := by
    refine .bind (fun _ _ _ h g => g.trans h) (fun s => ?_) fun _ _ => rfl
    rw [SameRecord, driverCall_snd]
  encodeRow := encodeRow_always (R := SameRecord) (fun _ => rfl) (fun _ _ _ => rfl) cfg

theorem ResolveCall.record (call : ResolveCall) (c : Connection) :
    (call.result c).2.connection.record = c.record := by
  have recursive : Act.Always SameRecord (recursiveResolve call.cfg call.packetLen) :=
    fun s => congrArg _ (recursiveResolve_connection call.cfg call.packetLen s)
  exact (respects_sameRecord call.cfg).resolveA recursive call.locals call.lookup call.query
    call.responseData call.info { call.session with connection := c }

section Rows

variable {past : List CacheCall} {now : Rat} {c : Connection}

theorem Run.past_le (h : Run past now c) :
    ∀ call ∈ past, ∀ i, (call.executions i).insertNow ≤ now := by
  induction h with
  | start now => exact List.forall_mem_nil _
  | cache _ call later ih =>
    intro call' hc i
    rcases List.mem_append.mp hc with hc | hc
    · exact le_trans (ih call' hc i) (le_trans (later i).1 (later i).2)
    · rw [List.mem_singleton.mp hc]
      exact (later i).2
  | resolve _ call later ih => exact fun call' hc i => le_trans (ih call' hc i) later

/-- Every row was stored by one of the calls. -/
theorem Run.stored (h : Run past now c) : ∀ r ∈ c.record, ∃ call ∈ past, call.Stores r := by
  induction h with
  | start now => exact List.forall_mem_nil _
  | @cache past now c _ call _ _ ih =>
    intro r hr
    rcases call.perform_adds c r hr with hr | hs
    · obtain ⟨call', hc, hs⟩ := ih r hr
      exact ⟨call', List.mem_append_left _ hc, hs⟩
    · exact ⟨call, List.mem_append_right _ (List.mem_singleton_self _), hs⟩
  | @resolve past now c _ call _ ih =>
    rw [call.record c]
    exact ih

end Rows

/-- The seconds between a caching and a lookup are taken off the TTL. -/
theorem timestampDiff_add (t t0 : Rat) (ttl : Int) :
    timestampDiff t (t0 + ttl) = ttl - (t.floor - t0.floor) := by
  have h : (t0 + ttl).floor = t0.floor + ttl := Int.floor_add_intCast t0 ttl
  unfold timestampDiff
  rw [h]
  omega

theorem signedTTL_neg {ttl : UInt32} (h : 2147483648 ≤ ttl.toNat) : signedTTL ttl < 0 := by
  have := ttl.toNat_lt
  unfold signedTTL
  split <;> omega

/-- A row stored with a TTL of 2^31 or more has expired when it is stored. -/
theorem expires_lt {now : Rat} {rr : DNSResourceRecord} {rdata : DNSRData}
    (h : 2147483648 ≤ rr.info.ttl.toNat) : (storedRow now rr rdata).expires < now := by
  have hneg : ((signedTTL rr.info.ttl : Int) : Rat) < 0 := by exact_mod_cast signedTTL_neg h
  show now + (signedTTL rr.info.ttl : Rat) < now
  linarith

theorem toNat_ofInt {x : Int} (h : 0 ≤ x) (h' : x < 4294967296) :
    ((UInt32.ofInt x).toNat : Int) = x := by
  rw [UInt32.ofInt, UInt32.toNat_ofNat']
  omega

/-- The record was received with the TTL in an earlier call of `cacheResponse`, `age` seconds
before `now`. -/
structure Received (past : List CacheCall) (now : Rat) (rr : DNSResourceRecord) (age : Int) :
    Prop where
  cached : ∃ call ∈ past, ∃ t₀, call.Receives t₀ rr ∧ t₀ ≤ now ∧ age = now.floor - t₀.floor
  small : rr.info.ttl.toNat < 2147483648

/-- A row of the result, and the data of a record that was received with its name, value,
type and class. Its TTL is the one of the record, less the seconds since then. -/
structure AgedFrom (past : List CacheCall) (now : Rat) (row : Row) (rdata : DNSRData) : Prop where
  received : ∃ rr age, Received past now rr age ∧ rr.rdata = some rdata ∧ rr.name = row.name ∧
    rr.info.type = row.type ∧ rr.info.rclass = row.rclass ∧
    (row.ttl.toNat : Int) = rr.info.ttl.toNat - age
  value : rdata.getValue = row.value

/-- A row that is a C string throughout, and from which the constructor makes the data. -/
structure Makes (row : Row) (rdata : DNSRData) : Prop where
  name : (0 : Byte) ∉ row.name
  value : (0 : Byte) ∉ row.value
  object : ∀ rest, makeRData row.type (row.value ++ 0 :: rest) = .ok rdata

theorem selected_aged {past : List CacheCall} {now : Rat} {r : Stored}
    (stored : ∃ call ∈ past, call.Stores r)
    (times : ∀ call ∈ past, ∀ i, (call.executions i).insertNow ≤ now) (live : now < r.expires) :
    ∃ rdata, AgedFrom past now (selected now r) rdata ∧ Makes (selected now r) rdata := by
  obtain ⟨call, hc, t₀, rr, received, rdata, hr, rfl⟩ := stored
  have hle : t₀ ≤ now := by
    obtain ⟨d, _, _, rfl⟩ := received
    exact times call hc d.number
  have hsmall : rr.info.ttl.toNat < 2147483648 := by
    by_contra hbig
    have past : (storedRow t₀ rr rdata).expires < t₀ := expires_lt (Nat.le_of_not_lt hbig)
    exact absurd (lt_trans live past) (not_lt.mpr hle)
  have hs : signedTTL rr.info.ttl = rr.info.ttl.toNat := if_pos hsmall
  have hdiff : timestampDiff now (storedRow t₀ rr rdata).expires =
      rr.info.ttl.toNat - (now.floor - t₀.floor) := by
    rw [← hs]
    exact timestampDiff_add now t₀ _
  have hlow : 0 ≤ timestampDiff now (storedRow t₀ rr rdata).expires := by
    have : now.floor ≤ (storedRow t₀ rr rdata).expires.floor := Int.floor_mono (le_of_lt live)
    unfold timestampDiff
    omega
  have hhigh : t₀.floor ≤ now.floor := Int.floor_mono hle
  have httl : ((selected now (storedRow t₀ rr rdata)).ttl.toNat : Int) =
      rr.info.ttl.toNat - (now.floor - t₀.floor) := by
    rw [← hdiff]
    exact toNat_ofInt hlow (by omega)
  obtain ⟨uninit, buffer, after, hd⟩ := received.decode
  have remade := remade_of_decoded hd hr
  refine ⟨rdata, ⟨⟨rr, _, ⟨⟨call, hc, t₀, received, hle, rfl⟩, hsmall⟩, hr, rfl, rfl, rfl, httl⟩,
    rfl⟩, ?_⟩
  exact ⟨DNSResourceRecord.zero_not_mem_name hd, remade.zero, remade.object⟩

/-- The table of pointers when the record of a row has been written up to `next`: the name
that an alias stands for can be pointed to from then on. -/
def tableAfter (table : PointerLocations) (row : Row) (next : Nat) : PointerLocations :=
  if row.type = typeCname ∧ table row.value = none then
    table.insert row.value (UInt16.ofNat (next - row.value.length - 2))
  else table

/-- The records of the rows stand one behind the other from `off` up to `next`, each with
the name, type, class and TTL of its row and with the data next to it. -/
inductive Wrote (msg : List Byte) :
    PointerLocations → Nat → List (Row × DNSRData) → Nat → Prop
  | nil {table : PointerLocations} {off : Nat} : Wrote msg table off [] off
  | cons {table : PointerLocations} {off next bufLen : Nat} {row : Row} {rdata : DNSRData}
      {rest : List (Row × DNSRData)} {owner data : List Byte}
      (name : DNSResourceRecord.encodeOwner row.name bufLen table = .ok owner)
      (value : rdata.encode ((bufLen : Int) - owner.length - 10) = .ok data)
      (head : At msg off (owner ++
        fixedPart row.type row.rclass row.ttl (UInt16.ofNat data.length) ++ data))
      (tail : Wrote msg (tableAfter table row (off + (owner.length + 10 + data.length)))
        (off + (owner.length + 10 + data.length)) rest next) :
      Wrote msg table off ((row, rdata) :: rest) next

theorem Wrote.le {msg : List Byte} {table : PointerLocations} {off next : Nat}
    {rows : List (Row × DNSRData)} (h : Wrote msg table off rows next) : off ≤ next := by
  induction h with
  | nil => exact Nat.le_refl _
  | cons _ _ _ _ ih => omega

/-- The loop of `resolveA` writes the rows up to the one that does not fit. -/
theorem resolveRows_wrote {cfg : Config} {P : Row → DNSRData → Prop} {rows : List Row}
    (makes : ∀ row ∈ rows, ∃ rdata, P row rdata ∧ Makes row rdata) {l l' : RowLoop}
    {s s' : Session} (h : resolveRows cfg rows l s = (.ok l', s')) :
    s'.packet.bytes.take l.ptr = s.packet.bytes.take l.ptr ∧
      ∃ served, served.map Prod.fst <+: rows ∧ (∀ p ∈ served, P p.1 p.2) ∧
        Wrote s'.packet.bytes s.pointerLocations l.ptr served l'.ptr := by
  induction rows generalizing l s with
  | nil =>
    obtain ⟨rfl, rfl⟩ := resolveRows_nil_ok h
    exact ⟨rfl, [], List.prefix_rfl, List.forall_mem_nil _, .nil⟩
  | cons row rows ih =>
    obtain ⟨⟨rdata, holds, row_makes⟩, makes⟩ := List.forall_mem_cons.mp makes
    obtain ⟨l₁, n, t, he, hend⟩ := resolveRows_cons_ok h
    obtain ⟨valueBuf, nameBuf, made, rr, packet, hvalue, hname, hmade, henc, rfl, rfl⟩ :=
      encodeRow_inv he
    have hbefore := encode_take henc (Nat.le_refl _)
    rcases hend with ⟨_, rfl, rfl⟩ | ⟨_, hrest⟩
    · exact ⟨hbefore, [], List.nil_prefix, List.forall_mem_nil _, .nil⟩
    · obtain ⟨htake, served, hpre, hserved, hw⟩ := ih makes hrest
      obtain ⟨owner, _, data, ho, hr, hdata, hn, hle, hbytes⟩ := encode_ok henc
      have hnamed : cstr nameBuf = row.name := by
        obtain ⟨rest, rfl⟩ := getString_append hname
        exact cstr_of_not_mem row_makes.name rest
      obtain ⟨rest, rfl⟩ := getString_append hvalue
      have hvalued := cstr_of_not_mem row_makes.value rest
      cases (row_makes.object rest).symm.trans hmade
      cases hr
      have hlen : (owner ++ fixedPart row.type row.rclass row.ttl (UInt16.ofNat data.length) ++
          data).length = n := by
        rw [List.length_append, List.length_append, length_fixedPart, hn]
      have hat : At packet.bytes l.ptr (owner ++
          fixedPart row.type row.rclass row.ttl (UInt16.ofNat data.length) ++ data) := by
        rw [hbytes]
        exact at_overwrite (by rw [s.packet.size, packetAllocation]; exact hlen ▸ hle)
      simp only [hvalued] at htake hw
      refine ⟨?_, (row, rdata) :: served, List.cons_prefix_cons.mpr ⟨rfl, hpre⟩,
        List.forall_mem_cons.mpr ⟨holds, hserved⟩, ?_⟩
      · have := congrArg (List.take l.ptr) htake
        rw [List.take_take, List.take_take, Nat.min_eq_left (Nat.le_add_right _ _)] at this
        exact this.trans hbefore
      · rw [hnamed] at ho
        rw [hn] at hw htake
        exact .cons ho hdata (hat.of_take_eq htake (by omega)) hw

/-- What `resolveA` writes from the cache are the first rows of the result, each with the
name, the value and the TTL with which they were received, less the seconds since then; that
is what it serves, unless it passes the question on. A row received with a TTL of 2^31 or
more is never found. -/
theorem served_ttl_aged {past : List CacheCall} {before : Rat} {c : Connection}
    (run : Run past before c) {call : ResolveCall} (later : before ≤ call.now)
    (found : Returns c.record call.now call.query.qname (call.lookup call.query.qname))
    {n : Nat} {info : ResponseInfo} {s : Session} (returned : call.result c = (.ok (n, info), s)) :
    (∃ served t next, served.map Prod.fst <+: call.lookup call.query.qname ∧
      Wrote t.packet.bytes call.session.pointerLocations call.responseData served next ∧
      (∀ p ∈ served, AgedFrom past call.now p.1 p.2) ∧
      (t.packet = s.packet ∧ next = call.responseData + n ∨
        recursiveResolve call.cfg call.packetLen t = (.ok n, s) ∧
          info.recursionOccurred = true)) ∧
    ∀ earlier ∈ past, ∀ t₀ rr, earlier.Receives t₀ rr → ∀ rdata, rr.rdata = some rdata →
      2147483648 ≤ rr.info.ttl.toNat → ∀ ids, Results c.record call.now call.query.qname ids →
        storedRow t₀ rr rdata ∉ ids.map c.record.get := by
  have times : ∀ earlier ∈ past, ∀ i, (earlier.executions i).insertNow ≤ call.now :=
    fun earlier he i => le_trans (run.past_le earlier he i) later
  have live : ∀ {ids}, Results c.record call.now call.query.qname ids → ∀ i ∈ ids,
      call.now < (c.record.get i).expires := by
    intro ids hy i hi
    exact Visits.live (hy.mem_iff.mp hi)
  constructor
  · obtain ⟨l, t, hrows, hend⟩ := resolveA_inv returned
    have aged : ∀ row ∈ call.lookup call.query.qname, ∃ rdata,
        AgedFrom past call.now row rdata ∧ Makes row rdata := by
      intro row hrow
      obtain ⟨ids, hy, hids⟩ := found
      obtain ⟨i, hi, rfl⟩ := List.mem_map.mp (hids.subset hrow)
      exact selected_aged (run.stored _ (c.record.get_mem i)) times (live hy i hi)
    obtain ⟨_, served, hpre, hserved, hw⟩ := resolveRows_wrote aged hrows
    have hle : call.responseData ≤ l.ptr := hw.le
    rcases hend with ⟨_, rfl, rfl, hcommit⟩ | ⟨_, _, _, rfl, u, hcommit, hrec⟩
    · refine ⟨served, t, l.ptr, hpre, hw, hserved, .inl ⟨?_, (Nat.add_sub_cancel' hle).symm⟩⟩
      rw [commit_ok hcommit]
    · refine ⟨served, u, l.ptr, hpre, ?_, hserved, .inr ⟨hrec, rfl⟩⟩
      rw [commit_ok hcommit]
      exact hw
  · intro earlier he t₀ rr received rdata _ hbig ids hy hmem
    obtain ⟨i, hi, hrow⟩ := List.mem_map.mp hmem
    obtain ⟨d, _, _, rfl⟩ := received
    have h1 := live hy i hi
    rw [hrow] at h1
    exact absurd (lt_trans h1 (expires_lt hbig)) (not_lt.mpr (times earlier he d.number))

/-- Two and a half seconds after the caching. -/
def lookedUp : ResolveCall :=
  { cfg := ⟨0, false⟩
    now := 5 / 2
    locals := turnA.locals
    lookup := fun _ => [⟨58, [97], [49, 46, 50, 46, 51, 46, 52], typeA, 1⟩]
    query := ⟨[97], typeA, 1, 7⟩
    responseData := 19
    info := .new 0
    packetLen := 19
    session := (relayed turnA.buffer).session turnA.buffer [] [] }

def cachedOnce : CacheCall := .ofRelayed (received (upstreamReply 1 addressRecord))

theorem served_ttl_aged_once :
    ∃ served, ∃ t : Session, served.map Prod.fst <+: lookedUp.lookup [97] ∧
      Wrote t.packet.bytes lookedUp.session.pointerLocations 19 served (19 + 17) ∧
      ∀ p ∈ served, AgedFrom [cachedOnce] (5 / 2) p.1 p.2 := by
  have hrecord : (cachedOnce.perform ⟨[], [], []⟩).record =
      [⟨[97], [49, 46, 50, 46, 51, 46, 52], 60, typeA, 1⟩] := by decide +kernel
  have run : Run [cachedOnce] 0 (cachedOnce.perform ⟨[], [], []⟩) :=
    .cache (.start 0) cachedOnce fun _ => ⟨le_refl 0, le_refl 0⟩
  have found : Returns (cachedOnce.perform ⟨[], [], []⟩).record lookedUp.now lookedUp.query.qname
      (lookedUp.lookup lookedUp.query.qname) := by
    rw [hrecord]
    exact ⟨[⟨0, by decide⟩], ⟨1, by decide +kernel⟩, .of_eq (by decide +kernel)⟩
  have returned : (lookedUp.result (cachedOnce.perform ⟨[], [], []⟩)).1 =
      .ok (17, { ResponseInfo.new 0 with answers := 1 }) := by decide +kernel
  obtain ⟨⟨served, t, next, hpre, hw, aged, hend⟩, _⟩ :=
    served_ttl_aged run (by decide +kernel) found (Act.eq_of_fst returned)
  rcases hend with ⟨_, rfl⟩ | ⟨_, hflag⟩
  · exact ⟨served, t, hpre, hw, aged⟩
  · cases hflag

end OdbcDns
