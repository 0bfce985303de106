import OdbcDns.Proofs.Compression
import OdbcDns.Proofs.Statements

namespace OdbcDns
open Rfc1035 Slice

/-- Where the program starts to read the name at `off`: it follows a pointer that stands
right there before it calls `decodeName`. -/
def nameStart (msg : Message) (off : Nat) : Nat :=
  match msg.drop off with
  | b0 :: b1 :: _ => if 192 ≤ b0.toNat then pointerTarget b0 b1 else off
  | _ => off

theorem nameStart_low {msg : Message} {off : Nat} {b : Byte} {rest : List Byte}
    (h : msg.drop off = b :: rest) (low : b.toNat < 192) : nameStart msg off = off := by
  unfold nameStart
  rw [h]
  cases rest with
  | nil => rfl
  | cons b1 rest => exact if_neg (Nat.not_le.mpr low)

theorem nameStart_high {msg : Message} {off : Nat} {b0 b1 : Byte} (h : At msg off [b0, b1])
    (high : 192 ≤ b0.toNat) : nameStart msg off = pointerTarget b0 b1 := by
  unfold nameStart
  rw [h.drop_eq]
  exact if_pos high

/-- A name starts with a length byte or is a pointer. -/
theorem name_start {msg : Message} {off next : Nat} {ls : List Label}
    (h : NameAt msg off ls next) :
    (leadingPointer (msg.drop off) = .ok none ∧ nameStart msg off = off) ∨
      ∃ b0 b1 last, 192 ≤ b0.toNat ∧ At msg off [b0, b1] ∧ next = off + 2 ∧
        NameAt msg (pointerTarget b0 b1) ls last ∧
        leadingPointer (msg.drop off) = .ok (some (pointerOffset b0 b1)) ∧
        nameStart msg off = pointerTarget b0 b1 := by
  have plain : ∀ b rest, msg.drop off = b :: rest → b.toNat < 192 →
      leadingPointer (msg.drop off) = .ok none ∧ nameStart msg off = off := by
    intro b rest hd low
    rw [hd]
    exact ⟨leadingPointer_low low rest, nameStart_low hd low⟩
  cases h with
  | root h0 =>
    have head : At msg off [0] := at_cons.mpr ⟨h0, List.nil_prefix⟩
    exact .inl (plain 0 _ head.drop_eq (by decide))
  | @label _ _ l ls ok head tail =>
    refine .inl (plain _ _ head.drop_eq ?_)
    have := ok.2
    rw [ok.toNat_length]
    omega
  | @pointer _ last b0 b1 _ high head tail =>
    refine .inr ⟨b0, b1, last, high, head, rfl, tail, ?_, nameStart_high head high⟩
    rw [head.drop_eq]
    exact leadingPointer_high high b1 _

/-- What the name at `off` must be like for the program to read it. -/
structure NameReadable (msg : Message) (off : Nat) (ls : List Label) : Prop where
  nonempty : ls ≠ []
  short : (wire ls).length ≤ 256
  low : LowPointers msg off
  start : Entered (msg.drop (nameStart msg off))

theorem decodeName_iff {msg : Message} (hm : msg.length ≤ 16256) {off next : Nat}
    {ls : List Label} (h : NameAt msg off ls next) {t : List Byte} {n : Nat} :
    decodeName (msg.drop off) msg 256 = .ok (t, n) ↔
      (ls ≠ [] ∧ (wire ls).length ≤ 256 ∧ LowPointers msg off ∧ Entered (msg.drop off)) ∧
        t = cstr (text ls) ∧ n = (wire ls).length := by
  rw [decodeName_ok_iff]
  constructor
  · rintro ⟨start, ks, reads, hne, rfl, rfl, hle⟩
    have low := lowPointers_of_readAs reads hm
    obtain rfl := reads.unique (readAs_of_nameAt h low)
    exact ⟨⟨hne, hle, low, start⟩, rfl, rfl⟩
  · rintro ⟨⟨hne, hle, low, start⟩, rfl, rfl⟩
    exact ⟨start, ls, readAs_of_nameAt h low, hne, rfl, rfl, hle⟩

/-- A pointer at the start keeps to the rule exactly when its second byte is low and the
rest of the chain keeps to it. -/
theorem lowPointers_pointer {msg : Message} (hm : msg.length ≤ 16256) {off next : Nat}
    {ls : List Label} {b0 b1 : Byte} (high : 192 ≤ b0.toNat) (head : At msg off [b0, b1])
    (tail : NameAt msg (pointerTarget b0 b1) ls next) :
    LowPointers msg off ↔ b1.toNat < 128 ∧ LowPointers msg (pointerTarget b0 b1) := by
  constructor
  · intro low
    exact ⟨low off b0 b1 (.here off) head high,
      fun p c0 c1 hp => low p c0 c1 (.pointer high head hp)⟩
  · rintro ⟨hb, low⟩
    have jump := jump_of_at high head
    rw [pointerOffset_eq, if_pos hb] at jump
    exact lowPointers_of_readAs (.pointer jump (readAs_of_nameAt tail low)) hm

theorem NameReadable.start_eq {msg : Message} {off next : Nat} {ls : List Label}
    (r : NameReadable msg off ls) (h : NameAt msg off ls next) {p : Option Nat}
    (hp : leadingPointer (msg.drop off) = .ok p) : p.getD off = nameStart msg off := by
  rcases name_start h with ⟨hnone, hs⟩ | ⟨b0, b1, _, high, head, _, _, hsome, hs⟩
  · cases hnone.symm.trans hp
    exact hs.symm
  · cases hsome.symm.trans hp
    rw [hs, Option.getD_some, pointerOffset_eq, if_pos (r.low off b0 b1 (.here off) head high)]

/-- The program reads the name at `off` exactly when it is readable. -/
theorem decodeName_start_iff {msg : Message} (hm : msg.length ≤ 16256) {off next : Nat}
    {ls : List Label} (h : NameAt msg off ls next) {p : Option Nat}
    (hp : leadingPointer (msg.drop off) = .ok p) {t : List Byte} {n : Nat} :
    decodeName (msg.drop (p.getD off)) msg 256 = .ok (t, n) ↔
      NameReadable msg off ls ∧ t = cstr (text ls) ∧ n = (wire ls).length := by
  rcases name_start h with ⟨hnone, hs⟩ | ⟨b0, b1, last, high, head, _, tail, hsome, hs⟩
  · cases hnone.symm.trans hp
    rw [Option.getD_none, decodeName_iff hm h]
    refine and_congr_left fun _ => ⟨fun ⟨hne, hle, low, start⟩ => ?_, fun r => ?_⟩
    · exact ⟨hne, hle, low, hs.symm ▸ start⟩
    · exact ⟨r.nonempty, r.short, r.low, hs ▸ r.start⟩
  · cases hsome.symm.trans hp
    rw [Option.getD_some, pointerOffset_eq]
    have hlow := lowPointers_pointer hm high head tail
    by_cases hb : b1.toNat < 128
    · rw [if_pos hb, decodeName_iff hm tail]
      refine and_congr_left fun _ => ⟨fun ⟨hne, hle, low, start⟩ => ?_, fun r => ?_⟩
      · exact ⟨hne, hle, hlow.mpr ⟨hb, low⟩, hs.symm ▸ start⟩
      · exact ⟨r.nonempty, r.short, (hlow.mp r.low).2, hs ▸ r.start⟩
    · rw [if_neg hb, List.drop_eq_nil_of_le (by omega)]
      constructor
      · intro he
        cases he
      · rintro ⟨r, _⟩
        exact absurd (hlow.mp r.low).1 hb

theorem leadingPointer_of_nameAt {msg : Message} {off next : Nat} {ls : List Label}
    (h : NameAt msg off ls next) : ∃ p, leadingPointer (msg.drop off) = .ok p := by
  rcases name_start h with ⟨hp, _⟩ | ⟨_, _, _, _, _, _, _, hp, _⟩
  · exact ⟨_, hp⟩
  · exact ⟨_, hp⟩

/-- The alias of a record is read exactly when its name is readable. -/
theorem decodeCname_iff {msg : Message} (hm : msg.length ≤ 16256) {off next : Nat}
    {ls : List Label} (h : NameAt msg off ls next) :
    (∃ d, DNSRDataCNAME.decode (msg.drop off) msg = .ok d) ↔ NameReadable msg off ls := by
  obtain ⟨p, hp⟩ := leadingPointer_of_nameAt h
  rw [DNSRDataCNAME.decode_of_pointer hp]
  constructor
  · rintro ⟨d, hd⟩
    obtain ⟨⟨t, n⟩, hn, _⟩ := Except.bind_ok.mp hd
    exact ((decodeName_start_iff hm h hp).mp hn).1
  · intro r
    have hn := (decodeName_start_iff hm h hp).mpr ⟨r, rfl, rfl⟩
    have hle : (cstr (text ls)).length ≤ 254 := by
      have hlen := length_wire r.nonempty
      have hle := r.short
      have := length_cstr_le (text ls)
      omega
    exact ⟨_, Except.bind_ok.mpr ⟨_, hn, ofText_of_le hle⟩⟩

/-- Only the data of an alias can be unreadable. -/
theorem decodeRData_iff {msg : Message} (hm : msg.length ≤ 16256) {off n : Nat} {type : UInt16}
    {d : RData} (h : RDataAt msg off type n d) (uninit : Nat → Byte) :
    (∃ x, DNSResourceRecord.decodeRData uninit type (msg.drop off) msg n = .ok x) ↔
      ∀ ls, d = .name ls → NameReadable msg off ls := by
  unfold DNSResourceRecord.decodeRData
  cases h with
  | @address octets len h =>
    obtain ⟨q, rfl⟩ := quad_of_length len
    have hd := q.decode uninit (msg.drop (off + q.octets.length))
    rw [← h.drop_eq] at hd
    have htype : (1 : UInt16) = typeA := rfl
    simp [htype, hd, Except.map]
  | @name labels n h =>
    have htype : (5 : UInt16) = typeCname := rfl
    have hne : typeCname ≠ typeA := by decide
    simp only [htype, hne, if_false, if_true, RData.name.injEq, forall_eq']
    rw [← decodeCname_iff hm h]
    cases DNSRDataCNAME.decode (msg.drop off) msg with
    | error e => simp [Except.map]
    | ok d => simp [Except.map]
  | other ha hc len h =>
    have ha : type ≠ typeA := ha
    have hc : type ≠ typeCname := hc
    simp [ha, hc]

theorem labelOk_of_nameAt {msg : Message} {off next : Nat} {ls : List Label}
    (h : NameAt msg off ls next) : ∀ l ∈ ls, LabelOk l := by
  induction h with
  | root => simp
  | label ok _ _ ih => exact List.forall_mem_cons.mpr ⟨ok, ih⟩
  | pointer _ _ _ ih => exact ih

/-- The wire form of a name never takes two bytes, as a pointer does. -/
theorem length_wire_ne_two {ls : List Label} (hok : ∀ l ∈ ls, LabelOk l) :
    (wire ls).length ≠ 2 := by
  cases ls with
  | nil => simp [wire]
  | cons l ls =>
    have := (hok l List.mem_cons_self).1
    have := length_wire_pos ls
    simp only [wire, List.length_cons, List.length_append]
    omega

/-- A name takes as many bytes as its wire form exactly when it is spelled out. -/
theorem spelled_iff {msg : Message} {off next : Nat} {ls : List Label}
    (h : NameAt msg off ls next) : next = off + (wire ls).length ↔ At msg off (wire ls) := by
  constructor
  · intro he
    induction h with
    | root h0 => exact at_cons.mpr ⟨h0, List.nil_prefix⟩
    | @label off next l ls ok head tail ih =>
      have hlen : next = off + 1 + l.length + (wire ls).length := by
        simp only [wire, List.length_cons, List.length_append] at he
        omega
      have hw : wire (l :: ls) = (UInt8.ofNat l.length :: l) ++ wire ls := by simp [wire]
      rw [hw, at_append, List.length_cons, Nat.add_comm l.length, ← Nat.add_assoc]
      exact ⟨head, ih hlen⟩
    | pointer _ _ tail _ =>
      exact absurd (by omega) (length_wire_ne_two (labelOk_of_nameAt tail))
  · intro hw
    exact (h.unique (nameAt_of_wire (labelOk_of_nameAt h) hw)).2

/-- A record with the places of its parts: it starts at `off`, and its owner name ends
before `mid`. -/
structure Layout where
  off : Nat
  mid : Nat
  record : ResourceRecord
  rdlength : UInt16

namespace Layout

def next (x : Layout) : Nat := x.mid + 10 + x.rdlength.toNat

def info (x : Layout) : FixedRRInfo :=
  ⟨x.record.type, x.record.rclass, x.record.ttl, x.rdlength⟩

/-- The record stands in the message as RFC 1035 says. -/
structure In (msg : Message) (x : Layout) : Prop where
  name : NameAt msg x.off x.record.name x.mid
  fixed : At msg x.mid (fixedPart x.record.type x.record.rclass x.record.ttl x.rdlength)
  rdata : RDataAt msg (x.mid + 10) x.record.type x.rdlength.toNat x.record.rdata

/-- The records that `decode` gets right: the owner name is readable, spelled out or a
pointer from its first byte on, and not behind byte 512; so is the name of an alias,
wherever it is. -/
structure Readable (msg : Message) (x : Layout) : Prop where
  owner : NameReadable msg x.off x.record.name
  near : nameStart msg x.off ≤ 512
  whole : At msg x.off (wire x.record.name) ∨
    ∃ b0 b1 : Byte, 192 ≤ b0.toNat ∧ At msg x.off [b0, b1]
  data : ∀ ls, x.record.rdata = .name ls → NameReadable msg (x.mid + 10) ls

/-- `decode` ends where the record ends and takes the fixed part from behind the name. -/
def Ends (msg : Message) (uninit : Nat → Byte) (x : Layout) : Prop :=
  ∃ rr, DNSResourceRecord.decode uninit msg x.off = .ok (rr, x.next) ∧ rr.info = x.info

end Layout

theorem Layout.In.ends_iff {msg : Message} (hm : msg.length ≤ 16256) {x : Layout} (h : x.In msg)
    (uninit : Nat → Byte) : x.Ends msg uninit ↔ x.Readable msg := by
  obtain ⟨p, hp⟩ := leadingPointer_of_nameAt h.name
  have hload := load_fixedPart x.info (msg.drop (x.mid + 10))
  have hfix := h.fixed.drop_eq
  rw [length_fixedPart] at hfix
  have hload : FixedRRInfo.load (msg.drop x.mid) = .ok x.info.swap := by
    rw [hfix]
    exact hload
  unfold Layout.Ends
  simp only [decode_ok_iff hp]
  constructor
  · rintro ⟨rr, ⟨near, n, mid, hn, hmid, _, hd, hnext⟩, hinfo⟩
    rw [hinfo] at hd hnext
    have he : x.mid + 10 + x.rdlength.toNat = mid + 10 + x.rdlength.toNat := hnext
    obtain rfl : x.mid = mid := by omega
    obtain ⟨owner, _, rfl⟩ := (decodeName_start_iff hm h.name hp).mp hn
    refine ⟨owner, owner.start_eq h.name hp ▸ near, ?_, ?_⟩
    · rcases name_start h.name with ⟨hnone, _⟩ | ⟨b0, b1, _, high, head, _⟩
      · cases hnone.symm.trans hp
        exact .inl ((spelled_iff h.name).mp hmid.symm)
      · exact .inr ⟨b0, b1, high, head⟩
    · exact (decodeRData_iff hm h.rdata uninit).mp ⟨_, hd⟩
  · intro r
    obtain ⟨rdata, hd⟩ := (decodeRData_iff hm h.rdata uninit).mpr r.data
    have hn := (decodeName_start_iff hm h.name hp).mpr ⟨r.owner, rfl, rfl⟩
    refine ⟨⟨_, x.info, rdata⟩, ⟨?_, _, x.mid, hn, ?_, hload, hd, rfl⟩, rfl⟩
    · rw [r.owner.start_eq h.name hp]
      exact r.near
    · rcases name_start h.name with ⟨hnone, _⟩ | ⟨b0, b1, _, _, _, hmid, _, hsome, _⟩
      · cases hnone.symm.trans hp
        refine ((spelled_iff h.name).mpr (r.whole.resolve_right ?_)).symm
        rintro ⟨b0, b1, high, head⟩
        rw [head.drop_eq] at hp
        cases (leadingPointer_high high b1 _).symm.trans hp
      · cases hsome.symm.trans hp
        exact hmid.symm

/-- The records of a section, one directly behind the other. -/
inductive LaidOut (msg : Message) : Nat → List Layout → Nat → Prop
  | nil {off : Nat} : LaidOut msg off [] off
  | cons {x : Layout} {xs : List Layout} {next : Nat} (head : x.In msg)
      (tail : LaidOut msg x.next xs next) : LaidOut msg x.off (x :: xs) next

theorem LaidOut.all_in {msg : Message} {off next : Nat} {xs : List Layout}
    (h : LaidOut msg off xs next) : ∀ x ∈ xs, x.In msg := by
  induction h with
  | nil => simp
  | cons head _ ih => exact List.forall_mem_cons.mpr ⟨head, ih⟩

/-- The sections of RFC 1035 are those that can be laid out. -/
theorem recordsAt_iff {msg : Message} {off next : Nat} {rs : List ResourceRecord} :
    RecordsAt msg off rs next ↔ ∃ xs, LaidOut msg off xs next ∧ xs.map Layout.record = rs := by
  constructor
  · intro h
    induction h with
    | nil => exact ⟨[], .nil, rfl⟩
    | @cons off _ _ r rs head _ ih =>
      obtain ⟨xs, layout, rfl⟩ := ih
      cases head with
      | @mk mid _ rdlength name fixed rdata =>
        have head : Layout.In msg ⟨off, mid, r, rdlength⟩ := ⟨name, fixed, rdata⟩
        exact ⟨_, .cons head layout, rfl⟩
  · rintro ⟨xs, layout, rfl⟩
    induction layout with
    | nil => exact .nil
    | cons head _ ih => exact .cons (.mk head.name head.fixed head.rdata) ih

/-- A call of `decode` that has returned. -/
structure Visit where
  number : Nat
  ptr : Nat
  record : DNSResourceRecord
  after : Nat

def DecodeCall.visit (c : DecodeCall) : Option Visit :=
  c.result.toOption.map fun r => ⟨c.number, c.buffer, r.1, r.2⟩

/-- The calls that the loop of `cacheResponse` makes, up to the first one that fails. -/
def visits (heap : Nat → Nat → Byte) (packet : List Byte) (n i ptr : Nat) : List Visit :=
  (decodeCalls heap packet n i ptr).filterMap DecodeCall.visit

theorem visits_succ (heap : Nat → Nat → Byte) (packet : List Byte) (n i ptr : Nat) :
    visits heap packet (n + 1) i ptr =
      match DNSResourceRecord.decode (heap i) packet ptr with
      | .error _ => []
      | .ok (rr, after) => ⟨i, ptr, rr, after⟩ :: visits heap packet n (i + 1) after := by
  unfold visits
  cases hd : DNSResourceRecord.decode (heap i) packet ptr with
  | error e =>
    rw [decodeCalls_of_error hd]
    rfl
  | ok r =>
    rw [decodeCalls_of_ok hd]
    rfl

/-- When none fails, the loop handles what they have returned, one after the other. -/
theorem cacheLoop_visits (cfg : Config) (executions : Nat → Execution)
    {heap : Nat → Nat → Byte} {n i ptr : Nat} {s : Session}
    (h : (visits heap s.packet.bytes n i ptr).length = n) :
    cacheLoop cfg executions heap n i ptr s = ((visits heap s.packet.bytes n i ptr).forM
      fun v => cacheRecord cfg (executions v.number) v.record) s := by
  induction n generalizing i ptr s with
  | zero => rfl
  | succ n ih =>
    rw [visits_succ] at h
    rw [cacheLoop_succ, visits_succ]
    cases hd : DNSResourceRecord.decode (heap i) s.packet.bytes ptr with
    | error e => simp [hd] at h
    | ok r =>
      obtain ⟨rr, after⟩ := r
      simp only [hd, List.length_cons, Nat.add_right_cancel_iff] at h
      have same : (cacheRecord cfg (executions i) rr s).2.packet = s.packet :=
        ((tracks_adds fun _ => True).cacheRecord cfg _ (fun _ _ => trivial) s).2
      dsimp only
      rw [List.forM_eq_forM, List.forM_cons, Act.bind_apply, Act.bind_apply]
      rcases hc : cacheRecord cfg (executions i) rr s with ⟨_ | _, u⟩
      · rfl
      · rw [hc] at same
        rw [← same] at h ⊢
        exact ih h

/-- What a visit has found, to be compared with the layout. -/
def Visit.found (v : Visit) : Nat × FixedRRInfo × Nat := (v.ptr, v.record.info, v.after)

def Layout.found (x : Layout) : Nat × FixedRRInfo × Nat := (x.off, x.info, x.next)

theorem LaidOut.visits_iff {msg : Message} (hm : msg.length ≤ 16256) {off next : Nat}
    {xs : List Layout} (h : LaidOut msg off xs next) (heap : Nat → Nat → Byte) (i : Nat) :
    (visits heap msg xs.length i off).map Visit.found = xs.map Layout.found ↔
      ∀ x ∈ xs, x.Readable msg := by
  induction h generalizing i with
  | nil => simp [visits, decodeCalls]
  | @cons x xs next head tail ih =>
    rw [List.forall_mem_cons, ← ih (i + 1), ← head.ends_iff hm (heap i), List.length_cons,
      visits_succ]
    unfold Layout.Ends
    cases DNSResourceRecord.decode (heap i) msg x.off with
    | error e => simp
    | ok r =>
      obtain ⟨rr, after⟩ := r
      simp only [List.map_cons, List.cons.injEq, Visit.found, Layout.found, Prod.mk.injEq, true_and]
      constructor
      · rintro ⟨⟨hinfo, rfl⟩, hrest⟩
        exact ⟨⟨rr, rfl, hinfo⟩, hrest⟩
      · rintro ⟨⟨rr', he, hinfo⟩, hrest⟩
        cases he
        exact ⟨⟨hinfo, rfl⟩, hrest⟩

/-- `decode` finds the end and the fixed part of a record exactly when the record is
readable, and the loop of `cacheResponse` goes through a section record by record exactly
when all its records are. -/
theorem record_ends_iff (p : Packet) {off next : Nat} {xs : List Layout}
    (answers : LaidOut p.bytes off xs next) :
    (∀ x ∈ xs, ∀ uninit, x.Ends p.bytes uninit ↔ x.Readable p.bytes) ∧
      ∀ heap, ((visits heap p.bytes xs.length 0 off).map Visit.found = xs.map Layout.found ↔
          ∀ x ∈ xs, x.Readable p.bytes) ∧
        ((∀ x ∈ xs, x.Readable p.bytes) → ∀ cfg executions (s : Session), s.packet = p →
          cacheLoop cfg executions heap xs.length 0 off s =
            ((visits heap p.bytes xs.length 0 off).forM
              fun v => cacheRecord cfg (executions v.number) v.record) s) := by
  have hm : p.bytes.length ≤ 16256 := by
    rw [p.size]
    decide
  refine ⟨fun x hx uninit => (answers.all_in x hx).ends_iff hm uninit, fun heap => ?_⟩
  have hiff := answers.visits_iff hm heap 0
  refine ⟨hiff, fun hr cfg executions s hs => ?_⟩
  subst hs
  apply cacheLoop_visits
  have := congrArg List.length (hiff.mpr hr)
  rwa [List.length_map, List.length_map] at this

/-- The name `a` at byte 12, an address of `b.a` with the owner written as a label and a
pointer, and an address of `a` with the owner written as a pointer. -/
def ownersPacket : Packet :=
  ⟨List.replicate 12 0 ++ wire [[97]] ++
    [1, 98, 0xC0, 12, 0, 1, 0, 1, 0, 0, 0, 60, 0, 4, 1, 2, 3, 4] ++
    [0xC0, 12, 0, 1, 0, 1, 0, 0, 0, 60, 0, 4, 1, 2, 3, 4] ++ List.replicate 975 0,
    by decide +kernel⟩

theorem ownersPacket_name : NameAt ownersPacket.bytes 12 [[97]] 15 :=
  nameAt_of_wire (by decide) (by decide +kernel)

def addressOf (name : List Label) : ResourceRecord := ⟨name, 1, 1, 60, .address [1, 2, 3, 4]⟩

theorem ownersPacket_pointer :
    Layout.In ownersPacket.bytes ⟨33, 35, addressOf [[97]], 4⟩ where
  name := @NameAt.pointer _ 33 15 0xC0 12 _ (by decide) (by decide +kernel) ownersPacket_name
  fixed := by decide +kernel
  rdata := .address rfl (by decide +kernel)

theorem ownersPacket_label :
    Layout.In ownersPacket.bytes ⟨15, 19, addressOf [[98], [97]], 4⟩ where
  name := .label (by decide) (by decide +kernel)
    (@NameAt.pointer _ 17 15 0xC0 12 _ (by decide) (by decide +kernel) ownersPacket_name)
  fixed := by decide +kernel
  rdata := .address rfl (by decide +kernel)

theorem ownersPacket_readable :
    Layout.Readable ownersPacket.bytes ⟨33, 35, addressOf [[97]], 4⟩ where
  owner := by
    have head : At ownersPacket.bytes 33 [0xC0, 12] := by decide +kernel
    have name : At ownersPacket.bytes 12 (wire [[97]]) := by decide +kernel
    have reads : ReadAs ownersPacket.bytes (ownersPacket.bytes.drop 12) [[97]] := by
      rw [name.drop_eq]
      exact readAs_wire (by decide) _ _
    exact ⟨by decide, by decide,
      lowPointers_of_readAs (.pointer (jump_of_at (by decide) head) reads) (by decide +kernel),
      ⟨2, by decide +kernel, by decide⟩⟩
  near := by decide +kernel
  whole := .inr ⟨0xC0, 12, by decide, by decide +kernel⟩
  data := by
    intro ls h
    cases h

theorem record_ends_iff_pointer :
    RecordsAt ownersPacket.bytes 33 [addressOf [[97]]] 49 ∧
      ∀ heap, (visits heap ownersPacket.bytes 1 0 33).map Visit.found =
        [(33, ⟨1, 1, 60, 4⟩, 49)] := by
  have answers : LaidOut ownersPacket.bytes 33 [⟨33, 35, addressOf [[97]], 4⟩] 49 :=
    .cons ownersPacket_pointer .nil
  refine ⟨recordsAt_iff.mpr ⟨_, answers, rfl⟩, fun heap => ?_⟩
  exact ((record_ends_iff ownersPacket answers).2 heap).1.mpr
    (List.forall_mem_singleton.mpr ownersPacket_readable)

/-- The end of the owner is taken one byte too far for the record of `b.a`, and so are the
type and the end of the record. -/
theorem ownersPacket_not_ends :
    RecordAt ownersPacket.bytes 15 (addressOf [[98], [97]]) 33 ∧
      DNSResourceRecord.decode (fun _ => 0) ownersPacket.bytes 15 =
        .ok (⟨[98, dot, 97], ⟨256, 256, 15360, 1025⟩, none⟩, 1055) := by
  have h := ownersPacket_label
  exact ⟨.mk h.name h.fixed h.rdata, by decide +kernel⟩

end OdbcDns
