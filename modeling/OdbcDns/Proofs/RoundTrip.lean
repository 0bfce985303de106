import OdbcDns.Proofs.AnswerSection

namespace OdbcDns
open Slice Rfc1035

/-- One call of `decode` for each answer, as `cacheResponse` makes them. -/
def decodeAnswers (heap : Nat → Nat → Byte) (packet : List Byte) :
    Nat → Nat → Nat → Except Stop (List DNSResourceRecord × Nat)
  | 0, _, ptr => .ok ([], ptr)
  | n + 1, i, ptr => do
    let (rr, after) ← DNSResourceRecord.decode (heap i) packet ptr
    let (rrs, last) ← decodeAnswers heap packet n (i + 1) after
    .ok (rr :: rrs, last)

/-- The record object that stands for a row, with the length of its data. -/
def Answer.decoded (a : Answer) : DNSResourceRecord :=
  ⟨a.owner.text, ⟨a.target.type, a.rclass, a.ttl, UInt16.ofNat a.target.bytes.length⟩,
    some a.target.object⟩

/-- The length of the data of a row, from its value. -/
def Target.size : Target → Nat
  | .address _ => 4
  | .cname n => n.text.length + 2

/-- Names that stand in the packet already, with their places. -/
abbrev Places := List Byte → Option Nat

namespace Places

def ownerSize (known : Places) (n : DomainName) : Nat :=
  if (known n.text).isSome then 2 else n.text.length + 2

/-- Whether `decode` can find the owner of a record at `ptr`: a place behind a
pointer needs a second byte below 128, and no place may be behind byte 512. -/
def ownerLegible (known : Places) (ptr : Nat) (n : DomainName) : Bool :=
  match known n.text with
  | none => ptr ≤ 512
  | some place => place ≤ 512 && place % 256 < 128

/-- The places after a record at `ptr`. -/
def next (known : Places) (ptr : Nat) (a : Answer) : Places :=
  match a.target with
  | .address _ => known
  | .cname n => fun m =>
    if m = n.text ∧ (known n.text).isNone then some (ptr + known.ownerSize a.owner + 10)
    else known m

/-- Whether `decode` can find the owners of all records from `ptr` on. It is a
matter of the names in the rows and of their lengths. -/
def legible (known : Places) (ptr : Nat) : List Answer → Bool
  | [] => true
  | a :: as => known.ownerLegible ptr a.owner &&
    legible (known.next ptr a) (ptr + known.ownerSize a.owner + 10 + a.target.size) as

/-- With one question its name is known, and stands behind the header. -/
def single (q : Question) : Places := fun m => if m = q.name.text then some 12 else none

end Places

theorem Target.length_bytes (x : Target) : x.bytes.length = x.size := by
  cases x with
  | address q => rfl
  | cname n => exact n.length_wire

theorem decode_target (x : Target) (uninit : Nat → Byte) (packet rest : List Byte) :
    DNSResourceRecord.decodeRData uninit x.type (x.bytes ++ rest) packet x.bytes.length =
      .ok (some x.object) := by
  unfold DNSResourceRecord.decodeRData
  cases x with
  | address q =>
    have hd : DNSRDataA.decode uninit (q.octets ++ rest) q.octets.length =
        .ok ⟨q.octets, q.text⟩ := q.decode uninit rest
    simp only [Target.type, if_true, Target.bytes, hd]
    rfl
  | cname n =>
    have hd : decodeName (n.wire ++ rest) packet (maxDnsNameLength + 1) =
        .ok (n.text, n.text.length + 2) := n.decodeName_wire packet rest
    have hname : DNSRDataCNAME.ofText n.text = .ok ⟨n.text⟩ := ofText_of_le n.short
    have hne : typeCname ≠ typeA := by decide
    simp only [Target.type, hne, if_false, if_true, Target.bytes, DNSRDataCNAME.decode,
      n.leadingPointer_wire, bind, Except.bind, hd, hname]
    rfl

/-- Once the owner is read, the rest of the record is read as it was written. -/
theorem decode_of_owner {msg : List Byte} {ptr mid k : Nat} {p : Option Nat} {a : Answer}
    (uninit : Nat → Byte) (hp : leadingPointer (msg.drop ptr) = .ok p) (hle : p.getD ptr ≤ 512)
    (hn : decodeName (msg.drop (p.getD ptr)) msg 256 = .ok (a.owner.text, k))
    (hm : (if p.isSome then ptr + 2 else p.getD ptr + k) = mid)
    (hf : At msg mid (fixedPart a.target.type a.rclass a.ttl (UInt16.ofNat a.target.bytes.length)))
    (hd : At msg (mid + 10) a.target.bytes) :
    DNSResourceRecord.decode uninit msg ptr =
      .ok (a.decoded, mid + 10 + a.target.bytes.length) := by
  have hload := load_fixedPart a.decoded.info (msg.drop (mid + 10))
  have hfix := hf.drop_eq
  rw [length_fixedPart] at hfix
  have hload : FixedRRInfo.load (msg.drop mid) = .ok a.decoded.info.swap := by
    rw [hfix]
    exact hload
  have hlen : a.decoded.info.rdlength.toNat = a.target.bytes.length := a.target.toNat_length
  have hdata := decode_target a.target uninit msg (msg.drop (mid + 10 + a.target.bytes.length))
  rw [← hd.drop_eq, ← hlen] at hdata
  refine (decode_ok_iff hp).mpr ⟨hle, k, mid, hn, hm, hload, hdata, ?_⟩
  rw [hlen]

/-- The table of the encoder as places. -/
def PointerLocations.places (t : PointerLocations) : Places := fun n => (t n).map UInt16.toNat

def outOfPacket : Stop := .exception "Tried to access out of packet bounds"

theorem decode_out_of_packet {msg : List Byte} {ptr : Nat} {p : Option Nat} (uninit : Nat → Byte)
    (hp : leadingPointer (msg.drop ptr) = .ok p) (hlt : 512 < p.getD ptr) :
    DNSResourceRecord.decode uninit msg ptr = .error outOfPacket := by
  have head : DNSResourceRecord.decodeHead msg ptr = .error outOfPacket := by
    unfold DNSResourceRecord.decodeHead
    simp only [hp, bind, Except.bind, maxDnsPacketLength]
    exact if_pos hlt
  unfold DNSResourceRecord.decode
  rw [head]
  rfl

/-- A pointer that `encode` has written, as `decode` reads it. -/
theorem leadingPointer_bytes (loc : UInt16) (h : loc.toNat < 16384) (rest : List Byte) :
    leadingPointer (be16 (loc ||| 0xC000) ++ rest) = .ok (some
      (if loc.toNat % 256 < 128 then loc.toNat else 63 * 256 + loc.toNat % 256)) := by
  have hhigh : 192 ≤ (UInt8.ofNat (192 + loc.toNat / 256)).toNat := by
    rw [toNat_ofNat_mod]
    omega
  have hb1 : (UInt8.ofNat (loc.toNat % 256)).toNat = loc.toNat % 256 := by
    rw [toNat_ofNat_mod]
    omega
  rw [pointerBytes h]
  simp only [List.cons_append, List.nil_append, leadingPointer_high hhigh, pointerOffset_eq,
    pointerTarget_bytes h, hb1]

/-- `decode` gives a written record back when it finds the owner name, and
throws when it looks for it behind byte 512. -/
theorem decode_record {msg : List Byte} {ptr : Nat} {t : PointerLocations} {a : Answer}
    (uninit : Nat → Byte) (h : At msg ptr (recordBytes t a)) (hs : Spelled msg ptr t)
    (hle : ptr ≤ 1024) :
    DNSResourceRecord.decode uninit msg ptr =
      if t.places.ownerLegible ptr a.owner then
        .ok (a.decoded, ptr + (recordBytes t a).length)
      else .error outOfPacket := by
  obtain ⟨ho, hf⟩ := at_append.mp (at_append.mp h).1
  have hd := at_target h
  have hl : ptr + (recordBytes t a).length =
      ptr + (ownerBytes t a.owner).length + 10 + a.target.bytes.length := by
    rw [length_recordBytes]
    omega
  unfold Places.ownerLegible PointerLocations.places
  cases ht : t a.owner.text with
  | none =>
    simp only [ownerBytes, ht] at ho hf hd hl
    have hp : leadingPointer (msg.drop ptr) = .ok none := by
      rw [ho.drop_eq]
      exact a.owner.leadingPointer_wire _
    by_cases hlt : 512 < ptr
    · simp [decode_out_of_packet uninit hp hlt, Nat.not_le.mpr hlt]
    · have hn : decodeName (msg.drop ptr) msg 256 =
          .ok (a.owner.text, a.owner.text.length + 2) := by
        rw [ho.drop_eq]
        exact a.owner.decodeName_wire msg _
      rw [decode_of_owner uninit hp (Nat.not_lt.mp hlt) hn
        (by simp [a.owner.length_wire]) hf hd, hl]
      simp [Nat.not_lt.mp hlt]
  | some loc =>
    simp only [ownerBytes, ht] at ho hf hd hl
    obtain ⟨hlim, hat⟩ := hs.owner ht
    have hp := leadingPointer_bytes loc (by omega) (msg.drop (ptr + 2))
    have hdrop := ho.drop_eq
    rw [length_be16] at hdrop
    rw [← hdrop] at hp
    by_cases hlow : loc.toNat % 256 < 128
    · rw [if_pos hlow] at hp
      by_cases hlt : 512 < loc.toNat
      · simp [decode_out_of_packet uninit hp hlt, Nat.not_le.mpr hlt]
      · have hn : decodeName (msg.drop loc.toNat) msg 256 =
            .ok (a.owner.text, a.owner.text.length + 2) := by
          rw [hat.drop_eq]
          exact a.owner.decodeName_wire msg _
        rw [decode_of_owner uninit hp (Nat.not_lt.mp hlt) hn (by simp) hf hd, hl]
        simp [Nat.not_lt.mp hlt, hlow]
    · rw [if_neg hlow] at hp
      have hlt : 512 < (some (63 * 256 + loc.toNat % 256)).getD ptr := by
        simp only [Option.getD_some]
        omega
      simp [decode_out_of_packet uninit hp hlt, hlow]

/-- A record that is encoded without pointers is decoded from its place. -/
theorem record_round_trip (a : Answer) (rdlength : UInt16) (p : Packet) (uninit : Nat → Byte)
    {off bufLen : Nat} (near : off ≤ 512)
    (room : a.owner.text.length + 2 + 10 + a.target.size ≤ bufLen)
    (inside : off + bufLen ≤ 1024) :
    ∃ rr p', DNSResourceRecord.encode ⟨a.owner.text,
          ⟨a.target.type, a.rclass, a.ttl, rdlength⟩, some a.target.object⟩ p off bufLen
          (fun _ => none) = .ok (rr, p', a.owner.text.length + 2 + 10 + a.target.size) ∧
      DNSResourceRecord.decode uninit p'.bytes off =
        .ok (⟨a.owner.text, ⟨a.target.type, a.rclass, a.ttl, UInt16.ofNat a.target.size⟩,
          some a.target.object⟩, off + (a.owner.text.length + 2 + 10 + a.target.size)) := by
  let t : PointerLocations := fun _ => none
  have hw : (ownerBytes t a.owner).length = a.owner.text.length + 2 := a.owner.length_wire
  have hlen : (recordBytes t a).length = a.owner.text.length + 2 + 10 + a.target.size := by
    rw [length_recordBytes, hw, a.target.length_bytes]
  rw [← hlen] at room ⊢
  have hl := length_recordBytes t a
  have owner := encodeOwner_of_fits t a.owner (show _ ≤ bufLen by omega)
  have target : a.target.object.encode ((bufLen : Int) - (ownerBytes t a.owner).length - 10) =
      .ok a.target.bytes := encodeTarget_of_fits a.target (by omega) (by omega)
  obtain ⟨rr, p', he, hp⟩ := encode_of_fits
    ⟨a.owner.text, ⟨a.target.type, a.rclass, a.ttl, rdlength⟩, some a.target.object⟩ p off
    owner rfl target (by omega) (by omega) (by omega)
  rw [← hl] at he
  refine ⟨rr, p', he, ?_⟩
  have hat : At p'.bytes off (recordBytes t a) := by
    rw [hp]
    apply at_overwrite
    rw [p.size, packetAllocation]
    exact Nat.le_trans (Nat.add_le_add_left room off) inside
  have spelled : Spelled p'.bytes off t := fun _ _ h => by cases h
  have legible : t.places.ownerLegible off a.owner = true := decide_eq_true near
  rw [decode_record uninit hat spelled (by omega), if_pos legible, ← a.target.length_bytes]
  rfl

theorem record_round_trip_alias : ∃ rr p',
    DNSResourceRecord.encode ⟨nameA.text, ⟨typeCname, 1, 300, 0⟩, some (.cname ⟨nameB.text⟩)⟩
        ⟨List.replicate 1024 0, length_zeros⟩ 512 512 (fun _ => none) = .ok (rr, p', 16) ∧
      DNSResourceRecord.decode (fun _ => 0) p'.bytes 512 =
        .ok (⟨nameA.text, ⟨typeCname, 1, 300, 3⟩, some (.cname ⟨nameB.text⟩)⟩, 528) :=
  record_round_trip ⟨nameA, 1, 300, .cname nameB⟩ 0 _ _ (by decide) (by decide) (by decide)

theorem ownerSize_places (t : PointerLocations) (n : DomainName) :
    t.places.ownerSize n = (ownerBytes t n).length := by
  unfold Places.ownerSize PointerLocations.places ownerBytes
  cases t n.text with
  | none => simp [n.length_wire]
  | some loc => simp

theorem size_record (t : PointerLocations) (ptr : Nat) (a : Answer) :
    ptr + t.places.ownerSize a.owner + 10 + a.target.size = ptr + (recordBytes t a).length := by
  rw [ownerSize_places, length_recordBytes, a.target.length_bytes]
  omega

/-- The encoder's table grows as the places do. -/
theorem places_extend (t : PointerLocations) {ptr : Nat} {a : Answer}
    (hle : ptr + (recordBytes t a).length ≤ 1024) :
    (extend t ptr a).places = t.places.next ptr a := by
  have hl := length_recordBytes t a
  funext m
  unfold extend Places.next
  cases hx : a.target with
  | address q => rfl
  | cname n =>
    simp only [ownerSize_places]
    have hlt : ptr + (ownerBytes t a.owner).length + 10 < 65536 := by omega
    cases ht : t n.text with
    | some loc => simp [PointerLocations.places, ht]
    | none =>
      by_cases hm : m = n.text
      · simp [PointerLocations.places, PointerLocations.insert, ht, hm, hlt]
      · simp [PointerLocations.places, PointerLocations.insert, hm]

/-- The decoder reads the written answers back exactly when it can find all
their owners. -/
theorem decodeAnswers_iff {msg : List Byte} {ptr : Nat} {t : PointerLocations} {as : List Answer}
    (heap : Nat → Nat → Byte) (i : Nat) (hs : Spelled msg ptr t)
    (h : At msg ptr (answerBytes t ptr as)) (hle : ptr + (answerBytes t ptr as).length ≤ 1024) :
    decodeAnswers heap msg as.length i ptr =
      .ok (as.map Answer.decoded, ptr + (answerBytes t ptr as).length) ↔
    t.places.legible ptr as = true := by
  induction as generalizing ptr t i with
  | nil => simp [decodeAnswers, answerBytes, Places.legible]
  | cons a as ih =>
    simp only [answerBytes, List.length_append, ← Nat.add_assoc] at h hle ⊢
    obtain ⟨hr, hrest⟩ := at_append.mp h
    have hi := ih (i + 1) (hs.extend hr (by omega)) hrest hle
    rw [places_extend t (by omega)] at hi
    simp only [Places.legible, Bool.and_eq_true, size_record, ← hi, List.length_cons,
      decodeAnswers, decode_record (heap i) hr hs (by omega)]
    cases t.places.ownerLegible ptr a.owner with
    | false => simp [bind, Except.bind]
    | true =>
      simp only [if_true, bind, Except.bind, true_and]
      cases decodeAnswers heap msg as.length (i + 1) (ptr + (recordBytes t a).length) with
      | error e => simp
      | ok r => simp [Prod.ext_iff]

theorem places_single (q : Question) : (singleTable q).places = Places.single q := by
  funext m
  by_cases hm : m = q.name.text
  · simp [singleTable, questionTable, PointerLocations.places, PointerLocations.insert,
      Places.single, hm]
  · simp [singleTable, questionTable, PointerLocations.places, PointerLocations.insert,
      Places.single, hm]

section Single

variable {cfg : Config} {t : Turn} {w : Worker} {g : Worker.Stage} {q : Question}
  {as : List Answer} {info : ResponseInfo} {s : Session}

theorem AnsweredSingle.decodeAnswers_iff (h : AnsweredSingle w t q as info s)
    (asks : Asks t.datagram [q]) (cfg : Config) (g : Worker.Stage) (heap : Nat → Nat → Byte) :
    decodeAnswers heap (Worker.answered cfg g s info).session.packet.bytes as.length 0
        (12 + q.bytes.length) =
      .ok (as.map Answer.decoded, 12 + q.bytes.length + info.length) ↔
    (Places.single q).legible (12 + q.bytes.length) as = true := by
  have hq := q.length_bytes_le
  have hfit := h.fits
  obtain ⟨hquestion, hanswers⟩ := h.at_reply asks cfg g
  rw [h.length, ← places_single]
  exact OdbcDns.decodeAnswers_iff heap 0 (spelled_single hquestion) hanswers
    (by unfold singleBytes at hfit; omega)

/-- The decoder of the program undoes its encoder exactly when the names that
the records point to lie at places it can read a pointer to. -/
theorem decode_answers_iff_legible (heap : Nat → Nat → Byte) (asks : Asks t.datagram [q])
    (type : q.typeLow = 1) (rows : t.lookup q.name.text = as.map Answer.row)
    (stays : Local as t.datagram) (extracted : w.clean.extract cfg t = .ok g)
    (resolved : resolve cfg t.locals t.lookup (sizeAdd headerLength g.totalBytes)
      (sizeAdd headerLength g.totalBytes) g.session = (.ok info, s))
    (whole : info.truncationOccurred = false) :
    decodeAnswers heap (Worker.answered cfg g s info).session.packet.bytes as.length 0
        (12 + q.bytes.length) =
      .ok (as.map Answer.decoded, 12 + q.bytes.length + info.length) ↔
    (Places.single q).legible (12 + q.bytes.length) as = true :=
  (answered_single asks type rows stays extracted resolved (.inl whole)).decodeAnswers_iff asks
    cfg g heap

end Single

theorem decode_answers_iff_legible_alias : ∃ g info s,
    Worker.idle.clean.extract ⟨0, false⟩ turnA = .ok g ∧
    resolve ⟨0, false⟩ turnA.locals turnA.lookup (sizeAdd headerLength g.totalBytes)
      (sizeAdd headerLength g.totalBytes) g.session = (.ok info, s) ∧
    decodeAnswers turnA.heap (Worker.answered ⟨0, false⟩ g s info).session.packet.bytes 2 0 19 =
      .ok (aliasThenAddress.map Answer.decoded, 19 + info.length) := by
  have asks : Asks turnA.datagram [questionA] := asks_request 0 7 1 (by decide) (by decide)
  have stays : Local aliasThenAddress turnA.datagram := .inl (by decide)
  obtain ⟨g, info, s, hg, hr, hw⟩ := answered_single_exists ⟨0, false⟩ Worker.idle asks rfl rfl
    stays (by decide) rfl
  exact ⟨g, info, s, hg, hr,
    (decode_answers_iff_legible turnA.heap asks rfl rfl stays hg hr hw).mpr (by decide)⟩

def longAlias : List Answer :=
  [⟨longName, 1, 300, .cname nameB⟩, ⟨nameB, 1, 60, .address ⟨1, 2, 3, 4⟩⟩]

def turnLong : Turn :=
  .quiet (request 0 7 1 [questionLong]) requestLong_short (fun _ => longAlias.map Answer.row)

/-- The second record points to byte 144. Its owner is not found again. -/
theorem decode_answers_ne_long : ∃ g info s,
    Worker.idle.clean.extract ⟨0, false⟩ turnLong = .ok g ∧
    resolve ⟨0, false⟩ turnLong.locals turnLong.lookup (sizeAdd headerLength g.totalBytes)
      (sizeAdd headerLength g.totalBytes) g.session = (.ok info, s) ∧
    info.truncationOccurred = false ∧
    decodeAnswers turnLong.heap (Worker.answered ⟨0, false⟩ g s info).session.packet.bytes 2 0 132 ≠
      .ok (longAlias.map Answer.decoded, 132 + info.length) := by
  have asks : Asks turnLong.datagram [questionLong] := asks_request 0 7 1 (by decide) (by decide)
  have stays : Local longAlias turnLong.datagram := .inl (by decide)
  obtain ⟨g, info, s, hg, hr, hw⟩ := answered_single_exists ⟨0, false⟩ Worker.idle asks rfl rfl
    stays (by decide +kernel) rfl
  refine ⟨g, info, s, hg, hr, hw, fun h => ?_⟩
  have hs := answered_single asks rfl rfl stays hg hr (.inl hw)
  exact absurd ((hs.decodeAnswers_iff asks ⟨0, false⟩ g turnLong.heap).mp h) (by decide +kernel)

end OdbcDns
