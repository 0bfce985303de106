import OdbcDns.Server
import OdbcDns.Proofs.Bytes

namespace OdbcDns
open Slice Rfc1035

namespace Packet

theorem byteAt_set (p : Packet) {i : Nat} (hi : i < 12) (b : Byte) (j : Nat) :
    byteAt (p.set i b).bytes j = if j = i then b else byteAt p.bytes j := by
  have hl : i < p.bytes.length := by
    rw [p.size, packetAllocation]
    omega
  simp only [byteAt, Packet.set, List.getD_eq_getElem?_getD, List.getElem?_set]
  by_cases h : j = i
  · simp [h, hl]
  · simp [h, Ne.symm h]

theorem drop_set (p : Packet) {i n : Nat} (h : i < n) (b : Byte) :
    (p.set i b).bytes.drop n = p.bytes.drop n := List.drop_set_of_lt h

end Packet

theorem or_qr (b : Byte) : (b ||| 0x80) &&& 0x80 ≠ 0 := by
  revert b
  apply forall_byte
  decide +kernel

theorem or_qr_tc (b : Byte) : (b ||| 0x80) &&& 0x02 = b &&& 0x02 := by
  revert b
  apply forall_byte
  decide +kernel

theorem or_tc (b : Byte) : (b ||| 0x02) &&& 0x02 ≠ 0 := by
  revert b
  apply forall_byte
  decide +kernel

theorem or_tc_qr (b : Byte) : (b ||| 0x02) &&& 0x80 = b &&& 0x80 := by
  revert b
  apply forall_byte
  decide +kernel

/-- What a change of the header leaves alone. -/
structure SameBody (p q : Packet) : Prop where
  id : idOf q.bytes = idOf p.bytes
  body : q.bytes.drop 12 = p.bytes.drop 12

theorem SameBody.trans {p q r : Packet} (h : SameBody p q) (g : SameBody q r) : SameBody p r :=
  ⟨g.id.trans h.id, g.body.trans h.body⟩

theorem SameBody.set (p : Packet) {i : Nat} (h : 2 ≤ i) (hi : i < 12) (b : Byte) :
    SameBody p (p.set i b) := by
  refine ⟨?_, p.drop_set hi b⟩
  unfold idOf
  rw [p.byteAt_set hi, p.byteAt_set hi, if_neg (by omega), if_neg (by omega)]

theorem SameBody.setCount (p : Packet) {i : Nat} (h : 2 ≤ i) (hi : i + 1 < 12) (v : UInt16) :
    SameBody p (p.setCount i v) :=
  (SameBody.set p h (by omega) _).trans (SameBody.set _ (by omega) hi _)

/-- Segments behind the header are not touched. -/
theorem SameBody.at {p q : Packet} (h : SameBody p q) {off : Nat} {ys : List Byte}
    (hoff : 12 ≤ off) (ha : At p.bytes off ys) : At q.bytes off ys := by
  have he : q.bytes.drop off = p.bytes.drop off := by
    rw [show off = 12 + (off - 12) by omega, ← List.drop_drop, ← List.drop_drop, h.body]
  unfold At
  rw [he]
  exact ha

theorem SameBody.flags (cfg : Config) (info : ResponseInfo) (p : Packet) :
    SameBody p (Worker.setResponseFlags cfg info p) := by
  unfold Worker.setResponseFlags
  refine SameBody.trans ?_ (SameBody.set _ (by decide) (by decide) _)
  refine SameBody.trans ?_ (SameBody.setCount _ (by decide) (by decide) _)
  refine SameBody.trans ?_ (SameBody.setCount _ (by decide) (by decide) _)
  refine SameBody.trans ?_ (SameBody.setCount _ (by decide) (by decide) _)
  exact (SameBody.set p (by decide) (by decide) _).trans (SameBody.set _ (by decide) (by decide) _)

theorem byteAt_setCount (p : Packet) {i : Nat} (hi : i + 1 < 12) (v : UInt16) (j : Nat) :
    byteAt (p.setCount i v).bytes j =
      if j = i + 1 then UInt8.ofNat (v.toNat % 256)
      else if j = i then UInt8.ofNat (v.toNat / 256) else byteAt p.bytes j := by
  have hv := v.toNat_lt
  have hm := toNat_htons v
  unfold Packet.setCount
  rw [Packet.byteAt_set _ hi, Packet.byteAt_set _ (by omega), hm,
    show (v.toNat % 256 * 256 + v.toNat / 256) / 256 = v.toNat % 256 by omega,
    show (v.toNat % 256 * 256 + v.toNat / 256) % 256 = v.toNat / 256 by omega]

/-- The second byte holds QR, TC and RD; of these only QR is set. -/
theorem byteAt_flags_two (cfg : Config) (info : ResponseInfo) (p : Packet) :
    byteAt (Worker.setResponseFlags cfg info p).bytes 2 = byteAt p.bytes 2 ||| 0x80 := by
  simp only [Worker.setResponseFlags, Packet.setRcode, Packet.setRa, Packet.setQr,
    byteAt_setCount _ (by decide : 10 + 1 < 12), byteAt_setCount _ (by decide : 8 + 1 < 12),
    byteAt_setCount _ (by decide : 6 + 1 < 12), Packet.byteAt_set _ (by decide : 3 < 12),
    Packet.byteAt_set _ (by decide : 2 < 12)]
  rfl

theorem setRcode_low (b : Byte) (r : Rcode) :
    ((b &&& 0xF0) ||| (r.byte &&& 0x0F)) &&& 0x0F = r.byte := by
  revert b
  apply forall_byte
  cases r <;> decide +kernel

theorem rcode_setRcode (p : Packet) (r : Rcode) :
    rcode (p.setRcode r.byte).bytes = r.byte.toNat := by
  rw [rcode, Packet.setRcode, p.byteAt_set (by decide), if_pos rfl, setRcode_low]

theorem rcode_flags (cfg : Config) (info : ResponseInfo) (p : Packet) :
    rcode (Worker.setResponseFlags cfg info p).bytes = info.rcode.byte.toNat :=
  rcode_setRcode _ _

/-- A reply that was not received has the RCODE that `resolve` has returned. -/
theorem rcode_answered (cfg : Config) (g : Worker.Stage) (s : Session) {info : ResponseInfo}
    (h : info.recursionOccurred = false) :
    rcode (Worker.answered cfg g s info).session.packet.bytes = info.rcode.byte.toNat := by
  have hp : (Worker.answered cfg g s info).session.packet = Worker.setResponseFlags cfg info
      (if info.truncationOccurred then s.packet.setTc else s.packet) := by
    rw [Worker.answered, h]
    rfl
  rw [hp, rcode_flags]

theorem ancount_flags (cfg : Config) (info : ResponseInfo) (p : Packet) :
    ancount (Worker.setResponseFlags cfg info p).bytes = info.answers.toNat := by
  have hv := info.answers.toNat_lt
  simp only [ancount, Worker.setResponseFlags, Packet.setRcode,
    byteAt_setCount _ (by decide : 10 + 1 < 12), byteAt_setCount _ (by decide : 8 + 1 < 12),
    byteAt_setCount _ (by decide : 6 + 1 < 12), Packet.byteAt_set _ (by decide : 3 < 12)]
  simp only [Nat.reduceEqDiff, Nat.reduceAdd, if_false, if_true, toNat_ofNat_mod]
  omega

theorem qr_flags (cfg : Config) (info : ResponseInfo) (p : Packet) :
    qr (Worker.setResponseFlags cfg info p).bytes = true := by
  rw [qr, byteAt_flags_two]
  exact decide_eq_true (or_qr _)

theorem tc_flags (cfg : Config) (info : ResponseInfo) (p : Packet) :
    tc (Worker.setResponseFlags cfg info p).bytes = tc p.bytes := by
  rw [tc, byteAt_flags_two, or_qr_tc, tc]

theorem tc_setTc (p : Packet) : tc p.setTc.bytes = true := by
  rw [tc, Packet.setTc, p.byteAt_set (by decide), if_pos rfl]
  exact decide_eq_true (or_tc _)

theorem byteAt_take {m : List Byte} {n i : Nat} (h : i < n) :
    byteAt (m.take n) i = byteAt m i := by
  simp [byteAt, List.getD_eq_getElem?_getD, h]

/-- A field of the header depends on the first bytes only. -/
theorem byteAt_of_take_eq {m m' : List Byte} {n i : Nat} (he : m.take n = m'.take n) (h : i < n) :
    byteAt m i = byteAt m' i := by
  rw [← byteAt_take h, he, byteAt_take h]

section FirstBytes

variable {m m' : List Byte} {n : Nat}

theorem idOf_of_take_eq (he : m.take n = m'.take n) (h : 2 ≤ n) : idOf m = idOf m' := by
  unfold idOf
  rw [byteAt_of_take_eq he (by omega), byteAt_of_take_eq he (by omega)]

theorem rd_of_take_eq (he : m.take n = m'.take n) (h : 3 ≤ n) : rd m = rd m' := by
  unfold rd
  rw [byteAt_of_take_eq he (by omega)]

theorem qr_of_take_eq (he : m.take n = m'.take n) (h : 3 ≤ n) : qr m = qr m' := by
  unfold qr
  rw [byteAt_of_take_eq he (by omega)]

theorem qdcount_of_take_eq (he : m.take n = m'.take n) (h : 6 ≤ n) : qdcount m = qdcount m' := by
  unfold qdcount
  rw [byteAt_of_take_eq he (by omega), byteAt_of_take_eq he (by omega)]

theorem ancount_of_take_eq (he : m.take n = m'.take n) (h : 8 ≤ n) : ancount m = ancount m' := by
  unfold ancount
  rw [byteAt_of_take_eq he (by omega), byteAt_of_take_eq he (by omega)]

theorem nscount_of_take_eq (he : m.take n = m'.take n) (h : 10 ≤ n) : nscount m = nscount m' := by
  unfold nscount
  rw [byteAt_of_take_eq he (by omega), byteAt_of_take_eq he (by omega)]

theorem arcount_of_take_eq (he : m.take n = m'.take n) (h : 12 ≤ n) : arcount m = arcount m' := by
  unfold arcount
  rw [byteAt_of_take_eq he (by omega), byteAt_of_take_eq he (by omega)]

end FirstBytes

theorem ofDatagram_bytes {d : List Byte} (h : d.length ≤ 512) (old : Packet) :
    (Packet.ofDatagram d old).bytes = d ++ old.bytes.drop d.length := by
  have hl : 0 + d.length ≤ old.bytes.length := by
    rw [old.size, packetAllocation]
    omega
  unfold Packet.ofDatagram
  rw [dif_pos hl]
  simp [overwrite]

/-- A datagram stands at the start of the packet it is received into. -/
theorem take_ofDatagram {d : List Byte} (h : d.length ≤ 512) (old : Packet) :
    (Packet.ofDatagram d old).bytes.take d.length = d.take d.length := by
  rw [ofDatagram_bytes h, List.take_left, List.take_length]

end OdbcDns
