import OdbcDns.Proofs.NameAcceptance

namespace OdbcDns
open Rfc1035 Slice

/-- The name that starts at one position is read through the other one. -/
inductive Passes (msg : Message) : Nat → Nat → Prop
  | here (off : Nat) : Passes msg off off
  | label {off p : Nat} {l : Label} (ok : LabelOk l) (head : At msg off (UInt8.ofNat l.length :: l))
      (tail : Passes msg (off + 1 + l.length) p) : Passes msg off p
  | pointer {off p : Nat} {b0 b1 : Byte} (high : 192 ≤ b0.toNat) (head : At msg off [b0, b1])
      (tail : Passes msg (pointerTarget b0 b1) p) : Passes msg off p

/-- Every compression pointer that the name at `off` is read through has a second byte
below 128. -/
def LowPointers (msg : Message) (off : Nat) : Prop :=
  ∀ p b0 b1, Passes msg off p → At msg p [b0, b1] → 192 ≤ b0.toNat → b1.toNat < 128

theorem jump_of_at {msg : Message} {off : Nat} {b0 b1 : Byte} (high : 192 ≤ b0.toNat)
    (h : At msg off [b0, b1]) : Jump msg (msg.drop off) (msg.drop (pointerOffset b0 b1)) := by
  rw [h.drop_eq]
  exact .mk high

/-- With such pointers the program reads the name that RFC 1035 gives. -/
theorem readAs_of_nameAt {msg : Message} {off next : Nat} {ls : List Label}
    (h : NameAt msg off ls next) (low : LowPointers msg off) : ReadAs msg (msg.drop off) ls := by
  induction h with
  | @root off h0 =>
    have head : At msg off [0] := at_cons.mpr ⟨h0, List.nil_prefix⟩
    rw [head.drop_eq]
    exact .root
  | @label off next l ls ok head tail ih =>
    have hdrop := head.drop_eq
    rw [List.length_cons, Nat.add_comm l.length, ← Nat.add_assoc, List.cons_append] at hdrop
    rw [hdrop]
    exact .label ok (ih fun p b0 b1 hp => low p b0 b1 (.label ok head hp))
  | @pointer off next b0 b1 ls high head tail ih =>
    have jump := jump_of_at high head
    rw [pointerOffset_eq, if_pos (low off b0 b1 (.here off) head high)] at jump
    exact .pointer jump (ih fun p c0 c1 hp => low p c0 c1 (.pointer high head hp))

/-- A place that reads as a name is inside the packet. -/
theorem ReadAs.lt {msg : Message} {off : Nat} {ls : List Label}
    (h : ReadAs msg (msg.drop off) ls) : off < msg.length := by
  by_contra hle
  exact h.ne_nil (List.drop_eq_nil_of_le (Nat.le_of_not_lt hle))

theorem ReadAs.of_jump {msg loc loc' : List Byte} {ls : List Label} (h : ReadAs msg loc ls)
    (jump : Jump msg loc loc') : ReadAs msg loc' ls := by
  cases h with
  | root => exact jump.not_root.elim
  | label ok _ => exact (jump.not_label ok).elim
  | pointer jump' tail => exact jump.unique jump' ▸ tail

theorem ReadAs.of_label {msg rest : List Byte} {l : Label} {ls : List Label} (ok : LabelOk l)
    (h : ReadAs msg (UInt8.ofNat l.length :: (l ++ rest)) ls) : ∃ ks, ReadAs msg rest ks := by
  generalize hloc : UInt8.ofNat l.length :: (l ++ rest) = loc at h
  cases h with
  | root => exact absurd (List.cons.inj hloc).1 ok.ofNat_ne_zero
  | @label l' rest' ks ok' tail =>
    obtain ⟨rfl, rfl⟩ := ok.cons_inj ok' hloc
    exact ⟨ks, tail⟩
  | pointer jump _ => exact (Jump.not_label ok (hloc ▸ jump)).elim

/-- A second byte from 128 on makes the program look behind byte 16256, where a packet has
nothing to read. -/
theorem ReadAs.low {msg : Message} {off : Nat} {ls : List Label} {b0 b1 : Byte}
    (h : ReadAs msg (msg.drop off) ls) (hm : msg.length ≤ 16256) (high : 192 ≤ b0.toNat)
    (head : At msg off [b0, b1]) : b1.toNat < 128 := by
  have hlt := (h.of_jump (jump_of_at high head)).lt
  rw [pointerOffset_eq] at hlt
  by_contra hb
  rw [if_neg hb] at hlt
  omega

theorem lowPointers_of_readAs {msg : Message} {off : Nat} {ls : List Label}
    (h : ReadAs msg (msg.drop off) ls) (hm : msg.length ≤ 16256) : LowPointers msg off := by
  intro p b0 b1 hp
  induction hp generalizing ls with
  | here off => exact fun head high => h.low hm high head
  | @label off p l ok head tail ih =>
    have hdrop := head.drop_eq
    rw [List.length_cons, Nat.add_comm l.length, ← Nat.add_assoc, List.cons_append] at hdrop
    rw [hdrop] at h
    obtain ⟨ks, hk⟩ := h.of_label ok
    exact ih hk
  | @pointer off p c0 c1 high head tail ih =>
    have next := h.of_jump (jump_of_at high head)
    rw [pointerOffset_eq, if_pos (h.low hm high head)] at next
    exact ih next

/-- A call of `decodeName` on the name at `off` of a packet leaves the labels in a buffer of
256 bytes, joined by dots and followed by a NUL. -/
def Decodes (p : Packet) (stack : List Byte) (off : Nat) (ls : List Label) : Prop :=
  ∀ buf : List Byte, buf.length = 256 → ∃ n log,
    decodeNameAt (p.memory stack) ⟨.packet, off⟩ .packet 256 = (.ok n, log) ∧
      text ls ++ [0] <+: outputBuffer buf log

/-- A name of a packet, compressed or not, is decoded as RFC 1035 says exactly when all
pointers it is read through have a second byte below 128. -/
theorem decodes_iff (p : Packet) (stack : List Byte) {off next : Nat} {ls : List Label}
    (name : NameAt p.bytes off ls next) (nonempty : ls ≠ []) (short : (wire ls).length ≤ 256)
    (start : Entered (p.bytes.drop off)) :
    Decodes p stack off ls ↔ LowPointers p.bytes off := by
  have object : 256 < 9223372036854775808 := by decide
  have hm : p.bytes.length ≤ 16256 := by
    rw [p.size]
    decide
  constructor
  · intro h
    obtain ⟨n, log, he, _⟩ := h (List.replicate 256 0) List.length_replicate
    obtain ⟨ks, returned, _⟩ := (decodeNameAt_ok_iff object).mp (congrArg Prod.fst he)
    exact lowPointers_of_readAs returned.reads hm
  · intro low buf hbuf
    have returned : Returned (p.memory stack) ⟨.packet, off⟩ .packet 256 ls :=
      (returned_iff object).mpr ⟨start, readAs_of_nameAt name low, short⟩
    obtain ⟨log, he, buffer⟩ := returned.leaves nonempty
    exact ⟨_, log, he, buffer buf (Nat.le_of_eq hbuf.symm)⟩

/-- A packet with the name `a` at bytes 20 and 140, and two pointers each that lead there from
bytes 16 and 12. The one at byte 14 has a second byte of 140. -/
def pointerPacket : Packet :=
  ⟨List.replicate 12 0 ++ [0xC0, 14, 0xC0, 140, 0xC0, 18, 0xC0, 20] ++ wire [[97]] ++
    List.replicate 117 0 ++ wire [[97]] ++ List.replicate 881 0, by decide +kernel⟩

theorem pointerPacket_name {off : Nat} (head : At pointerPacket.bytes off [1, 97])
    (root : pointerPacket.bytes[off + 2]? = some 0) :
    NameAt pointerPacket.bytes off [[97]] (off + 3) := .label (by decide) head (.root root)

theorem pointerPacket_pointers {off : Nat} {b0 b1 c0 c1 : Byte} {next : Nat}
    (first : At pointerPacket.bytes off [b0, b1]) (hb : 192 ≤ b0.toNat)
    (second : At pointerPacket.bytes (pointerTarget b0 b1) [c0, c1]) (hc : 192 ≤ c0.toNat)
    (name : NameAt pointerPacket.bytes (pointerTarget c0 c1) [[97]] next) :
    NameAt pointerPacket.bytes off [[97]] (off + 2) :=
  .pointer hb first (.pointer hc second name)

/-- The pointers at bytes 16 and 18 are followed. -/
theorem decodes_iff_compressed : Decodes pointerPacket [] 16 [[97]] := by
  have name : NameAt pointerPacket.bytes 16 [[97]] 18 :=
    @pointerPacket_pointers 16 0xC0 18 0xC0 20 23 (by decide +kernel) (by decide)
      (by decide +kernel) (by decide) (pointerPacket_name (by decide +kernel) (by decide +kernel))
  refine (decodes_iff _ _ name (by decide) (by decide) ?_).mpr ?_
  · exact ⟨6, by decide +kernel, by decide⟩
  · have spelled : ReadAs pointerPacket.bytes (pointerPacket.bytes.drop 20) [[97]] :=
      have ok : ∀ l ∈ [[(97 : Byte)]], LabelOk l := by decide
      readAs_wire ok _ (List.replicate 117 0 ++ wire [[97]] ++ List.replicate 881 0)
    have second : Jump pointerPacket.bytes (pointerPacket.bytes.drop 18)
        (pointerPacket.bytes.drop 20) := @jump_of_at _ 18 0xC0 20 (by decide) (by decide +kernel)
    have first : Jump pointerPacket.bytes (pointerPacket.bytes.drop 16)
        (pointerPacket.bytes.drop 18) := @jump_of_at _ 16 0xC0 18 (by decide) (by decide +kernel)
    exact lowPointers_of_readAs (.pointer first (.pointer second spelled)) (by decide +kernel)

/-- RFC 1035 reads the name `a` at byte 12; the program leaves the packet. -/
theorem pointerPacket_not_decodes :
    NameAt pointerPacket.bytes 12 [[97]] 14 ∧ Entered (pointerPacket.bytes.drop 12) ∧
      (decodeNameAt (pointerPacket.memory []) ⟨.packet, 12⟩ .packet 256).1 =
        .error (.fault .outOfBounds) ∧ ¬ Decodes pointerPacket [] 12 [[97]] := by
  have result : (decodeNameAt (pointerPacket.memory []) ⟨.packet, 12⟩ .packet 256).1 =
      .error (.fault .outOfBounds) := by
    decide +kernel
  have name : NameAt pointerPacket.bytes 12 [[97]] 14 :=
    @pointerPacket_pointers 12 0xC0 14 0xC0 140 143 (by decide +kernel) (by decide)
      (by decide +kernel) (by decide) (pointerPacket_name (by decide +kernel) (by decide +kernel))
  refine ⟨name, ⟨10, by decide +kernel, by decide⟩, result, fun h => ?_⟩
  obtain ⟨n, log, he, _⟩ := h (List.replicate 256 0) List.length_replicate
  rw [he] at result
  cases result

end OdbcDns
