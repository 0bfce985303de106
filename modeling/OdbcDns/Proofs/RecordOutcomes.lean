import OdbcDns.Proofs.AddressData

/-! What becomes of a call of `DNSResourceRecord::decode`, told by the bytes that it is made
for. -/

namespace OdbcDns
open Rfc1035 Slice

section Loop

variable {packet : List Byte} {bufLen : Nat}

/-- On the way through a name there is a label that the program refuses, when `w` bytes of
the name have been written before it. -/
def Refuses (packet : List Byte) (bufLen : Nat) (loc : List Byte) (w : Nat) : Prop :=
  ∃ n loc' w' what, Walk (Next packet bufLen) n (loc, w) (loc', w') ∧
    Stopped bufLen w' loc' (.exception what)

theorem Refuses.next {loc loc' : List Byte} {w w' : Nat}
    (first : Next packet bufLen (loc, w) (loc', w')) (h : Refuses packet bufLen loc' w') :
    Refuses packet bufLen loc w := by
  obtain ⟨n, last, v, what, walk, stopped⟩ := h
  exact ⟨n + 1, last, v, what, .step first walk, stopped⟩

theorem refuses_of_decodeLoop {fuel : Nat} {loc out : List Byte} {what : String}
    (h : decodeLoop packet bufLen fuel loc out = .error (.exception what)) :
    Refuses packet bufLen loc out.length := by
  induction fuel generalizing loc out with
  | zero => cases h
  | succ fuel ih =>
    rcases @decodeLoop_turn packet bufLen loc out fuel with ⟨loc', jump, he⟩ |
      ⟨l, rest, ok, rfl, room, he⟩ | ⟨rest, _, _, he⟩ | ⟨e, stopped, he⟩
    · exact (ih (he ▸ h)).next (.jump jump)
    · have tail := ih (he ▸ h)
      rw [List.length_append, List.length_append, List.length_singleton] at tail
      exact tail.next (.label ok room)
    · cases he.symm.trans h
    · cases he.symm.trans h
      exact ⟨0, loc, out.length, what, .here _, stopped⟩

/-- Turns that are followed by others can be left out. -/
theorem decodeLoop_walk {n : Nat} {a b : List Byte × Nat} (h : Walk (Next packet bufLen) n a b)
    {out : List Byte} (ho : out.length = a.2) (hw : a.2 ≤ bufLen) :
    ∃ out' : List Byte, out'.length = b.2 ∧ b.2 ≤ bufLen ∧ ∀ fuel,
      decodeLoop packet bufLen (fuel + n) a.1 out = decodeLoop packet bufLen fuel b.1 out' := by
  induction h generalizing out with
  | here a => exact ⟨out, ho, hw, fun _ => rfl⟩
  | @step n a b c first rest ih =>
    cases first with
    | jump jump =>
      obtain ⟨out', ho', hw', run⟩ := ih ho hw
      refine ⟨out', ho', hw', fun fuel => ?_⟩
      rw [← run fuel, ← Nat.add_assoc, decodeLoop_jump jump]
    | @label l rest w ok room =>
      obtain rfl : out.length = w := ho
      have written : (out ++ l ++ [dot]).length = out.length + l.length + 1 := by
        rw [List.length_append, List.length_append, List.length_singleton]
      obtain ⟨out', ho', hw', run⟩ := ih written room
      refine ⟨out', ho', hw', fun fuel => ?_⟩
      rw [← run fuel, ← Nat.add_assoc, decodeLoop_label ok packet room]

/-- The turns that the model allows are enough to get to the label. -/
theorem Refuses.decodeLoop {loc : List Byte} (h : Refuses packet bufLen loc 0) :
    ∃ what, OdbcDns.decodeLoop packet bufLen (decodeFuel bufLen) loc [] =
      .error (.exception what) := by
  obtain ⟨n, loc', w', what, walk, stopped⟩ := h
  obtain ⟨out, rfl, room, run⟩ := decodeLoop_walk walk List.length_nil (Nat.zero_le _)
  have throws : ∀ fuel, OdbcDns.decodeLoop packet bufLen (fuel + 1 + n) loc [] =
      .error (.exception what) :=
    fun fuel => (run (fuel + 1)).trans (stopped.decodeLoop room packet fuel)
  refine ⟨what, ?_⟩
  by_cases enough : n < decodeFuel bufLen
  · have := throws (decodeFuel bufLen - n - 1)
    rwa [show decodeFuel bufLen - n - 1 + 1 + n = decodeFuel bufLen by omega] at this
  · -- so many turns have gone round, and such turns never come to the label
    obtain ⟨b, front⟩ := walk.shorten (Nat.le_of_not_lt enough)
    have long : (bufLen + 1) * 16386 ≤ decodeFuel bufLen := Nat.mul_le_mul_right _ (by omega)
    have circles := circles_of_walk bufLen front (by omega) long
    have never := (decodeLoop_hang_iff _ _ []).mpr (circles.endless (0 + 1 + n))
    cases never.symm.trans (throws 0)

end Loop

/-- How a call ends, if it does nothing undefined. A call that halts neither returns nor
throws. -/
def Outcome {α : Type} (throws halts : Prop) (returns : α → Prop) : Except Stop α → Prop
  | .ok a => returns a
  | .error (.exception _) => throws
  | .error (.fault .outOfBounds) => True
  | .error (.fault _) => halts
  | .error (.code _) => False

section Outcome

variable {α β : Type} {throws halts throws' halts' : Prop} {returns : α → Prop}
  {returns' : β → Prop}

theorem Outcome.error {e : Stop} (h : Outcome throws halts returns (.error e))
    (ht : throws → throws') (hh : halts → halts') : Outcome throws' halts' returns' (.error e) := by
  cases e with
  | exception what => exact ht h
  | code n => exact h.elim
  | fault f =>
    cases f with
    | outOfBounds => trivial
    | invalidParameter => exact hh h
    | badRData => exact hh h
    | hang => exact hh h

theorem Outcome.bind {x : Except Stop α} {f : α → Except Stop β}
    (h : Outcome throws halts returns x) (ht : throws → throws') (hh : halts → halts')
    (hf : ∀ a, returns a → Outcome throws' halts' returns' (f a)) :
    Outcome throws' halts' returns' (x >>= f) := by
  cases x with
  | ok a => exact hf a h
  | error e => exact h.error ht hh

theorem Outcome.map {x : Except Stop α} {f : α → β} (h : Outcome throws halts returns x)
    (hf : ∀ a, returns a → returns' (f a)) : Outcome throws halts returns' (x.map f) := by
  cases x with
  | ok a => exact hf a h
  | error e => exact h.error id id

end Outcome

variable {msg : List Byte} {off : Nat}

/-- The name at `off` is read as the labels. -/
structure NameReads (msg : List Byte) (off : Nat) (ls : List Label) : Prop where
  entered : Entered (msg.drop off)
  reads : ReadAs msg (msg.drop off) ls
  named : ls ≠ []
  short : (wire ls).length ≤ 256

/-- The first zero byte from `off` on comes too late, or the name has a label that is
refused. -/
structure NameThrows (msg : List Byte) (off : Nat) : Prop where
  zero : (0 : Byte) ∈ msg.drop off
  refused : 255 < (cstr (msg.drop off)).length ∨ Refuses msg 256 (msg.drop off) 0

/-- The pointers of the name at `off` go round. -/
structure NameCircles (msg : List Byte) (off : Nat) : Prop where
  entered : Entered (msg.drop off)
  circles : Circles msg 256 (msg.drop off) 0

theorem NameReads.decodeName {ls : List Label} (h : NameReads msg off ls) :
    decodeName (msg.drop off) msg 256 = .ok (cstr (text ls), (wire ls).length) :=
  decodeName_ok_iff.mpr ⟨h.entered, ls, h.reads, h.named, rfl, rfl, h.short⟩

theorem NameThrows.decodeName (h : NameThrows msg off) :
    ∃ what, decodeName (msg.drop off) msg 256 = .error (.exception what) := by
  have length : strlen (msg.drop off) = .ok (cstr (msg.drop off)).length := if_pos h.zero
  unfold OdbcDns.decodeName decodeNameWithin
  by_cases late : 255 < (cstr (msg.drop off)).length
  · refine ⟨"QNAME length longer than maximum of 255", ?_⟩
    simp only [length, bind, Except.bind, late, if_true]
  · obtain ⟨what, loop⟩ := (h.refused.resolve_left late).decodeLoop
    refine ⟨what, ?_⟩
    simp only [length, bind, Except.bind, late, if_false, loop]

theorem decodeName_circles_iff {name packet : List Byte} {bufLen : Nat} :
    decodeName name packet bufLen = .error (.fault .hang) ↔
      Entered name ∧ Circles packet bufLen name 0 := by
  rw [decodeName, decodeNameWithin_hang_iff]
  refine and_congr_right fun _ => ⟨fun walk => ?_, fun circles => circles.endless _⟩
  obtain ⟨b, hb⟩ := walk
  exact circles_of_walk bufLen hb (by omega) (by unfold decodeFuel; omega)

/-- The loop stops in no other ways. -/
theorem decodeLoop_error {packet : List Byte} {bufLen fuel : Nat} {loc out : List Byte} {e : Stop}
    (h : decodeLoop packet bufLen fuel loc out = .error e) :
    e = .fault .hang ∨ e = .fault .outOfBounds ∨ ∃ what, e = .exception what := by
  induction fuel generalizing loc out with
  | zero =>
    cases h
    exact .inl rfl
  | succ fuel ih =>
    rcases @decodeLoop_turn packet bufLen loc out fuel with ⟨loc', _, he⟩ |
      ⟨l, rest, _, _, _, he⟩ | ⟨rest, _, _, he⟩ | ⟨e', stopped, he⟩
    · exact ih (he ▸ h)
    · exact ih (he ▸ h)
    · cases he.symm.trans h
    · cases he.symm.trans h
      cases stopped with
      | outside => exact .inr (.inl rfl)
      | long _ _ => exact .inr (.inr ⟨_, rfl⟩)
      | full _ _ _ => exact .inr (.inr ⟨_, rfl⟩)

theorem decodeName_error {name packet : List Byte} {bufLen : Nat} {e : Stop}
    (h : decodeName name packet bufLen = .error e) :
    e = .fault .hang ∨ e = .fault .outOfBounds ∨ ∃ what, e = .exception what := by
  unfold decodeName decodeNameWithin at h
  rcases Except.bind_error.mp h with h | ⟨n, _, h⟩
  · unfold strlen at h
    split at h <;> cases h
    exact .inr (.inl rfl)
  · split at h
    · cases h
      exact .inr (.inr ⟨_, rfl⟩)
    · rcases Except.bind_error.mp h with h | ⟨out, _, h⟩
      · exact decodeLoop_error h
      · split at h <;> cases h
        exact .inr (.inl rfl)

theorem decodeName_outcome (msg : List Byte) (off : Nat) :
    Outcome (NameThrows msg off) (NameCircles msg off)
      (fun r => ∃ ls, NameReads msg off ls ∧ r = (cstr (text ls), (wire ls).length))
      (decodeName (msg.drop off) msg 256) := by
  cases h : decodeName (msg.drop off) msg 256 with
  | ok r =>
    obtain ⟨t, n⟩ := r
    obtain ⟨entered, ls, reads, named, rfl, rfl, short⟩ := decodeName_ok_iff.mp h
    exact ⟨ls, ⟨entered, reads, named, short⟩, rfl⟩
  | error e =>
    rcases decodeName_error h with rfl | rfl | ⟨what, rfl⟩
    · obtain ⟨entered, circles⟩ := decodeName_circles_iff.mp h
      exact ⟨entered, circles⟩
    · trivial
    · obtain ⟨zero, refused⟩ := exception_of_decodeName h
      exact ⟨zero, refused.imp_right refuses_of_decodeLoop⟩

/-- What stands at `off`: the first byte of a name that is spelled out at least to its first
label, or a pointer. -/
inductive NameHead (msg : List Byte) (off : Nat) : Option Nat → Prop
  | spelled {b : Byte} (here : At msg off [b]) (low : b.toNat < 192) : NameHead msg off none
  | pointer {b0 b1 : Byte} (here : At msg off [b0, b1]) (high : 192 ≤ b0.toNat) :
      NameHead msg off (some (pointerOffset b0 b1))

theorem NameHead.leadingPointer {p : Option Nat} (h : NameHead msg off p) :
    leadingPointer (msg.drop off) = .ok p := by
  cases h with
  | spelled here low =>
    rw [here.drop_eq]
    exact leadingPointer_low low _
  | pointer here high =>
    rw [here.drop_eq]
    exact leadingPointer_high high _ _

theorem leadingPointer_outcome (msg : List Byte) (off : Nat) :
    Outcome False False (NameHead msg off) (leadingPointer (msg.drop off)) := by
  cases hd : msg.drop off with
  | nil => trivial
  | cons b0 rest =>
    by_cases high : 192 ≤ b0.toNat
    · cases rest with
      | nil =>
        have hp := (charToUnsigned_pointer b0).mpr high
        simp only [leadingPointer, hp, if_true]
        trivial
      | cons b1 rest =>
        rw [leadingPointer_high high]
        exact .pointer (.of_drop rest hd) high
    · rw [leadingPointer_low (Nat.lt_of_not_le high)]
      exact .spelled (.of_drop rest hd) (Nat.lt_of_not_le high)

theorem FixedRRInfo.load_outcome (msg : List Byte) (off : Nat) :
    Outcome False False (fun info => At msg off info.memory) (FixedRRInfo.load (msg.drop off)) := by
  unfold FixedRRInfo.load
  split
  · rename_i rest hd
    refine .of_drop rest ?_
    simp only [FixedRRInfo.memory, memory16_load16, memory32_load32, List.cons_append,
      List.nil_append]
    exact hd
  · trivial

/-- The owner and the fixed part of a record, in front of its data. The fixed part is looked
for behind a pointer, or behind as many bytes as the whole name takes. -/
inductive Head (msg : List Byte) (off : Nat) (info : FixedRRInfo) : Nat → Prop
  | mk {p : Option Nat} {ls : List Label} {mid : Nat} (start : NameHead msg off p)
      (near : p.getD off ≤ 512) (owner : NameReads msg (p.getD off) ls)
      (ends : (if p.isSome then off + 2 else off + (wire ls).length) = mid)
      (fixed : At msg mid (fixedPart info.type info.rclass info.ttl info.rdlength)) :
      Head msg off info (mid + 10)

/-- The records that `decode` throws for: it looks for the owner behind byte 512, or the
owner or the name of an alias makes it throw. -/
inductive RecordThrows (msg : List Byte) (off : Nat) : Prop
  | far {p : Option Nat} (start : NameHead msg off p) (far : 512 < p.getD off)
  | owner {p : Option Nat} (start : NameHead msg off p) (near : p.getD off ≤ 512)
      (throws : NameThrows msg (p.getD off))
  | cname {info : FixedRRInfo} {data : Nat} {p : Option Nat} (head : Head msg off info data)
      (type : info.type = typeCname) (start : NameHead msg data p)
      (throws : NameThrows msg (p.getD data))

/-- The records that `decode` neither returns nor throws for: a name goes round, or the data
of an address is longer than `memcpy_s` allows. -/
inductive RecordHalts (msg : List Byte) (off : Nat) : Prop
  | owner {p : Option Nat} (start : NameHead msg off p) (near : p.getD off ≤ 512)
      (circles : NameCircles msg (p.getD off))
  | address {info : FixedRRInfo} {data : Nat} (head : Head msg off info data)
      (type : info.type = typeA) (long : 4 < info.rdlength.toNat)
  | cname {info : FixedRRInfo} {data : Nat} {p : Option Nat} (head : Head msg off info data)
      (type : info.type = typeCname) (start : NameHead msg data p)
      (circles : NameCircles msg (p.getD data))

/-- The data of a record that `decode` returns for. -/
inductive DataReads (msg : List Byte) (info : FixedRRInfo) (data : Nat) : Prop
  | address (type : info.type = typeA) (short : info.rdlength.toNat ≤ 4)
      (there : data + info.rdlength.toNat ≤ msg.length)
  | cname {p : Option Nat} {ls : List Label} (type : info.type = typeCname)
      (start : NameHead msg data p) (name : NameReads msg (p.getD data) ls)
  | other (ha : info.type ≠ typeA) (hc : info.type ≠ typeCname)

/-- The records that `decode` returns for, and the offset that it returns. -/
inductive RecordReturns (msg : List Byte) (off : Nat) : Nat → Prop
  | mk {info : FixedRRInfo} {data : Nat} (head : Head msg off info data)
      (rdata : DataReads msg info data) : RecordReturns msg off (data + info.rdlength.toNat)

theorem Head.data_le {info : FixedRRInfo} {data : Nat} (h : Head msg off info data) :
    data ≤ msg.length := by
  obtain ⟨_, _, _, _, fixed⟩ := h
  exact fixed.le (List.ne_nil_of_length_pos (Nat.zero_lt_succ 9))

theorem Head.decodeHead {info : FixedRRInfo} {data : Nat} (h : Head msg off info data) :
    ∃ name, DNSResourceRecord.decodeHead msg off = .ok (name, info, data) := by
  obtain ⟨start, near, owner, ends, fixed⟩ := h
  rename_i p ls mid
  refine ⟨_, decodeHead_ok_iff.mpr ⟨p, _, mid, start.leadingPointer, near, owner.decodeName, ?_, ?_,
    rfl⟩⟩
  · cases p with
    | none => exact ends
    | some ptr => exact ends
  · rw [fixed.drop_eq]
    exact load_fixedPart info _

theorem decodeHead_outcome (msg : List Byte) (off : Nat) :
    Outcome (RecordThrows msg off) (RecordHalts msg off) (fun r => Head msg off r.2.1 r.2.2)
      (DNSResourceRecord.decodeHead msg off) := by
  refine (leadingPointer_outcome msg off).bind False.elim False.elim fun p start => ?_
  dsimp only
  split
  · rename_i far
    exact .far start far
  · rename_i near
    have near : p.getD off ≤ 512 := Nat.not_lt.mp near
    refine (decodeName_outcome msg (p.getD off)).bind (.owner start near) (.owner start near) ?_
    rintro _ ⟨ls, owner, rfl⟩
    refine (FixedRRInfo.load_outcome msg _).bind False.elim False.elim fun info fixed => ?_
    refine .mk start near owner ?_ ?_
    · cases p with
      | none => rfl
      | some ptr => rfl
    · rw [← FixedRRInfo.memory_swap, FixedRRInfo.swap_swap]
      exact fixed

theorem NameReads.ofText {ls : List Label} (h : NameReads msg off ls) :
    DNSRDataCNAME.ofText (cstr (text ls)) = .ok ⟨cstr (text ls)⟩ := by
  have hlen := length_wire h.named
  have hle := h.short
  have := length_cstr_le (text ls)
  exact ofText_of_le (by omega)

theorem decodeRData_outcome (uninit : Nat → Byte) {info : FixedRRInfo} {data : Nat}
    (head : Head msg off info data) :
    Outcome (RecordThrows msg off) (RecordHalts msg off) (fun _ => DataReads msg info data)
      (DNSResourceRecord.decodeRData uninit info.type (msg.drop data) msg
        info.rdlength.toNat) := by
  unfold DNSResourceRecord.decodeRData
  split
  · rename_i type
    refine @Outcome.map _ _ _ _ (fun _ => DataReads msg info data) _ _ _ ?_ fun _ h => h
    by_cases long : info.rdlength.toNat > 4
    · rw [DNSRDataA.decode, if_pos long]
      exact .address head type long
    · by_cases there : info.rdlength.toNat ≤ (msg.drop data).length
      · obtain ⟨q, hq⟩ := DNSRDataA.decode_of_short uninit long there
        rw [hq]
        have := head.data_le
        rw [List.length_drop] at there
        exact .address type (Nat.not_lt.mp long) (by omega)
      · rw [DNSRDataA.decode, if_neg long, if_pos (Nat.lt_of_not_le there)]
        trivial
  · rename_i ha
    split
    · rename_i type
      refine @Outcome.map _ _ _ _ (fun _ => DataReads msg info data) _ _ _ ?_ fun _ h => h
      have first := leadingPointer_outcome msg data
      cases hp : leadingPointer (msg.drop data) with
      | error e =>
        rw [hp] at first
        unfold DNSRDataCNAME.decode
        rw [hp]
        exact first.error False.elim False.elim
      | ok p =>
        rw [hp] at first
        rw [DNSRDataCNAME.decode_of_pointer first.leadingPointer]
        refine (decodeName_outcome msg (p.getD data)).bind (.cname head type first)
          (.cname head type first) ?_
        rintro _ ⟨ls, name, rfl⟩
        rw [name.ofText]
        exact .cname type first name
    · rename_i hc
      exact .other ha hc

/-- What a call of `decode` comes to is told by the bytes. -/
theorem decode_outcome (uninit : Nat → Byte) (msg : List Byte) (off : Nat) :
    Outcome (RecordThrows msg off) (RecordHalts msg off) (fun r => RecordReturns msg off r.2)
      (DNSResourceRecord.decode uninit msg off) := by
  refine (decodeHead_outcome msg off).bind id id fun r head => ?_
  obtain ⟨name, info, data⟩ := r
  exact (decodeRData_outcome uninit head).bind id id fun _ rdata => .mk head rdata

theorem RecordThrows.decode (h : RecordThrows msg off) (uninit : Nat → Byte) :
    ∃ what, DNSResourceRecord.decode uninit msg off = .error (.exception what) := by
  cases h with
  | far start far =>
    refine ⟨"Tried to access out of packet bounds", ?_⟩
    have far : _ > maxDnsPacketLength := far
    simp only [DNSResourceRecord.decode, DNSResourceRecord.decodeHead, start.leadingPointer, bind,
      Except.bind, far, if_true]
  | owner start near throws =>
    obtain ⟨what, thrown⟩ := throws.decodeName
    have near : ¬ _ > maxDnsPacketLength := Nat.not_lt.mpr near
    refine ⟨what, ?_⟩
    simp only [DNSResourceRecord.decode, DNSResourceRecord.decodeHead, start.leadingPointer, bind,
      Except.bind, near, if_false, maxDnsNameLength, thrown]
  | cname head type start throws =>
    obtain ⟨what, thrown⟩ := throws.decodeName
    obtain ⟨name, hd⟩ := head.decodeHead
    refine ⟨what, ?_⟩
    rw [decode_of_head hd, DNSResourceRecord.decodeRData, type, if_neg (by decide), if_pos rfl,
      DNSRDataCNAME.decode_of_pointer start.leadingPointer, thrown]
    rfl

theorem RecordHalts.decode (h : RecordHalts msg off) (uninit : Nat → Byte) :
    ∃ f, f ≠ .outOfBounds ∧ DNSResourceRecord.decode uninit msg off = .error (.fault f) := by
  cases h with
  | owner start near circles =>
    have hangs := decodeName_circles_iff.mpr ⟨circles.entered, circles.circles⟩
    have near : ¬ _ > maxDnsPacketLength := Nat.not_lt.mpr near
    refine ⟨.hang, by decide, ?_⟩
    simp only [DNSResourceRecord.decode, DNSResourceRecord.decodeHead, start.leadingPointer, bind,
      Except.bind, near, if_false, maxDnsNameLength, hangs]
  | address head type long =>
    obtain ⟨name, hd⟩ := head.decodeHead
    refine ⟨.invalidParameter, by decide, ?_⟩
    rw [decode_of_head hd, DNSResourceRecord.decodeRData, if_pos type, DNSRDataA.decode,
      if_pos long]
    rfl
  | cname head type start circles =>
    have hangs := decodeName_circles_iff.mpr ⟨circles.entered, circles.circles⟩
    obtain ⟨name, hd⟩ := head.decodeHead
    refine ⟨.hang, by decide, ?_⟩
    rw [decode_of_head hd, DNSResourceRecord.decodeRData, type, if_neg (by decide), if_pos rfl,
      DNSRDataCNAME.decode_of_pointer start.leadingPointer, hangs]
    rfl

theorem DataReads.decodeRData {info : FixedRRInfo} {data : Nat} (h : DataReads msg info data)
    (uninit : Nat → Byte) :
    ∃ rdata, DNSResourceRecord.decodeRData uninit info.type (msg.drop data) msg
      info.rdlength.toNat = .ok rdata := by
  unfold DNSResourceRecord.decodeRData
  cases h with
  | address type short there =>
    have enough : info.rdlength.toNat ≤ (msg.drop data).length := by
      rw [List.length_drop]
      omega
    obtain ⟨q, hq⟩ := DNSRDataA.decode_of_short uninit (Nat.not_lt.mpr short) enough
    rw [if_pos type, hq]
    exact ⟨_, rfl⟩
  | cname type start name =>
    rw [type, if_neg (by decide), if_pos rfl, DNSRDataCNAME.decode_of_pointer start.leadingPointer,
      name.decodeName]
    exact ⟨_, congrArg (Except.map _) name.ofText⟩
  | other ha hc =>
    rw [if_neg ha, if_neg hc]
    exact ⟨_, rfl⟩

theorem RecordReturns.decode {next : Nat} (h : RecordReturns msg off next) (uninit : Nat → Byte) :
    ∃ rr, DNSResourceRecord.decode uninit msg off = .ok (rr, next) := by
  obtain ⟨head, rdata⟩ := h
  obtain ⟨name, hd⟩ := head.decodeHead
  obtain ⟨d, hdata⟩ := rdata.decodeRData uninit
  exact ⟨_, by rw [decode_of_head hd, hdata]; rfl⟩

end OdbcDns
