import OdbcDns.Proofs.OutputBuffer

namespace OdbcDns
open Rfc1035 Slice

/-- The positions of length bytes, up to the end of a name or a byte that is no length. -/
inductive LengthAt (bytes : List Byte) : Nat → Prop
  | first : LengthAt bytes 0
  | next {i : Nat} {b : Byte} (h : LengthAt bytes i) (hb : bytes[i]? = some b)
      (pos : 1 ≤ b.toNat) (short : b.toNat ≤ 63) : LengthAt bytes (i + 1 + b.toNat)

/-- No compression pointer stands at a length position. -/
def Uncompressed (bytes : List Byte) : Prop :=
  ∀ i b, LengthAt bytes i → bytes[i]? = some b → b.toNat < 192

/-- The length bytes behind the first label. -/
theorem LengthAt.behind {l rest : List Byte} (ok : LabelOk l) {i : Nat} (h : LengthAt rest i) :
    LengthAt (UInt8.ofNat l.length :: (l ++ rest)) (1 + l.length + i) := by
  have shift : ∀ j, (UInt8.ofNat l.length :: (l ++ rest))[1 + l.length + j]? = rest[j]? := by
    intro j
    rw [Nat.add_assoc, Nat.add_comm 1, List.getElem?_cons_succ, List.getElem?_append_right
      (Nat.le_add_right _ _), Nat.add_sub_cancel_left]
  induction h with
  | first =>
    have := @LengthAt.next (UInt8.ofNat l.length :: (l ++ rest)) 0 _ .first rfl
      (by rw [ok.toNat_length]; exact ok.1) (by rw [ok.toNat_length]; exact ok.2)
    rw [ok.toNat_length] at this
    simpa using this
  | @next i b _ hb pos short ih =>
    have := ih.next ((shift i).trans hb) pos short
    rwa [show 1 + l.length + i + 1 + b.toNat = 1 + l.length + (i + 1 + b.toNat) by omega] at this

theorem Uncompressed.behind {l rest : List Byte} (ok : LabelOk l)
    (h : Uncompressed (UInt8.ofNat l.length :: (l ++ rest))) : Uncompressed rest := by
  intro i b hi hb
  refine h _ b (hi.behind ok) ?_
  rw [Nat.add_assoc, Nat.add_comm 1, List.getElem?_cons_succ, List.getElem?_append_right
    (Nat.le_add_right _ _), Nat.add_sub_cancel_left]
  exact hb

/-- Without pointers the program reads the labels that stand there. -/
theorem Uncompressed.readAs_iff {packet bytes : List Byte} (h : Uncompressed bytes)
    {ls : List Label} :
    ReadAs packet bytes ls ↔ (∀ l ∈ ls, LabelOk l) ∧ wire ls <+: bytes := by
  constructor
  · intro hr
    induction hr with
    | @root rest => exact ⟨by simp, rest, rfl⟩
    | @label l rest ls ok tail ih =>
      obtain ⟨hok, rest', he⟩ := ih (h.behind ok)
      exact ⟨List.forall_mem_cons.mpr ⟨ok, hok⟩, rest', by simp [wire, ← he]⟩
    | pointer jump _ _ =>
      obtain ⟨high⟩ := jump
      exact absurd (h 0 _ .first rfl) (Nat.not_lt.mpr high)
  · rintro ⟨hok, rest, rfl⟩
    exact readAs_wire hok packet rest

theorem entered_wire {ls : List Label} {bytes : List Byte} (h : wire ls <+: bytes)
    (hl : (wire ls).length ≤ 256) : Entered bytes := by
  obtain ⟨rest, rfl⟩ := h
  obtain ⟨n, hn, hlt⟩ := strlen_wire ls rest
  exact ⟨n, hn, by omega⟩

/-- An uncompressed name is accepted exactly when its labels have at most 63 bytes, end with
a zero byte and take at most 256 bytes. Unless it is the root, the string it leaves can be
copied by `resolveA`. -/
theorem accepted_iff (mem : Memory) (name : Address) (message : Region)
    (plain : Uncompressed (mem.from name)) :
    ((∃ n, (decodeNameAt mem name message 256).1 = .ok n) ↔
      ∃ ls, (∀ l ∈ ls, LabelOk l) ∧ wire ls <+: mem.from name ∧ (wire ls).length ≤ 256) ∧
    ∀ n log, decodeNameAt mem name message 256 = (.ok n, log) → ∀ ls, ls ≠ [] →
      (∀ l ∈ ls, LabelOk l) → wire ls <+: mem.from name → ∀ buf, buf.length = 256 →
        0 ∈ outputBuffer buf log ∧ (cstr (outputBuffer buf log)).length ≤ 254 ∧
          ¬ (cstr (outputBuffer buf log)).length + 1 > maxDnsNameLength := by
  have object : 256 < 9223372036854775808 := by decide
  refine ⟨?_, fun n log h ls hne hok hw buf hbuf => ?_⟩
  · simp only [decodeNameAt_ok_iff object, returned_iff object, plain.readAs_iff]
    constructor
    · rintro ⟨_, ls, ⟨_, ⟨hok, hw⟩, room⟩, _⟩
      exact ⟨ls, hok, hw, room⟩
    · rintro ⟨ls, hok, hw, hl⟩
      exact ⟨_, ls, ⟨entered_wire hw hl, ⟨hok, hw⟩, hl⟩, rfl⟩
  · obtain ⟨ks, returned, rfl⟩ := (decodeNameAt_ok_iff object).mp (congrArg Prod.fst h)
    obtain rfl := returned.reads.unique (plain.readAs_iff.mpr ⟨hok, hw⟩)
    have room : (wire ks).length ≤ 256 := returned.room
    have buffer : text ks ++ [0, dot] <+:
        outputBuffer buf (decodeNameAt mem name message 256).2 :=
      returned.terminated hne (Nat.le_of_eq hbuf.symm)
    rw [h] at buffer
    have hlen := length_wire hne
    obtain ⟨rest, he⟩ := buffer
    have hc : cstr (outputBuffer buf log) = cstr (text ks) := by
      rw [← he, List.append_assoc]
      exact cstr_append_zero _ _
    have := length_cstr_le (text ks)
    rw [hc]
    unfold maxDnsNameLength
    exact ⟨by rw [← he]; simp, by omega, by omega⟩

theorem accepted_iff_plain :
    Uncompressed (plainRequest.drop 12) ∧
      ∃ n, (decodeNameAt (fun _ => plainRequest) ⟨.packet, 12⟩ .packet 256).1 = .ok n := by
  have plain : Uncompressed (plainRequest.drop 12) := by
    intro i b _ hb
    have small : ∀ c ∈ plainRequest.drop 12, c.toNat < 192 := by decide +kernel
    exact small b (List.mem_of_getElem? hb)
  exact ⟨plain, (accepted_iff (fun _ => plainRequest) ⟨.packet, 12⟩ .packet plain).1.mpr
    ⟨[[97]], by decide, ⟨[0, 1, 0, 1], rfl⟩, by decide⟩⟩

end OdbcDns
