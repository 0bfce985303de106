import OdbcDns.Proofs.Contained

/-! Addresses as text and as the data of upstream records. -/

namespace OdbcDns
open Slice Rfc1035

/-- The text that `decode` makes of an address fits its array, and the constructor reads it
back. -/
theorem address_round_trip (q : Quad) (uninit : Nat → Byte) (behind behind' : List Byte)
    {bufLen : Int} (room : 4 ≤ toSize bufLen) :
    ∃ d d', DNSRDataA.decode uninit (q.octets ++ behind) 4 = .ok d ∧ d.value = q.text ∧
      d.value.length + 1 ≤ 16 ∧ DNSRDataA.ofText (d.value ++ 0 :: behind') = .ok d' ∧
      d'.encode bufLen = .ok q.octets := by
  refine ⟨⟨q.octets, q.text⟩, ⟨q.octets, q.text⟩, q.decode uninit behind, rfl, ?_,
    q.ofText behind', ?_⟩
  · exact Nat.succ_le_succ q.length_text_le
  · exact if_neg (Nat.not_lt.mpr room)

/-- All fields take three digits: the last dot just fits. -/
theorem address_round_trip_longest :
    ∃ d d', DNSRDataA.decode (fun _ => 0) [255, 255, 255, 255] 4 = .ok d ∧
      d.value = Quad.text ⟨255, 255, 255, 255⟩ ∧ d.value.length + 1 ≤ 16 ∧
      DNSRDataA.ofText (d.value ++ [0]) = .ok d' ∧ d'.encode 4 = .ok [255, 255, 255, 255] :=
  address_round_trip ⟨255, 255, 255, 255⟩ (fun _ => 0) [] [] (by decide)

/-- A copy that is not too long always gives some address. -/
theorem DNSRDataA.decode_of_short (uninit : Nat → Byte) {buffer : List Byte} {bufLen : Nat}
    (short : ¬ bufLen > 4) (enough : bufLen ≤ buffer.length) :
    ∃ q : Quad, DNSRDataA.decode uninit buffer bufLen = .ok ⟨q.octets, q.text⟩ := by
  let octet (i : Nat) : Byte := if i < bufLen then byteAt buffer i else uninit i
  let q : Quad := ⟨octet 0, octet 1, octet 2, octet 3⟩
  have copied : [0, 1, 2, 3].map octet = q.octets := rfl
  refine ⟨q, ?_⟩
  rw [DNSRDataA.decode, if_neg short, if_neg (Nat.not_lt.mpr enough)]
  simp only [octet] at copied
  simp only [copied, q.formatFields, bind, Except.bind]

section Append

/-! What is read from a datagram is read in the same way when more memory follows. -/

variable {d : List Byte} (rest : List Byte)

theorem drop_append_of_ne_nil {off : Nat} (h : d.drop off ≠ []) :
    (d ++ rest).drop off = d.drop off ++ rest := by
  have lt : off < d.length := Nat.lt_of_not_le fun hle => h (List.drop_eq_nil_of_le hle)
  exact List.drop_append_of_le_length (Nat.le_of_lt lt)

theorem ReadAs.append {loc : List Byte} {ls : List Label} (h : ReadAs d loc ls) :
    ReadAs (d ++ rest) (loc ++ rest) ls := by
  induction h with
  | root => exact .root
  | @label l tail ls ok _ ih =>
    rw [List.cons_append, List.append_assoc]
    exact .label ok ih
  | @pointer loc loc' ls jump tail ih =>
    cases jump with
    | mk high =>
      rw [← drop_append_of_ne_nil rest tail.ne_nil] at ih
      exact .pointer (.mk high) ih

theorem Entered.append {name : List Byte} (h : Entered name) : Entered (name ++ rest) := by
  obtain ⟨n, hn, hle⟩ := h
  unfold strlen at hn
  split at hn
  · rename_i zero
    cases hn
    refine ⟨(cstr name).length, ?_, hle⟩
    rw [strlen, if_pos (List.mem_append_left _ zero), cstr_append_of_mem zero]
  · cases hn

end Append

/-- An address record with the given data is rejected, or it is taken for the address that
its data is. -/
def Handled (own : List Byte) : Except Stop (DNSResourceRecord × Nat) → Prop
  | .error (.exception _) => True
  | .error _ => False
  | .ok (rr, _) => ∃ q : Quad, own = q.octets ∧ rr.rdata = some (.a ⟨q.octets, q.text⟩)

end OdbcDns
