import OdbcDns.Proofs.Questions

namespace OdbcDns
open Slice Rfc1035

/-- A row's record with its owner written as a pointer when the name is one of
`known`, by the lengths of its strings alone. -/
def Row.size (known : List (List Byte)) (row : Row) : Nat :=
  (if cstr row.name ∈ known then 2 else (cstr row.name).length + 2) + 10 +
    (if row.type = typeA then 4 else (cstr row.value).length + 2)

/-- The names known after the record of a row. -/
def Row.known (known : List (List Byte)) (row : Row) : List (List Byte) :=
  if row.type = typeCname then cstr row.value :: known else known

/-- The sizes of the records of all rows. -/
def recordSizes : List (List Byte) → List Row → List Nat
  | _, [] => []
  | known, row :: rows => row.size known :: recordSizes (row.known known) rows

@[simp] theorem length_recordSizes (known : List (List Byte)) (rows : List Row) :
    (recordSizes known rows).length = rows.length := by
  induction rows generalizing known with
  | nil => rfl
  | cons row rows ih => simp [recordSizes, ih]

theorem Row.size_pos (known : List (List Byte)) (row : Row) : 12 ≤ row.size known := by
  unfold Row.size
  split <;> omega

theorem length_le_recordSizes (known : List (List Byte)) (rows : List Row) :
    12 * rows.length ≤ (recordSizes known rows).sum := by
  induction rows generalizing known with
  | nil => simp
  | cons row rows ih =>
    have h := ih (row.known known)
    have hs := row.size_pos known
    simp only [recordSizes, List.sum_cons, List.length_cons]
    omega

theorem le_of_mem_recordSizes {known : List (List Byte)} {rows : List Row} {n : Nat}
    (h : n ∈ recordSizes known rows) : 12 ≤ n := by
  induction rows generalizing known with
  | nil => simp [recordSizes] at h
  | cons row rows ih =>
    rcases List.mem_cons.mp h with rfl | hn
    · exact row.size_pos known
    · exact ih hn

theorem getString_ok {text buf out : List Byte} (h : getString text buf = .ok out) :
    cstr out = cstr text ∧ (cstr text).length ≤ 255 := by
  have := length_cstr_le text
  obtain ⟨rest, rfl⟩ := getString_append h
  refine ⟨cstr_append_zero text rest, ?_⟩
  unfold getString at h
  split at h
  · cases h
  · omega

/-- Each label is written with its length byte in place of its dot. -/
theorem encodeLoop_length {bufLen fuel : Nat} {name bs : List Byte}
    (h : encodeLoop bufLen fuel name = .ok bs) (hl : name.length ≤ 255) :
    bs.length = name.length + 1 := by
  induction fuel generalizing name bs with
  | zero => cases h
  | succ fuel ih =>
    have htake : (name.takeWhile (· ≠ dot)).length ≤ name.length :=
      (List.takeWhile_sublist _).length_le
    have hm : (name.takeWhile (· ≠ dot)).length % 256 = (name.takeWhile (· ≠ dot)).length :=
      Nat.mod_eq_of_lt (by omega)
    simp only [encodeLoop, hm] at h
    split at h
    · cases h
    · split at h
      · rename_i hdot
        have hlt := length_takeWhile_lt hdot []
        rw [List.append_nil] at hlt
        rw [Except.bind_ok] at h
        obtain ⟨rest, hr, h⟩ := h
        have hi := ih hr (by rw [List.length_drop]; omega)
        cases h
        rw [List.length_drop] at hi
        simp only [List.length_cons, List.length_append, List.length_take, hi]
        omega
      · rename_i hdot
        have hself : name.takeWhile (· ≠ dot) = name := by
          rw [List.takeWhile_eq_self_iff]
          intro b hb
          simpa using fun he : b = dot => hdot (he ▸ hb)
        cases h
        rw [hself, List.take_length, List.length_cons]

theorem encodeName_length {name bs : List Byte} {bufLen : Nat}
    (h : encodeName name bufLen = .ok bs) (hl : name.length ≤ 255) :
    bs.length = name.length + 2 := by
  unfold encodeName at h
  rw [Except.bind_ok] at h
  obtain ⟨labels, hlab, h⟩ := h
  cases h
  simp [encodeLoop_length hlab hl]

theorem encodeOwner_length {name bs : List Byte} {bufLen : Nat} {t : PointerLocations}
    (h : DNSResourceRecord.encodeOwner name bufLen t = .ok bs) (hl : name.length ≤ 255) :
    bs.length = if (t name).isSome then 2 else name.length + 2 := by
  unfold DNSResourceRecord.encodeOwner at h
  cases ht : t name with
  | none =>
    simp only [ht] at h
    simpa using encodeName_length h hl
  | some loc =>
    simp only [ht] at h
    split at h
    · cases h
    · cases h
      rfl

theorem parseFields_length {n : Nat} {ptr addr : List Byte}
    (h : DNSRDataA.parseFields n ptr = .ok addr) : addr.length = n := by
  induction n generalizing ptr addr with
  | zero =>
    cases h
    rfl
  | succ n ih =>
    simp only [DNSRDataA.parseFields, Except.bind_ok] at h
    obtain ⟨temp, _, h⟩ := h
    split at h
    · cases h
    · split at h
      · cases h
      · rw [Except.bind_ok] at h
        obtain ⟨rest, hr, h⟩ := h
        cases h
        simp [ih hr]

/-- The data written for a row: four bytes, or the name in its value. -/
theorem encodeRData_length {type : UInt16} {valueBuf bs : List Byte} {rdata : DNSRData} {k : Int}
    (hm : makeRData type valueBuf = .ok rdata) (he : rdata.encode k = .ok bs)
    (hl : (cstr valueBuf).length ≤ 255) :
    bs.length = if type = typeA then 4 else (cstr valueBuf).length + 2 := by
  unfold makeRData at hm
  split at hm
  · rename_i ht
    cases ha : DNSRDataA.ofText valueBuf with
    | error e => simp [ha, Except.map] at hm
    | ok d =>
      simp only [ha, Except.map, Except.ok.injEq] at hm
      subst hm
      simp only [DNSRDataA.ofText, Except.bind_ok] at ha
      obtain ⟨_, _, ha⟩ := ha
      split at ha
      · cases ha
      · rw [Except.bind_ok] at ha
        obtain ⟨addr, hp, ha⟩ := ha
        cases ha
        simp only [DNSRData.encode, DNSRDataA.encode] at he
        split at he
        · cases he
        · cases he
          rw [if_pos ht, parseFields_length hp]
  · rename_i ht
    split at hm
    · unfold DNSRDataCNAME.ofText at hm
      split at hm
      · cases hm
      · simp only [Except.map, Except.ok.injEq] at hm
        subst hm
        rw [if_neg ht]
        exact encodeName_length he hl
    · cases hm

/-- The names in the table of the encoder. -/
def Knows (t : PointerLocations) (known : List (List Byte)) : Prop :=
  ∀ m, (t m).isSome ↔ m ∈ known

/-- The record of any row that is written has the size read off the row. -/
theorem encodeRow_size {cfg : Config} {row : Row} {l l' : RowLoop} {n : Nat} {s s' : Session}
    {known : List (List Byte)} (h : encodeRow cfg row l s = (.ok (l', n), s'))
    (hk : Knows s.pointerLocations known) :
    n = row.size known ∧ Knows s'.pointerLocations (row.known known) ∧ l.ptr + n ≤ 1024 ∧
      s'.packet.bytes.take l.ptr = s.packet.bytes.take l.ptr := by
  obtain ⟨valueBuf, nameBuf, rdata, rr, packet, hv, hn, hr, he, _, hs⟩ := encodeRow_inv h
  obtain ⟨hcv, hlv⟩ := getString_ok hv
  obtain ⟨hcn, hln⟩ := getString_ok hn
  obtain ⟨owner, rdata', data, ho, hrd, hd, hsize, hle, _⟩ := encode_ok he
  cases Option.some.inj hrd
  rw [hcn] at ho
  have hol := encodeOwner_length ho hln
  have hdl := encodeRData_length hr hd (by rw [hcv]; exact hlv)
  refine ⟨?_, ?_, hle, ?_⟩
  · rw [hsize, hol, hdl, hcv, Row.size]
    simp only [hk (cstr row.name)]
  · subst hs
    intro m
    rw [hcv]
    unfold Row.known
    by_cases ht : row.type = typeCname
    · by_cases hnone : s.pointerLocations (cstr row.value) = none
      · simp only [ht, hnone, and_self, if_true, PointerLocations.insert, List.mem_cons]
        by_cases hm : m = cstr row.value
        · simp [hm]
        · simp [hm, hk m]
      · have hmem : cstr row.value ∈ known := by
          rw [← hk]
          exact Option.isSome_iff_ne_none.mpr hnone
        simp only [ht, hnone, and_false, if_false, if_true, List.mem_cons, hk m]
        constructor
        · exact .inr
        · rintro (rfl | hm)
          · exact hmem
          · exact hm
    · simp only [ht, false_and, if_false, hk m]
  · subst hs
    exact encode_take he (Nat.le_refl _)

end OdbcDns
