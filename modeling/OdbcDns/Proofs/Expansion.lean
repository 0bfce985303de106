import OdbcDns.Proofs.NameTermination

namespace OdbcDns
open Rfc1035 Slice

/-- The labels that the program reads from a place on. It differs from RFC 1035 in where
a pointer leads. A derivation is finite, so pointers that go round read as no name. -/
inductive ReadAs (packet : List Byte) : List Byte → List Label → Prop
  | root {rest : List Byte} : ReadAs packet (0 :: rest) []
  | label {l : Label} {rest : List Byte} {ls : List Label} (ok : LabelOk l)
      (tail : ReadAs packet rest ls) : ReadAs packet (UInt8.ofNat l.length :: (l ++ rest)) (l :: ls)
  | pointer {loc loc' : List Byte} {ls : List Label} (jump : Jump packet loc loc')
      (tail : ReadAs packet loc' ls) : ReadAs packet loc ls

/-- A name that is spelled out is read as it stands. -/
theorem readAs_wire {ls : List Label} (hok : ∀ l ∈ ls, LabelOk l) (packet rest : List Byte) :
    ReadAs packet (wire ls ++ rest) ls := by
  induction ls with
  | nil => exact .root
  | cons l ls ih =>
    have tail := ih fun k hk => hok k (by simp [hk])
    simpa [wire] using ReadAs.label (hok l (by simp)) tail

theorem ReadAs.ne_nil {packet loc : List Byte} {ls : List Label} (h : ReadAs packet loc ls) :
    loc ≠ [] := by
  rintro rfl
  cases h with
  | pointer jump _ => cases jump

theorem length_dotted (ls : List Label) : (dotted ls).length = (wire ls).length := by
  induction ls with
  | nil => rfl
  | cons l ls ih =>
    simp only [dotted, wire, List.length_append, List.length_cons, ih]
    omega

section Loop

variable {packet : List Byte} {bufLen : Nat}

/-- When the loop comes to its end, it has written the labels of the name it read. -/
theorem readAs_of_decodeLoop {fuel : Nat} {loc out r : List Byte}
    (h : decodeLoop packet bufLen fuel loc out = .ok r) :
    ∃ ls, ReadAs packet loc ls ∧ r = out ++ dotted ls ∧ r.length ≤ bufLen := by
  induction fuel generalizing loc out with
  | zero => cases h
  | succ fuel ih =>
    rcases @decodeLoop_turn packet bufLen loc out fuel with
      ⟨loc', hj, he⟩ | ⟨l, rest, ok, rfl, _, he⟩ | ⟨rest, rfl, room, he⟩ | ⟨e, _, he⟩
    · obtain ⟨ls, hr, hs⟩ := ih (he ▸ h)
      exact ⟨ls, .pointer hj hr, hs⟩
    · obtain ⟨ls, hr, hs, hle⟩ := ih (he ▸ h)
      exact ⟨l :: ls, .label ok hr, by simp [hs, dotted], hle⟩
    · cases he.symm.trans h
      exact ⟨[], .root, rfl, by simpa using room⟩
    · cases he.symm.trans h

/-- A name that finds room is written as soon as the turns suffice to read it. -/
theorem ReadAs.turns {loc : List Byte} {ls : List Label} (h : ReadAs packet loc ls) :
    ∃ turns, ∀ out : List Byte, out.length + (dotted ls).length ≤ bufLen → ∀ fuel,
      decodeLoop packet bufLen fuel loc out =
        if turns < fuel then .ok (out ++ dotted ls) else .error (.fault .hang) := by
  induction h with
  | @root rest =>
    refine ⟨0, fun out room fuel => ?_⟩
    cases fuel with
    | zero => rfl
    | succ fuel =>
      rw [if_pos (Nat.succ_pos fuel)]
      exact @decodeLoop_wire [] (by simp) packet rest bufLen _ out room (by simp)
  | @label l rest ls ok tail ih =>
    obtain ⟨turns, ht⟩ := ih
    refine ⟨turns + 1, fun out room fuel => ?_⟩
    have hlen : (dotted (l :: ls)).length = l.length + 1 + (dotted ls).length := by
      simp only [dotted, List.length_append, List.length_cons]
      omega
    cases fuel with
    | zero => rfl
    | succ fuel =>
      rw [decodeLoop_label ok packet (by omega),
        ht _ (by simp only [List.length_append, List.length_singleton]; omega)]
      simp [dotted]
  | pointer jump tail ih =>
    obtain ⟨turns, ht⟩ := ih
    refine ⟨turns + 1, fun out room fuel => ?_⟩
    cases fuel with
    | zero => rfl
    | succ fuel =>
      rw [decodeLoop_jump jump, ht out room]
      simp

/-- The turns that the model allows are enough for any name. -/
theorem ReadAs.decodeLoop {loc : List Byte} {ls : List Label} (h : ReadAs packet loc ls)
    (room : (dotted ls).length ≤ bufLen) {fuel : Nat} (enough : decodeFuel bufLen ≤ fuel) :
    decodeLoop packet bufLen fuel loc [] = .ok (dotted ls) := by
  obtain ⟨turns, ht⟩ := @ReadAs.turns packet bufLen loc ls h
  have run := ht [] (by simpa using room)
  rw [run fuel]
  split
  · rfl
  · rename_i few
    have hang := run fuel
    rw [if_neg few] at hang
    obtain ⟨b, hb⟩ := (decodeLoop_hang_iff _ _ _).mp hang
    have long : (bufLen + 1) * 16386 ≤ decodeFuel bufLen := Nat.mul_le_mul_right _ (by omega)
    have circles := circles_of_walk bufLen hb (by simp) (Nat.le_trans long enough)
    have never := (decodeLoop_hang_iff _ _ []).mpr (circles.endless (turns + 1))
    rw [run (turns + 1), if_pos (Nat.lt_succ_self turns)] at never
    cases never

/-- The loop ends normally exactly for names that find room, and leaves their labels. -/
theorem decodeLoop_ok_iff {loc out : List Byte} {fuel : Nat} (enough : decodeFuel bufLen ≤ fuel) :
    OdbcDns.decodeLoop packet bufLen fuel loc [] = .ok out ↔
      ∃ ls, ReadAs packet loc ls ∧ out = dotted ls ∧ out.length ≤ bufLen := by
  constructor
  · intro h
    simpa using readAs_of_decodeLoop h
  · rintro ⟨ls, hr, rfl, room⟩
    exact hr.decodeLoop room enough

end Loop

theorem terminated_dotted {ls : List Label} (h : ls ≠ []) :
    (dotted ls).set ((dotted ls).length - 2) 0 = text ls ++ [0, dot] := by
  rw [dotted_eq h, List.length_append, List.length_cons, List.length_singleton,
    Nat.add_sub_cancel, List.set_append_right _ _ (Nat.le_refl _), Nat.sub_self]
  rfl

/-- `decodeName` returns exactly for names other than the root that fit the buffer and
whose first zero byte comes soon enough. -/
theorem decodeName_ok_iff {name packet t : List Byte} {bufLen n : Nat} :
    decodeName name packet bufLen = .ok (t, n) ↔ Entered name ∧
      ∃ ls, ReadAs packet name ls ∧ ls ≠ [] ∧ t = cstr (text ls) ∧ n = (wire ls).length ∧
        n ≤ bufLen := by
  unfold decodeName decodeNameWithin Entered
  constructor
  · intro h
    obtain ⟨k, hk, h⟩ := Except.bind_ok.mp h
    split at h
    · cases h
    rename_i hle
    obtain ⟨out, hout, h⟩ := Except.bind_ok.mp h
    obtain ⟨ls, hr, rfl, room⟩ := (decodeLoop_ok_iff (Nat.le_refl _)).mp hout
    split at h
    · cases h
    rename_i two
    have hne : ls ≠ [] := by
      rintro rfl
      exact two (by decide)
    rw [terminated_dotted hne] at h
    simp only [Except.ok.injEq, Prod.mk.injEq] at h
    refine ⟨⟨k, hk, Nat.le_of_not_lt hle⟩, ls, hr, hne, ?_, ?_, ?_⟩
    · rw [← h.1]
      exact cstr_append_zero _ _
    · rw [← h.2, length_dotted]
    · rw [← h.2]
      exact room
  · rintro ⟨⟨k, hk, hle⟩, ls, hr, hne, rfl, rfl, room⟩
    have loop : decodeLoop packet bufLen (decodeFuel bufLen) name [] = .ok (dotted ls) :=
      hr.decodeLoop (by rwa [length_dotted]) (Nat.le_refl _)
    have two : ¬ (dotted ls).length < 2 := by simp [dotted_eq hne]
    simp only [hk, bind, Except.bind, Nat.not_lt.mpr hle, if_false, loop, two,
      terminated_dotted hne]
    rw [show text ls ++ [0, dot] = text ls ++ 0 :: [dot] from rfl, cstr_append_zero,
      length_dotted]

theorem Jump.high {packet loc loc' : List Byte} {b : Byte} {rest : List Byte}
    (h : Jump packet loc loc') (hl : loc = b :: rest) : 192 ≤ b.toNat := by
  obtain ⟨high⟩ := h
  cases hl
  exact high

theorem Jump.unique {packet loc loc' loc'' : List Byte} (h : Jump packet loc loc')
    (k : Jump packet loc loc'') : loc' = loc'' := by
  obtain ⟨_⟩ := h
  cases k
  rfl

/-- A pointer is not a label. -/
theorem Jump.not_label {packet rest loc' : List Byte} {l : Label} (ok : LabelOk l)
    (h : Jump packet (UInt8.ofNat l.length :: (l ++ rest)) loc') : False := by
  have high := h.high rfl
  rw [ok.toNat_length] at high
  have := ok.2
  omega

theorem Jump.not_root {packet rest loc' : List Byte} (h : Jump packet (0 :: rest) loc') : False :=
  absurd (h.high rfl) (by decide)

/-- A place reads as one name only. -/
theorem ReadAs.unique {packet loc : List Byte} {ls ks : List Label} (h : ReadAs packet loc ls)
    (k : ReadAs packet loc ks) : ls = ks := by
  induction h generalizing ks with
  | @root rest =>
    generalize hloc : (0 : Byte) :: rest = loc at k
    cases k with
    | root => rfl
    | label ok _ => exact absurd (List.cons.inj hloc).1.symm ok.ofNat_ne_zero
    | pointer jump _ => exact (Jump.not_root (hloc ▸ jump)).elim
  | @label l rest ls ok tail ih =>
    generalize hloc : UInt8.ofNat l.length :: (l ++ rest) = loc at k
    cases k with
    | root => exact absurd (List.cons.inj hloc).1 ok.ofNat_ne_zero
    | @label l' rest' ls' ok' tail' =>
      obtain ⟨rfl, rfl⟩ := ok.cons_inj ok' hloc
      rw [ih tail']
    | pointer jump _ => exact (Jump.not_label ok (hloc ▸ jump)).elim
  | pointer jump tail ih =>
    cases k with
    | root => exact jump.not_root.elim
    | label ok _ => exact (jump.not_label ok).elim
    | pointer jump' tail' => exact ih (jump.unique jump' ▸ tail')

end OdbcDns
