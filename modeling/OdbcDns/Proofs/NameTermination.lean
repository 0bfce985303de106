import OdbcDns.Proofs.Names
import OdbcDns.Lib.Walk

namespace OdbcDns
open Rfc1035

/-- A compression pointer at one place leads to the other. -/
inductive Jump (packet : List Byte) : List Byte → List Byte → Prop
  | mk {b0 b1 : Byte} {rest : List Byte} (high : 192 ≤ b0.toNat) :
      Jump packet (b0 :: b1 :: rest) (packet.drop (pointerOffset b0 b1))

/-- One turn of the loop of `decodeName` that is followed by another one, on the
place read from and the number of bytes written: a pointer is followed, or a
label and its dot have found room. -/
inductive Next (packet : List Byte) (bufLen : Nat) : List Byte × Nat → List Byte × Nat → Prop
  | jump {loc loc' : List Byte} {w : Nat} (h : Jump packet loc loc') :
      Next packet bufLen (loc, w) (loc', w)
  | label {l rest : List Byte} {w : Nat} (ok : LabelOk l) (room : w + l.length + 1 ≤ bufLen) :
      Next packet bufLen (UInt8.ofNat l.length :: (l ++ rest), w) (rest, w + l.length + 1)

theorem copyLabel_ok {bufLen n : Nat} {src out r : List Byte}
    (h : copyLabel bufLen n src out = .ok r) : n ≤ src.length ∧ r = out ++ src.take n := by
  induction n generalizing src out with
  | zero =>
    simp only [copyLabel, Except.ok.injEq] at h
    simp [h]
  | succ n ih =>
    unfold copyLabel at h
    split at h
    · cases h
    · cases src with
      | nil => cases h
      | cons c rest =>
        obtain ⟨hn, hr⟩ := ih h
        refine ⟨Nat.succ_le_succ hn, ?_⟩
        rw [hr, List.take_succ_cons, List.append_assoc, List.singleton_append]

theorem copyLabel_length {bufLen n : Nat} {src out r : List Byte}
    (h : copyLabel bufLen n src out = .ok r) (hl : out.length ≤ bufLen) : r.length ≤ bufLen := by
  induction n generalizing src out with
  | zero =>
    cases h
    exact hl
  | succ n ih =>
    unfold copyLabel at h
    split at h
    · cases h
    · rename_i room
      cases src with
      | nil => cases h
      | cons c rest => exact ih h (by rw [List.length_append, List.length_singleton]; omega)

theorem copyLabel_error {bufLen n : Nat} {src out : List Byte} {e : Stop}
    (h : copyLabel bufLen n src out = .error e) : e = .fault .outOfBounds ∨
      e = .exception "Buffer too small" ∧ bufLen < out.length + n ∧
        bufLen - out.length ≤ src.length := by
  induction n generalizing src out with
  | zero => cases h
  | succ n ih =>
    unfold copyLabel at h
    split at h
    · cases h
      exact .inr ⟨rfl, by omega, by omega⟩
    · cases src with
      | nil =>
        cases h
        exact .inl rfl
      | cons c rest =>
        rcases ih h with outside | ⟨he, full, there⟩
        · exact .inl outside
        · rw [List.length_append, List.length_singleton] at full there
          rw [List.length_cons]
          exact .inr ⟨he, by omega, by omega⟩

theorem copyLabel_full {bufLen n : Nat} {src out : List Byte}
    (hn : bufLen - out.length ≤ src.length) (ho : out.length ≤ bufLen) (full : bufLen < out.length + n) :
    copyLabel bufLen n src out = .error (.exception "Buffer too small") := by
  induction n generalizing src out with
  | zero => omega
  | succ n ih =>
    unfold copyLabel
    split
    · rfl
    · rename_i room
      cases src with
      | nil =>
        rw [List.length_nil] at hn
        omega
      | cons b rest =>
        rw [List.length_cons] at hn
        refine ih ?_ ?_ ?_ <;> rw [List.length_append, List.length_singleton] <;> omega

/-- Why a turn of the loop ends the call, `w` bytes having been written: it reads outside
the packet, or a label is too long, or too long for the room that is left. -/
inductive Stopped (bufLen w : Nat) : List Byte → Stop → Prop
  | outside {loc : List Byte} : Stopped bufLen w loc (.fault .outOfBounds)
  | long {b : Byte} {rest : List Byte} (long : 63 < b.toNat) (low : b.toNat < 192) :
      Stopped bufLen w (b :: rest) (.exception "Label length longer than maximum of 63")
  | full {b : Byte} {rest : List Byte} (short : b.toNat ≤ 63) (full : bufLen < w + b.toNat + 1)
      (there : min b.toNat (bufLen - w) ≤ rest.length) :
      Stopped bufLen w (b :: rest) (.exception "Buffer too small")

theorem Stopped.ne_hang {bufLen w : Nat} {loc : List Byte} {e : Stop}
    (h : Stopped bufLen w loc e) : e ≠ .fault .hang := by
  cases h <;> simp

/-- A label that is refused makes the call throw. -/
theorem Stopped.decodeLoop {bufLen : Nat} {loc out : List Byte} {what : String}
    (h : Stopped bufLen out.length loc (.exception what)) (ho : out.length ≤ bufLen)
    (packet : List Byte) (fuel : Nat) :
    decodeLoop packet bufLen (fuel + 1) loc out = .error (.exception what) := by
  cases h with
  | @long b rest long low =>
    have hp : ¬ charToUnsigned b &&& 0xC0 = 0xC0 := by
      rw [charToUnsigned_pointer]
      omega
    have hm := (charToUnsigned_long b).mpr long
    simp only [OdbcDns.decodeLoop, hp, hm, if_false, if_true]
  | @full b rest short full there =>
    have hp : ¬ charToUnsigned b &&& 0xC0 = 0xC0 := by
      rw [charToUnsigned_pointer]
      omega
    have hm : ¬ charToUnsigned b > 63 := by
      rw [charToUnsigned_long]
      omega
    simp only [OdbcDns.decodeLoop, hp, hm, if_false]
    by_cases copied : out.length + b.toNat ≤ bufLen
    · -- the label finds room, but its dot does not
      have enough : b.toNat ≤ rest.length := by omega
      have label := @copyLabel_append bufLen (rest.take b.toNat) (rest.drop b.toNat) out
        (by rwa [List.length_take_of_le enough])
      rw [List.take_append_drop, List.length_take_of_le enough] at label
      rw [label]
      simp only [bind, Except.bind, List.length_append, List.length_take_of_le enough]
      exact if_pos (by omega)
    · rw [copyLabel_full (by omega) ho (by omega)]
      rfl

section Loop

variable {packet : List Byte} {bufLen : Nat}

theorem decodeLoop_jump {loc loc' : List Byte} (h : Jump packet loc loc') (fuel : Nat)
    (out : List Byte) :
    decodeLoop packet bufLen (fuel + 1) loc out = decodeLoop packet bufLen fuel loc' out := by
  obtain ⟨high⟩ := h
  simp only [decodeLoop, (charToUnsigned_pointer _).mpr high, if_true]

/-- What one turn of the loop does: it follows a pointer, it copies a label that finds
room, it ends with the root, or it ends the call. -/
theorem decodeLoop_turn (loc out : List Byte) (fuel : Nat) :
    (∃ loc', Jump packet loc loc' ∧
      decodeLoop packet bufLen (fuel + 1) loc out = decodeLoop packet bufLen fuel loc' out) ∨
    (∃ l rest, LabelOk l ∧ loc = UInt8.ofNat l.length :: (l ++ rest) ∧
      out.length + l.length + 1 ≤ bufLen ∧ decodeLoop packet bufLen (fuel + 1) loc out =
        decodeLoop packet bufLen fuel rest (out ++ l ++ [dot])) ∨
    (∃ rest, loc = 0 :: rest ∧ out.length + 1 ≤ bufLen ∧
      decodeLoop packet bufLen (fuel + 1) loc out = .ok (out ++ [dot])) ∨
    ∃ e, Stopped bufLen out.length loc e ∧
      decodeLoop packet bufLen (fuel + 1) loc out = .error e := by
  cases loc with
  | nil => exact .inr (.inr (.inr ⟨_, .outside, rfl⟩))
  | cons b0 rest =>
    by_cases hp : charToUnsigned b0 &&& 0xC0 = 0xC0
    · cases rest with
      | nil =>
        refine .inr (.inr (.inr ⟨_, .outside, ?_⟩))
        simp only [decodeLoop, hp, if_true]
      | cons b1 rest =>
        have jump : Jump packet (b0 :: b1 :: rest) _ := ⟨(charToUnsigned_pointer b0).mp hp⟩
        exact .inl ⟨_, jump, decodeLoop_jump jump fuel out⟩
    · have low : b0.toNat < 192 := by
        rw [charToUnsigned_pointer] at hp
        exact Nat.lt_of_not_le hp
      by_cases long : 63 < b0.toNat
      · have hm := (charToUnsigned_long b0).mpr long
        refine .inr (.inr (.inr ⟨_, .long long low, ?_⟩))
        simp only [decodeLoop, hp, hm, if_false, if_true]
      have hb : b0.toNat ≤ 63 := Nat.le_of_not_lt long
      have hm : ¬ charToUnsigned b0 > 63 := by rwa [charToUnsigned_long]
      simp only [decodeLoop, hp, hm, if_false]
      cases hc : copyLabel bufLen b0.toNat rest out with
      | error e =>
        rcases copyLabel_error hc with rfl | ⟨rfl, full, there⟩
        · exact .inr (.inr (.inr ⟨_, .outside, rfl⟩))
        · exact .inr (.inr (.inr ⟨_, .full hb (by omega) (by omega), rfl⟩))
      | ok r =>
        obtain ⟨hlen, rfl⟩ := copyLabel_ok hc
        simp only [bind, Except.bind]
        split
        · rename_i full
          rw [List.length_append, List.length_take_of_le hlen] at full
          exact .inr (.inr (.inr ⟨_, .full hb (by omega) (by omega), rfl⟩))
        rename_i hroom
        split
        · rename_i hz
          subst hz
          refine .inr (.inr (.inl ⟨rest, rfl, ?_, ?_⟩))
          · simp only [UInt8.toNat_zero, List.take_zero, List.append_nil] at hroom
            omega
          · simp
        rename_i hz
        -- what is left is a label that has found room
        have hne : b0.toNat ≠ 0 := fun h0 => hz (UInt8.toNat_inj.mp h0)
        have hl : (rest.take b0.toNat).length = b0.toNat := List.length_take_of_le hlen
        rw [List.length_append, hl] at hroom
        refine .inr (.inl ⟨rest.take b0.toNat, rest.drop b0.toNat, ⟨by omega, by omega⟩, ?_,
          by omega, rfl⟩)
        rw [hl, List.take_append_drop, UInt8.ofNat_toNat]

/-- A turn after which there is no other one ends the call. -/
theorem decodeLoop_last {loc out : List Byte} (h : ∀ b, ¬ Next packet bufLen (loc, out.length) b)
    (fuel : Nat) : decodeLoop packet bufLen (fuel + 1) loc out ≠ .error (.fault .hang) := by
  rcases decodeLoop_turn loc out fuel with ⟨_, hj, _⟩ | ⟨l, rest, ok, rfl, room, _⟩ |
    ⟨_, _, _, he⟩ | ⟨e, stopped, he⟩
  · exact absurd (.jump hj) (h _)
  · exact absurd (.label ok room) (h _)
  · simp [he]
  · simpa [he] using stopped.ne_hang

/-- The loop uses up its turns exactly when that many can follow one another. -/
theorem decodeLoop_hang_iff (fuel : Nat) (loc out : List Byte) :
    decodeLoop packet bufLen fuel loc out = .error (.fault .hang) ↔
      ∃ b, Walk (Next packet bufLen) fuel (loc, out.length) b := by
  induction fuel generalizing loc out with
  | zero => exact ⟨fun _ => ⟨_, .here _⟩, fun _ => rfl⟩
  | succ fuel ih =>
    constructor
    · intro h
      by_cases hn : ∃ b, Next packet bufLen (loc, out.length) b
      · obtain ⟨b, hb⟩ := hn
        cases hb with
        | jump hj =>
          rw [decodeLoop_jump hj] at h
          obtain ⟨c, hc⟩ := (ih _ out).mp h
          exact ⟨c, .step (.jump hj) hc⟩
        | @label l rest _ ok room =>
          rw [decodeLoop_label ok packet room] at h
          obtain ⟨c, hc⟩ := (ih _ _).mp h
          simp only [List.length_append, List.length_singleton] at hc
          exact ⟨c, .step (.label ok room) hc⟩
      · exact absurd h (decodeLoop_last (fun b hb => hn ⟨b, hb⟩) fuel)
    · rintro ⟨c, hw⟩
      obtain ⟨b, hb, hc⟩ := Walk.succ_iff.mp hw
      cases hb with
      | jump hj =>
        rw [decodeLoop_jump hj]
        exact (ih _ out).mpr ⟨c, hc⟩
      | @label l rest _ ok room =>
        rw [decodeLoop_label ok packet room]
        refine (ih _ _).mpr ⟨c, ?_⟩
        simpa only [List.length_append, List.length_singleton] using hc

theorem next_of_jump {n : Nat} {loc loc' : List Byte} (h : Walk (Jump packet) n loc loc')
    (w : Nat) : Walk (Next packet bufLen) n (loc, w) (loc', w) := by
  induction h with
  | here a => exact .here _
  | step first _ ih => exact .step (.jump first) ih

/-- Either all turns of a run are jumps, or the first ones are, up to a label. -/
theorem first_label {n : Nat} {loc : List Byte} {w : Nat} {b : List Byte × Nat}
    (h : Walk (Next packet bufLen) n (loc, w) b) :
    (∃ loc', Walk (Jump packet) n loc loc') ∨ ∃ i m loc' w', n = i + 1 + m ∧
      (∃ loc'', Walk (Jump packet) i loc loc'') ∧ w < w' ∧ w' ≤ bufLen ∧
      Walk (Next packet bufLen) (i + 1) (loc, w) (loc', w') ∧
      Walk (Next packet bufLen) m (loc', w') b := by
  induction n generalizing loc with
  | zero => exact .inl ⟨loc, .here loc⟩
  | succ n ih =>
    obtain ⟨c, first, rest⟩ := Walk.succ_iff.mp h
    cases first with
    | jump hj =>
      rcases ih rest with ⟨loc', hw⟩ | ⟨i, m, loc', w', rfl, ⟨loc'', hi⟩, hlt, hle, hw, hb⟩
      · exact .inl ⟨loc', .step hj hw⟩
      · exact .inr ⟨i + 1, m, loc', w', by omega, ⟨loc'', .step hj hi⟩, hlt, hle,
          .step (.jump hj) hw, hb⟩
    | @label l r _ ok room =>
      exact .inr ⟨0, n, r, w + l.length + 1, by omega, ⟨_, .here _⟩, by omega, room,
        .single (.label ok room), rest⟩

theorem pointerOffset_lt (b0 b1 : Byte) : pointerOffset b0 b1 < 16384 := by
  rw [pointerOffset_eq, pointerTarget]
  have := b1.toNat_lt
  split <;> omega

/-- A place is reached from which pointers lead back to it. -/
def Circles (packet : List Byte) (bufLen : Nat) (loc : List Byte) (w : Nat) : Prop :=
  ∃ n loc' w', Walk (Next packet bufLen) n (loc, w) (loc', w') ∧
    ∃ m, Walk (Jump packet) (m + 1) loc' loc'

/-- More jumps than a pointer has values have gone round. -/
theorem circles_of_jumps {n : Nat} {loc loc' : List Byte} (h : Walk (Jump packet) n loc loc')
    (hn : 16384 < n) (w : Nat) : Circles packet bufLen loc w := by
  classical
  have loops : Loops (Jump packet) loc := by
    refine h.loops ((Finset.range 16384).image packet.drop) ?_ ?_
    · rintro _ _ ⟨high⟩
      exact Finset.mem_image_of_mem _ (Finset.mem_range.mpr (pointerOffset_lt _ _))
    · exact Nat.lt_of_le_of_lt Finset.card_image_le (by rwa [Finset.card_range])
  obtain ⟨k, m, c, hc, hm⟩ := loops
  exact ⟨k, c, w, next_of_jump hc w, m, hm⟩

theorem turns_left {room jumps i m : Nat} (h : (room + 1 + 1) * (jumps + 2) ≤ i + 1 + m)
    (hi : i ≤ jumps) : (room + 1) * (jumps + 2) ≤ m := by
  rw [Nat.succ_mul] at h
  omega

/-- Every label takes room in the buffer, and between two labels only so many
different jumps are possible. -/
theorem circles_of_walk {n : Nat} {loc : List Byte} {w : Nat} {b : List Byte × Nat} (room : Nat)
    (h : Walk (Next packet bufLen) n (loc, w) b) (hr : bufLen ≤ w + room)
    (hn : (room + 1) * 16386 ≤ n) : Circles packet bufLen loc w := by
  induction room generalizing n loc w with
  | zero =>
    rcases first_label h with ⟨loc', hj⟩ | ⟨i, m, loc', w', hi, hj, hlt, hle, hw, hb⟩
    · exact circles_of_jumps hj (by omega) w
    · omega
  | succ room ih =>
    rcases first_label h with ⟨loc', hj⟩ | ⟨i, m, loc', w', hi, ⟨loc'', hj⟩, hlt, hle, hw, hb⟩
    · exact circles_of_jumps hj (by omega) w
    · by_cases hs : 16384 < i
      · exact circles_of_jumps hj hs w
      · obtain ⟨k, c, wc, hc, hm⟩ := ih hb (by omega)
          (turns_left (hi ▸ hn) (Nat.le_of_not_lt hs))
        exact ⟨i + 1 + k, c, wc, hw.append hc, hm⟩

theorem Circles.endless {loc : List Byte} {w : Nat} (h : Circles packet bufLen loc w) :
    Endless (Next packet bufLen) (loc, w) := by
  obtain ⟨n, loc', w', hw, m, hm⟩ := h
  exact Loops.endless ⟨n, m, _, hw, next_of_jump hm w'⟩

end Loop

/-- The loop is entered: a terminator is found within 256 bytes. -/
def Entered (name : List Byte) : Prop := ∃ n, strlen name = .ok n ∧ n ≤ 255

theorem decodeNameWithin_hang_iff (turns : Nat) (name packet : List Byte) (bufLen : Nat) :
    decodeNameWithin turns name packet bufLen = .error (.fault .hang) ↔
      Entered name ∧ ∃ b, Walk (Next packet bufLen) turns (name, 0) b := by
  have hloop := @decodeLoop_hang_iff packet bufLen turns name []
  unfold decodeNameWithin Entered
  cases hs : strlen name with
  | error e =>
    have he : e ≠ .fault .hang := by
      unfold strlen at hs
      split at hs
      · cases hs
      · cases hs
        simp
    simp [bind, Except.bind, he]
  | ok n =>
    by_cases hn : n > 255
    · simp [bind, Except.bind, hn]
    · simp only [bind, Except.bind, hn, if_false, Except.ok.injEq, exists_eq_left']
      rw [← List.length_nil (α := Byte), ← hloop]
      cases decodeLoop packet bufLen turns name [] with
      | error e => simp [Nat.le_of_not_lt hn]
      | ok out =>
        simp only [Nat.le_of_not_lt hn, true_and, reduceCtorEq, iff_false]
        split <;> simp

/-- The turns that the model allows are enough: a call that they do not end goes
on for ever. -/
theorem decodeName_hang_iff (name packet : List Byte) (bufLen : Nat) :
    decodeName name packet bufLen = .error (.fault .hang) ↔
      ∀ turns, decodeNameWithin turns name packet bufLen = .error (.fault .hang) := by
  constructor
  · intro h turns
    obtain ⟨he, b, hb⟩ := (decodeNameWithin_hang_iff _ _ _ _).mp h
    have hc := circles_of_walk bufLen hb (by omega) (by unfold decodeFuel; omega)
    exact (decodeNameWithin_hang_iff _ _ _ _).mpr ⟨he, hc.endless turns⟩
  · intro h
    exact h (decodeFuel bufLen)

/-- Decoding comes to an end exactly when no pointers that it gets to go round. -/
theorem decodeName_finishes_iff (name packet : List Byte) (bufLen : Nat) :
    (∃ turns, decodeNameWithin turns name packet bufLen ≠ .error (.fault .hang)) ↔
      (Entered name → ¬ Circles packet bufLen name 0) := by
  constructor
  · rintro ⟨turns, ht⟩ he hc
    exact ht ((decodeNameWithin_hang_iff _ _ _ _).mpr ⟨he, hc.endless turns⟩)
  · intro h
    refine ⟨(bufLen + 1) * 16386, fun ht => ?_⟩
    obtain ⟨he, b, hb⟩ := (decodeNameWithin_hang_iff _ _ _ _).mp ht
    exact h he (circles_of_walk bufLen hb (by omega) (Nat.le_refl _))

/-- A pointer at the start of the first question that points to itself. -/
def selfPointer : List Byte := List.replicate 12 1 ++ [0xC0, 12, 0, 1, 0, 1]

theorem decodeName_selfPointer_endless :
    ¬ ∃ turns, decodeNameWithin turns (selfPointer.drop 12) selfPointer 256 ≠
      .error (.fault .hang) := by
  rintro ⟨turns, ht⟩
  have jump : Jump selfPointer (selfPointer.drop 12) (selfPointer.drop 12) :=
    @Jump.mk selfPointer 0xC0 12 [0, 1, 0, 1] (by decide)
  have endless : Endless (Next selfPointer 256) (selfPointer.drop 12, 0) :=
    Circles.endless ⟨0, _, 0, .here _, 0, .single jump⟩
  exact ht ((decodeNameWithin_hang_iff _ _ _ _).mpr ⟨⟨2, by decide, by decide⟩, endless turns⟩)

end OdbcDns
