import OdbcDns.Message
import Mathlib.Data.List.TakeWhile

namespace OdbcDns
open Rfc1035

theorem Except.bind_ok {α β : Type} {x : Except Stop α} {f : α → Except Stop β} {b : β} :
    (x >>= f) = .ok b ↔ ∃ a, x = .ok a ∧ f a = .ok b := by
  cases x with
  | error e => simp [bind, Except.bind]
  | ok a => simp [bind, Except.bind]

theorem Except.bind_error {α β : Type} {x : Except Stop α} {f : α → Except Stop β} {e : Stop} :
    (x >>= f) = .error e ↔ x = .error e ∨ ∃ a, x = .ok a ∧ f a = .error e := by
  cases x with
  | error e => simp [bind, Except.bind]
  | ok a => simp [bind, Except.bind]

theorem forall_byte {p : Byte → Prop} (h : ∀ n : Fin 256, p (UInt8.ofNat n.val)) (b : Byte) :
    p b := by
  have hb := h ⟨b.toNat, b.toNat_lt⟩
  rwa [UInt8.ofNat_toNat] at hb

/-- The masked sign-extended byte tells exactly the two high bits. -/
theorem charToUnsigned_pointer (b : Byte) : charToUnsigned b &&& 0xC0 = 0xC0 ↔ 192 ≤ b.toNat := by
  revert b
  apply forall_byte
  decide +kernel

/-- The sign of a byte does not matter for the limit of a label. -/
theorem charToUnsigned_long (b : Byte) : charToUnsigned b > 63 ↔ 63 < b.toNat := by
  unfold charToUnsigned
  split <;> omega

theorem or_shift_of_high (k n : Nat) (hk : k < 64) :
    (63 * 256 + n % 256) ||| (k * 256) = 63 * 256 + n % 256 := by
  have h63 : 63 ||| k = 63 := by
    have : ∀ j : Fin 64, 63 ||| j.val = 63 := by decide
    exact this ⟨k, hk⟩
  have hn : n % 256 < 2 ^ 8 := Nat.mod_lt _ (by decide)
  have e1 : 63 * 256 + n % 256 = 63 <<< 8 ||| n % 256 := by
    rw [← Nat.shiftLeft_add_eq_or_of_lt hn, Nat.shiftLeft_eq]
  have e2 : k * 256 = k <<< 8 := by rw [Nat.shiftLeft_eq]
  calc (63 * 256 + n % 256) ||| (k * 256) = (63 <<< 8 ||| n % 256) ||| k <<< 8 := by rw [e1, e2]
    _ = (63 <<< 8 ||| k <<< 8) ||| n % 256 := by
      rw [Nat.or_assoc, Nat.or_comm (n % 256), ← Nat.or_assoc]
    _ = 63 * 256 + n % 256 := by rw [← Nat.shiftLeft_or_distrib, h63, e1]

theorem or_shift_of_low (k n : Nat) (hn : n < 256) : n ||| (k * 256) = k * 256 + n := by
  rw [Nat.or_comm, show k * 256 = k <<< 8 by rw [Nat.shiftLeft_eq],
    ← Nat.shiftLeft_add_eq_or_of_lt (b := n) (i := 8) hn]

/-- The pointer is read as RFC 1035 has it when the second byte is below 128.
Otherwise its sign fills the six high bits. -/
theorem pointerOffset_eq (b0 b1 : Byte) : pointerOffset b0 b1 =
    if b1.toNat < 128 then pointerTarget b0 b1 else 63 * 256 + b1.toNat := by
  have h0 := b0.toNat_lt
  have h1 := b1.toNat_lt
  have hs : charToUnsigned b0 <<< 8 % 2 ^ 14 = b0.toNat % 64 * 256 := by
    rw [Nat.shiftLeft_eq]
    unfold charToUnsigned
    split <;> omega
  have hm : pointerOffset b0 b1 = charToUnsigned b1 % 2 ^ 14 ||| b0.toNat % 64 * 256 := by
    unfold pointerOffset
    rw [show (0x3FFF : Nat) = 2 ^ 14 - 1 from rfl, Nat.and_two_pow_sub_one_eq_mod,
      show (65536 : Nat) = 2 ^ 14 * 4 from rfl, Nat.mod_mul_right_mod, Nat.or_mod_two_pow, hs]
  rw [hm]
  split
  · rename_i h
    rw [show charToUnsigned b1 = b1.toNat from if_pos h, Nat.mod_eq_of_lt (by omega),
      or_shift_of_low _ _ h1]
    rfl
  · rename_i h
    rw [show charToUnsigned b1 = 4294967040 + b1.toNat from if_neg h,
      show (4294967040 + b1.toNat) % 2 ^ 14 = 63 * 256 + b1.toNat % 256 by omega,
      or_shift_of_high _ _ (by omega), Nat.mod_eq_of_lt h1]

theorem charToU16_eq_typeA (b : Byte) : charToU16 b = typeA ↔ b = 1 := by
  revert b
  apply forall_byte
  decide +kernel

theorem toNat_htons (v : UInt16) : (htons v).toNat = v.toNat % 256 * 256 + v.toNat / 256 := by
  have := v.toNat_lt
  unfold htons
  rw [UInt16.toNat_ofNat']
  omega

theorem toNat_htonl (v : UInt32) : (htonl v).toNat = v.toNat % 256 * 16777216 +
    v.toNat / 256 % 256 * 65536 + v.toNat / 65536 % 256 * 256 + v.toNat / 16777216 := by
  have := v.toNat_lt
  unfold htonl
  rw [UInt32.toNat_ofNat']
  omega

@[simp] theorem htons_htons (v : UInt16) : htons (htons v) = v := by
  have := v.toNat_lt
  apply UInt16.toNat_inj.mp
  rw [toNat_htons, toNat_htons]
  omega

/-- The four bytes of a number, and those of the converted number. -/
theorem htonl_parts (v : UInt32) :
    (htonl v).toNat % 256 = v.toNat / 16777216 ∧
    (htonl v).toNat / 256 % 256 = v.toNat / 65536 % 256 ∧
    (htonl v).toNat / 65536 % 256 = v.toNat / 256 % 256 ∧
    (htonl v).toNat / 16777216 = v.toNat % 256 := by
  have h := toNat_htonl v
  have hd : v.toNat / 16777216 < 256 := by
    have := v.toNat_lt
    omega
  have ha : v.toNat % 256 < 256 := Nat.mod_lt _ (by decide)
  have hb : v.toNat / 256 % 256 < 256 := Nat.mod_lt _ (by decide)
  have hc : v.toNat / 65536 % 256 < 256 := Nat.mod_lt _ (by decide)
  generalize v.toNat % 256 = a at h ha ⊢
  generalize v.toNat / 256 % 256 = b at h hb ⊢
  generalize v.toNat / 65536 % 256 = c at h hc ⊢
  generalize v.toNat / 16777216 = d at h hd ⊢
  omega

@[simp] theorem htonl_htonl (v : UInt32) : htonl (htonl v) = v := by
  obtain ⟨h1, h2, h3, h4⟩ := htonl_parts v
  have := v.toNat_lt
  apply UInt32.toNat_inj.mp
  rw [toNat_htonl, h1, h2, h3, h4]
  omega

/-- A converted number lies in memory in network order. -/
theorem memory16_htons (v : UInt16) : memory16 (htons v) = be16 v := by
  have := v.toNat_lt
  unfold memory16 be16
  rw [toNat_htons, show (v.toNat % 256 * 256 + v.toNat / 256) % 256 = v.toNat / 256 by omega,
    show (v.toNat % 256 * 256 + v.toNat / 256) / 256 = v.toNat % 256 by omega]

theorem memory32_htonl (v : UInt32) : memory32 (htonl v) = be32 v := by
  obtain ⟨h1, h2, h3, h4⟩ := htonl_parts v
  unfold memory32 be32
  rw [h1, h2, h3, h4]

theorem load16_memory (v : UInt16) : ∃ b0 b1, memory16 v = [b0, b1] ∧ load16 b0 b1 = v := by
  refine ⟨_, _, rfl, ?_⟩
  have := v.toNat_lt
  apply UInt16.toNat_inj.mp
  unfold load16
  rw [UInt16.toNat_ofNat', toNat_ofNat_mod, toNat_ofNat_mod]
  omega

theorem load32_memory (v : UInt32) :
    ∃ b0 b1 b2 b3, memory32 v = [b0, b1, b2, b3] ∧ load32 b0 b1 b2 b3 = v := by
  refine ⟨_, _, _, _, rfl, ?_⟩
  have := v.toNat_lt
  apply UInt32.toNat_inj.mp
  unfold load32
  rw [UInt32.toNat_ofNat', toNat_ofNat_mod, toNat_ofNat_mod, toNat_ofNat_mod, toNat_ofNat_mod]
  omega

theorem memory16_load16 (b0 b1 : Byte) : memory16 (load16 b0 b1) = [b0, b1] := by
  have := b0.toNat_lt
  have := b1.toNat_lt
  have value : (load16 b0 b1).toNat = b0.toNat + b1.toNat * 256 := by
    rw [load16, UInt16.toNat_ofNat']
    omega
  unfold memory16
  rw [value, show (b0.toNat + b1.toNat * 256) % 256 = b0.toNat by omega,
    show (b0.toNat + b1.toNat * 256) / 256 = b1.toNat by omega, UInt8.ofNat_toNat,
    UInt8.ofNat_toNat]

theorem memory32_load32 (b0 b1 b2 b3 : Byte) :
    memory32 (load32 b0 b1 b2 b3) = [b0, b1, b2, b3] := by
  have := b0.toNat_lt
  have := b1.toNat_lt
  have := b2.toNat_lt
  have := b3.toNat_lt
  have value : (load32 b0 b1 b2 b3).toNat =
      b0.toNat + b1.toNat * 256 + b2.toNat * 65536 + b3.toNat * 16777216 := by
    rw [load32, UInt32.toNat_ofNat']
    omega
  unfold memory32
  rw [value]
  simp only [List.cons.injEq, and_true]
  refine ⟨?_, ?_, ?_, ?_⟩ <;> apply UInt8.toNat_inj.mp <;> rw [toNat_ofNat_mod] <;> omega

theorem toSize_of_lt {n : Int} (h : 0 ≤ n) (h' : n < 18446744073709551616) :
    toSize n = n.toNat := by
  unfold toSize
  rw [Int.emod_eq_of_lt h h']

theorem sizeAdd_of_lt {a b : Nat} (h : a + b < 18446744073709551616) : sizeAdd a b = a + b :=
  Nat.mod_eq_of_lt h

/-- What stands behind a NUL is not part of the string. -/
theorem cstr_append_zero (text rest : List Byte) : cstr (text ++ 0 :: rest) = cstr text := by
  unfold cstr
  induction text with
  | nil => rfl
  | cons b text ih =>
    rw [List.cons_append, List.takeWhile_cons, List.takeWhile_cons, ih]

theorem cstr_eq_self {text : List Byte} (h : (0 : Byte) ∉ text) : cstr text = text := by
  unfold cstr
  rw [List.takeWhile_eq_self_iff]
  intro b hb
  have : b ≠ 0 := fun he => h (he ▸ hb)
  simpa using this

theorem zero_not_mem_cstr (mem : List Byte) : (0 : Byte) ∉ cstr mem := by
  intro hm
  exact absurd (List.mem_takeWhile_imp hm) (by simp)

theorem length_cstr_le (mem : List Byte) : (cstr mem).length ≤ mem.length :=
  (List.takeWhile_prefix _).length_le

theorem cstr_of_not_mem {text : List Byte} (h : (0 : Byte) ∉ text) (rest : List Byte) :
    cstr (text ++ 0 :: rest) = text := (cstr_append_zero text rest).trans (cstr_eq_self h)

theorem strlen_of_not_mem {text : List Byte} (h : (0 : Byte) ∉ text) (rest : List Byte) :
    strlen (text ++ 0 :: rest) = .ok text.length := by
  simp [strlen, cstr_of_not_mem h]

end OdbcDns
