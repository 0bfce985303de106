import OdbcDns.RData
import OdbcDns.Proofs.Bytes
import Mathlib.Data.List.TakeWhile

namespace OdbcDns

/-- An IPv4 address. -/
structure Quad where
  a : Byte
  b : Byte
  c : Byte
  d : Byte
  deriving DecidableEq

namespace Quad

def octets (q : Quad) : List Byte := [q.a, q.b, q.c, q.d]

/-- Canonical dotted decimal. -/
def text (q : Quad) : List Byte :=
  itoa q.a.toNat ++ dot :: (itoa q.b.toNat ++ dot :: (itoa q.c.toNat ++ dot :: itoa q.d.toNat))

end Quad

theorem itoa_facts (b : Byte) :
    (itoa b.toNat).length = (if b.toNat > 99 then 3 else if b.toNat > 9 then 2 else 1) ∧
    dot ∉ itoa b.toNat ∧ (0 : Byte) ∉ itoa b.toNat ∧ atoi (itoa b.toNat) = b.toNat := by
  revert b
  apply forall_byte
  decide +kernel

theorem length_itoa (b : Byte) :
    (itoa b.toNat).length = (if b.toNat > 99 then 3 else if b.toNat > 9 then 2 else 1) :=
  (itoa_facts b).1

theorem length_itoa_le (b : Byte) : 1 ≤ (itoa b.toNat).length ∧ (itoa b.toNat).length ≤ 3 := by
  rw [length_itoa]
  split
  · decide
  · split <;> decide

theorem Quad.length_text (q : Quad) : q.text.length = (itoa q.a.toNat).length +
    (itoa q.b.toNat).length + (itoa q.c.toNat).length + (itoa q.d.toNat).length + 3 := by
  simp only [Quad.text, List.length_append, List.length_cons]
  omega

theorem Quad.length_text_le (q : Quad) : q.text.length ≤ 15 := by
  have ha := (length_itoa_le q.a).2
  have hb := (length_itoa_le q.b).2
  have hc := (length_itoa_le q.c).2
  have hd := (length_itoa_le q.d).2
  rw [q.length_text]
  omega

theorem Quad.zero_not_mem (q : Quad) : (0 : Byte) ∉ q.text := by
  have h0 : (0 : Byte) ≠ dot := by decide
  simp only [Quad.text, List.mem_append, List.mem_cons, not_or]
  exact ⟨(itoa_facts q.a).2.2.1, h0, (itoa_facts q.b).2.2.1, h0, (itoa_facts q.c).2.2.1, h0,
    (itoa_facts q.d).2.2.1⟩

/-- A decimal field is found up to the separator or the terminator behind it. -/
theorem field_itoa (b s : Byte) (hs : s = dot ∨ s = 0) (rest : List Byte) :
    DNSRDataA.field (itoa b.toNat ++ s :: rest) = .ok (itoa b.toNat) := by
  have ht : (itoa b.toNat ++ s :: rest).takeWhile (fun b => b ≠ dot && b ≠ 0) = itoa b.toNat := by
    rw [List.takeWhile_append_of_pos]
    · rcases hs with rfl | rfl <;> simp
    · intro c hc
      have h1 : c ≠ dot := fun he => (itoa_facts b).2.1 (he ▸ hc)
      have h2 : c ≠ 0 := fun he => (itoa_facts b).2.2.1 (he ▸ hc)
      simp [h1, h2]
  unfold DNSRDataA.field
  simp only [ht]
  rw [if_pos (by simp)]

theorem parseFields_itoa (n : Nat) (b s : Byte) (hs : s = dot ∨ s = 0) (rest : List Byte) :
    DNSRDataA.parseFields (n + 1) (itoa b.toNat ++ s :: rest) =
      (DNSRDataA.parseFields n rest).map (b :: ·) := by
  have hl := (length_itoa_le b).2
  have h1 : ¬ (itoa b.toNat).length > 4 := by omega
  have h2 : ¬ (itoa b.toNat).length = 4 := by omega
  have hd : (itoa b.toNat ++ s :: rest).drop ((itoa b.toNat).length + 1) = rest := by
    rw [List.drop_append]
    simp
  have hv : UInt8.ofNat (atoi (itoa b.toNat) % 256).toNat = b := by
    have := b.toNat_lt
    rw [(itoa_facts b).2.2.2, Int.emod_eq_of_lt (by omega) (by omega), Int.toNat_natCast,
      UInt8.ofNat_toNat]
  rw [DNSRDataA.parseFields, field_itoa b s hs]
  simp only [bind, Except.bind, h1, h2, if_false, hd, hv]
  cases DNSRDataA.parseFields n rest <;> rfl

/-- The constructor reads a canonical address, whatever lies behind it. -/
theorem Quad.ofText (q : Quad) (rest : List Byte) :
    DNSRDataA.ofText (q.text ++ 0 :: rest) = .ok ⟨q.octets, q.text⟩ := by
  have hl := q.length_text_le
  have h1 : ¬ q.text.length + 1 > 16 := by omega
  have hp : DNSRDataA.parseFields 4 (q.text ++ 0 :: rest) = .ok q.octets := by
    simp only [Quad.text, List.append_assoc, List.cons_append]
    rw [parseFields_itoa 3 _ _ (Or.inl rfl), parseFields_itoa 2 _ _ (Or.inl rfl),
      parseFields_itoa 1 _ _ (Or.inl rfl), parseFields_itoa 0 _ _ (Or.inr rfl)]
    rfl
  unfold DNSRDataA.ofText
  rw [strlen_of_not_mem q.zero_not_mem, cstr_of_not_mem q.zero_not_mem, hp]
  simp only [bind, Except.bind, h1, if_false]

/-- One turn of the formatting loop while `ptr` is at the end of the text. -/
theorem formatFields_cons (b c : Byte) (rest value : List Byte)
    (hv : value.length + (itoa b.toNat).length * 2 + 2 ≤ 16) :
    DNSRDataA.formatFields (b :: c :: rest) (16 - value.length) value =
      DNSRDataA.formatFields (c :: rest) (16 - (value ++ itoa b.toNat ++ [dot]).length)
        (value ++ itoa b.toNat ++ [dot]) := by
  have hl := (length_itoa_le b).1
  have e0 : 16 - (16 - value.length) = value.length := by omega
  have h1 : ¬ (itoa b.toNat).length + 1 > 16 - value.length := by omega
  have h2 : ¬ (itoa b.toNat).length + 2 > 16 - value.length - (itoa b.toNat).length := by omega
  have e1 : 16 - value.length - (itoa b.toNat).length - 1 =
      16 - (value ++ itoa b.toNat ++ [dot]).length := by
    simp only [List.length_append, List.length_singleton]
    omega
  conv_lhs => rw [DNSRDataA.formatFields]
  simp only [e0, List.take_length, ← length_itoa, h1, h2, if_false, e1, reduceCtorEq]

theorem formatFields_last (b : Byte) (value : List Byte)
    (hv : value.length + (itoa b.toNat).length + 1 ≤ 16) :
    DNSRDataA.formatFields [b] (16 - value.length) value = .ok (value ++ itoa b.toNat) := by
  have e0 : 16 - (16 - value.length) = value.length := by omega
  have h1 : ¬ (itoa b.toNat).length + 1 > 16 - value.length := by omega
  have e1 : 16 - (16 - value.length - (itoa b.toNat).length) =
      (value ++ itoa b.toNat).length := by
    rw [List.length_append]
    omega
  rw [DNSRDataA.formatFields]
  simp only [e0, List.take_length, ← length_itoa, h1, if_false, if_true, DNSRDataA.formatFields,
    e1]

theorem Quad.formatFields (q : Quad) : DNSRDataA.formatFields q.octets 16 [] = .ok q.text := by
  have ha := (length_itoa_le q.a).2
  have hb := (length_itoa_le q.b).2
  have hc := (length_itoa_le q.c).2
  have hd := (length_itoa_le q.d).2
  have h := formatFields_cons q.a q.b [q.c, q.d] [] (by simp only [List.length_nil]; omega)
  unfold Quad.octets
  rw [show (16 : Nat) = 16 - ([] : List Byte).length from rfl, h,
    formatFields_cons q.b q.c [q.d] _
      (by simp only [List.length_append, List.length_cons, List.length_nil]; omega),
    formatFields_cons q.c q.d [] _
      (by simp only [List.length_append, List.length_cons, List.length_nil]; omega),
    formatFields_last q.d _
      (by simp only [List.length_append, List.length_cons, List.length_nil]; omega)]
  simp [Quad.text]

/-- Four octets are formatted as the canonical address. -/
theorem Quad.decode (q : Quad) (uninit : Nat → Byte) (rest : List Byte) :
    DNSRDataA.decode uninit (q.octets ++ rest) 4 = .ok ⟨q.octets, q.text⟩ := by
  have hm : [0, 1, 2, 3].map (fun i => if i < 4 then byteAt (q.octets ++ rest) i else uninit i) =
      q.octets := by
    simp [Quad.octets, byteAt]
  have hn : ¬ (q.octets ++ rest).length < 4 := by simp [Quad.octets]
  unfold DNSRDataA.decode
  simp only [Nat.lt_irrefl, gt_iff_lt, if_false, hn, hm, q.formatFields]
  rfl

theorem quad_of_length {octets : List Byte} (h : octets.length = 4) :
    ∃ q : Quad, octets = q.octets := by
  obtain ⟨a, b, c, d, rfl⟩ := List.length_eq_four.mp h
  exact ⟨⟨a, b, c, d⟩, rfl⟩

end OdbcDns
