import OdbcDns.Proofs.Expansion
import OdbcDns.Proofs.Questions

/-! Questions that the parser reads from a datagram alone. -/

namespace OdbcDns
open Rfc1035 Slice

/-- Labels at the start of `src` that the program refuses, when `w` bytes of the name have
been written: one of them is too long, or too long for the room that is left. -/
inductive Refused : List Byte → Nat → Prop
  | long {b : Byte} {rest : List Byte} {w : Nat} (long : 63 < b.toNat) (short : b.toNat < 192) :
      Refused (b :: rest) w
  | full {b : Byte} {rest : List Byte} {w : Nat} (short : b.toNat ≤ 63)
      (full : 256 < w + b.toNat + 1) : Refused (b :: rest) w
  | label {l rest : List Byte} {w : Nat} (ok : LabelOk l) (room : w + l.length + 1 ≤ 256)
      (tail : Refused rest (w + l.length + 1)) : Refused (UInt8.ofNat l.length :: (l ++ rest)) w

/-- A question at the start of `src` that makes the parser throw: its first zero byte
comes too late, or a label of its name is refused. -/
structure Throws (src : List Byte) : Prop where
  spelled : ∃ b rest, src = b :: rest ∧ b.toNat < 192
  zero : (0 : Byte) ∈ src
  refused : 255 < (cstr src).length ∨ Refused src 0

/-- The `n` questions from `ptr` on are in the datagram, at least up to one that makes the
parser throw. They are spelled out and ask for a name other than the root. -/
inductive Contained (d : List Byte) : Nat → Nat → Prop
  | none (ptr : Nat) : Contained d 0 ptr
  | question {n ptr : Nat} (q : WireQuestion) (named : q.labels ≠ []) (here : At d ptr q.bytes)
      (tail : Contained d n (ptr + q.bytes.length)) : Contained d (n + 1) ptr
  | throws {n ptr : Nat} (h : Throws (d.drop ptr)) : Contained d (n + 1) ptr

/-- Refused labels make `decodeName` throw, whatever stands behind the datagram. -/
theorem Refused.decodeLoop {src : List Byte} {w : Nat} (h : Refused src w) :
    ∃ what, ∀ (packet behind out : List Byte) (fuel : Nat), 64 ≤ behind.length →
      out.length = w → w ≤ 256 → src.length < fuel →
      OdbcDns.decodeLoop packet 256 fuel (src ++ behind) out = .error (.exception what) := by
  induction h with
  | @long b rest w long short =>
    refine ⟨"Label length longer than maximum of 63", fun packet behind out fuel _ ho hw hf => ?_⟩
    subst ho
    obtain ⟨fuel, rfl⟩ := Nat.exists_eq_succ_of_ne_zero (by omega : fuel ≠ 0)
    have stopped : Stopped 256 out.length (b :: rest ++ behind) _ := .long long short
    exact stopped.decodeLoop hw packet fuel
  | @full b rest w short full =>
    refine ⟨"Buffer too small", fun packet behind out fuel hb ho hw hf => ?_⟩
    subst ho
    obtain ⟨fuel, rfl⟩ := Nat.exists_eq_succ_of_ne_zero (by omega : fuel ≠ 0)
    have there : min b.toNat (256 - out.length) ≤ (rest ++ behind).length := by
      rw [List.length_append]
      omega
    have stopped : Stopped 256 out.length (b :: rest ++ behind) _ := .full short full there
    exact stopped.decodeLoop hw packet fuel
  | @label l rest w ok room tail ih =>
    obtain ⟨what, ih⟩ := ih
    refine ⟨what, fun packet behind out fuel hb ho hw hf => ?_⟩
    obtain ⟨fuel, rfl⟩ := Nat.exists_eq_succ_of_ne_zero (by omega : fuel ≠ 0)
    rw [List.cons_append, List.append_assoc, decodeLoop_label ok packet (by omega)]
    refine ih packet behind _ fuel hb ?_ room ?_
    · simp only [List.length_append, List.length_singleton]
      omega
    · simp only [List.length_cons, List.length_append] at hf
      omega

theorem cstr_append_of_mem {bs : List Byte} (h : (0 : Byte) ∈ bs) (rest : List Byte) :
    cstr (bs ++ rest) = cstr bs := by
  obtain ⟨front, back, rfl⟩ := List.append_of_mem h
  rw [List.append_assoc, List.cons_append, cstr_append_zero, cstr_append_zero]

theorem Throws.parse {src : List Byte} (h : Throws src) (hl : src.length ≤ 512) :
    ∃ what, ∀ behind stack : List Byte, 64 ≤ behind.length →
      DNSQuery.parse (src ++ behind) stack = .error (.exception what) := by
  obtain ⟨b, rest, he, low⟩ := h.spelled
  have spelled : ∀ behind, leadingPointer (src ++ behind) = .ok none := by
    intro behind
    rw [he]
    exact leadingPointer_low low _
  have length : ∀ behind, strlen (src ++ behind) = .ok (cstr src).length := by
    intro behind
    rw [strlen, if_pos (List.mem_append_left _ h.zero), cstr_append_of_mem h.zero]
  by_cases late : 255 < (cstr src).length
  · refine ⟨"QNAME length longer than maximum of 255", fun behind stack _ => ?_⟩
    simp only [DNSQuery.parse, spelled, bind, Except.bind, decodeName, decodeNameWithin, length,
      late, if_true]
  · obtain ⟨what, loop⟩ := (h.refused.resolve_left late).decodeLoop
    refine ⟨what, fun behind stack hb => ?_⟩
    have := loop stack behind [] (decodeFuel 256) hb rfl (by decide)
      (Nat.lt_of_le_of_lt hl (by decide))
    simp only [DNSQuery.parse, spelled, bind, Except.bind, decodeName, decodeNameWithin, length,
      late, if_false, maxDnsNameLength, this]

theorem Throws.lt {d : List Byte} {ptr : Nat} (h : Throws (d.drop ptr)) : ptr < d.length := by
  obtain ⟨b, rest, he, _⟩ := h.spelled
  have := congrArg List.length he
  rw [List.length_drop, List.length_cons] at this
  omega

theorem Contained.lt {d : List Byte} {n ptr : Nat} (h : Contained d (n + 1) ptr) :
    ptr < d.length := by
  cases h with
  | question q named here tail =>
    have := here.le (List.ne_nil_of_length_pos q.length_bytes_pos)
    have := q.length_bytes_pos
    omega
  | throws h => exact h.lt

section Behind

/-! Memory that shows every read behind the datagram: pointers, and nothing that they could
point to. -/

variable {behind : List Byte}

theorem Jump.nil {loc loc' : List Byte} (h : Jump [] loc loc') : loc' = [] := by
  obtain ⟨_⟩ := h
  exact List.drop_nil

theorem decodeLoop_pointer {b0 : Byte} (high : 192 ≤ b0.toNat) (bufLen fuel : Nat)
    (rest out : List Byte) :
    ∃ f, decodeLoop [] bufLen fuel (b0 :: rest) out = .error (.fault f) := by
  have hp := (charToUnsigned_pointer b0).mpr high
  cases fuel with
  | zero => exact ⟨.hang, rfl⟩
  | succ fuel =>
    simp only [decodeLoop, hp, if_true]
    cases rest with
    | nil => exact ⟨.outOfBounds, rfl⟩
    | cons b1 rest =>
      simp only [List.drop_nil]
      cases fuel with
      | zero => exact ⟨.hang, rfl⟩
      | succ fuel => exact ⟨.outOfBounds, rfl⟩

theorem decodeLoop_behind (pointers : ∀ b ∈ behind, 192 ≤ b.toNat) (bufLen fuel : Nat)
    (out : List Byte) : ∃ f, decodeLoop [] bufLen fuel behind out = .error (.fault f) := by
  cases behind with
  | nil =>
    cases fuel with
    | zero => exact ⟨.hang, rfl⟩
    | succ fuel => exact ⟨.outOfBounds, rfl⟩
  | cons b rest => exact decodeLoop_pointer (pointers b (by simp)) bufLen fuel rest out

/-- A label that is read is in the datagram, or the bytes after it are all behind it. -/
theorem label_inside_or_behind (pointers : ∀ b ∈ behind, 192 ≤ b.toNat) {l : Label}
    {src rest : List Byte}
    (h : src ++ behind = UInt8.ofNat l.length :: (l ++ rest)) :
    (∃ src', src = UInt8.ofNat l.length :: (l ++ src') ∧ rest = src' ++ behind) ∨
      ∀ b ∈ rest, 192 ≤ b.toNat := by
  cases src with
  | nil =>
    rw [List.nil_append] at h
    subst h
    exact .inr fun b hb => pointers b (by simp [hb])
  | cons b src =>
    obtain ⟨rfl, tails⟩ := List.cons.inj h
    rcases List.append_eq_append_iff.mp tails.symm with ⟨src', rfl, hrest⟩ | ⟨_, _, rfl⟩
    · exact .inl ⟨src', rfl, hrest⟩
    · exact .inr fun b hb => pointers b (by simp [hb])

theorem refused_of_stopped (pointers : ∀ b ∈ behind, 192 ≤ b.toNat) {src : List Byte} {w : Nat}
    {what : String} (h : Stopped 256 w (src ++ behind) (.exception what)) : Refused src w := by
  cases src with
  | nil =>
    rw [List.nil_append] at h
    cases h with
    | @long b rest _ low => exact absurd (pointers b (by simp)) (Nat.not_le.mpr low)
    | @full b rest short _ _ => exact absurd (pointers b (by simp)) (by omega)
  | cons b rest =>
    cases h with
    | long long low => exact .long long low
    | full short full _ => exact .full short full

/-- It is the labels in the datagram that `decodeName` throws for. -/
theorem refused_of_decodeLoop (pointers : ∀ b ∈ behind, 192 ≤ b.toNat) {fuel : Nat}
    {src out : List Byte} {what : String}
    (h : decodeLoop [] 256 fuel (src ++ behind) out = .error (.exception what)) :
    Refused src out.length := by
  induction fuel generalizing src out with
  | zero => cases h
  | succ fuel ih =>
    rcases @decodeLoop_turn [] 256 (src ++ behind) out fuel with ⟨loc', jump, he⟩ |
      ⟨l, rest, ok, hl, room, he⟩ | ⟨rest, _, _, he⟩ | ⟨e, stopped, he⟩
    · rw [he, jump.nil] at h
      obtain ⟨f, hf⟩ := @decodeLoop_behind [] (by simp) 256 fuel out
      cases hf.symm.trans h
    · rw [he] at h
      rcases label_inside_or_behind pointers hl with ⟨src', rfl, rfl⟩ | behind
      · have tail := ih h
        rw [List.length_append, List.length_append, List.length_singleton] at tail
        exact .label ok room tail
      · obtain ⟨f, hf⟩ := decodeLoop_behind behind 256 fuel _
        cases hf.symm.trans h
    · cases he.symm.trans h
    · cases he.symm.trans h
      exact refused_of_stopped pointers stopped

/-- A name that is read stands in the datagram. -/
theorem prefix_of_readAs {loc : List Byte} {ls : List Label} (h : ReadAs [] loc ls) :
    ∀ src behind : List Byte, (∀ b ∈ behind, 192 ≤ b.toNat) → src ++ behind = loc →
      (∀ l ∈ ls, LabelOk l) ∧ wire ls <+: src := by
  induction h with
  | @root rest =>
    intro src behind pointers he
    cases src with
    | nil =>
      obtain rfl : behind = 0 :: rest := he
      exact absurd (pointers 0 (by simp)) (by decide)
    | cons b src =>
      obtain ⟨rfl, _⟩ := List.cons.inj he
      exact ⟨by simp, src, rfl⟩
  | @label l rest ls ok tail ih =>
    intro src behind pointers he
    rcases label_inside_or_behind pointers he with ⟨src', rfl, rfl⟩ | behind
    · obtain ⟨oks, front⟩ := ih src' _ pointers rfl
      refine ⟨List.forall_mem_cons.mpr ⟨ok, oks⟩, ?_⟩
      exact List.cons_prefix_cons.mpr ⟨rfl, (List.prefix_append_right_inj l).mpr front⟩
    · -- nothing behind the datagram is the rest of a name
      have front := (ih [] rest behind rfl).2
      have := length_wire_pos ls
      rw [List.prefix_nil.mp front] at this
      cases this
  | @pointer loc loc' ls jump tail _ =>
    exact absurd jump.nil tail.ne_nil

theorem parse_pointer {b0 : Byte} (high : 192 ≤ b0.toNat) (rest : List Byte) :
    DNSQuery.parse (b0 :: rest) [] = .error (.fault .outOfBounds) := by
  cases rest with
  | nil =>
    have hp := (charToUnsigned_pointer b0).mpr high
    simp only [DNSQuery.parse, leadingPointer, hp, if_true]
    rfl
  | cons b1 rest =>
    simp only [DNSQuery.parse, leadingPointer_high high, List.drop_nil]
    rfl

theorem parse_behind (pointers : ∀ b ∈ behind, 192 ≤ b.toNat) :
    DNSQuery.parse behind [] = .error (.fault .outOfBounds) := by
  cases behind with
  | nil => rfl
  | cons b rest => exact parse_pointer (pointers b (by simp)) rest

/-- A question that is returned has its name in the datagram. -/
theorem prefix_of_parse (pointers : ∀ b ∈ behind, 192 ≤ b.toNat) {src : List Byte}
    {query : DNSQuery} (h : DNSQuery.parse (src ++ behind) [] = .ok query) :
    ∃ ls, ls ≠ [] ∧ (∀ l ∈ ls, LabelOk l) ∧ wire ls <+: src ∧ (wire ls).length ≤ 256 ∧
      query.length = (wire ls).length + 4 := by
  unfold DNSQuery.parse at h
  obtain ⟨p, _, h⟩ := Except.bind_ok.mp h
  cases p with
  | some ptr =>
    simp only [List.drop_nil] at h
    cases h
  | none =>
    obtain ⟨⟨t, n⟩, hn, h⟩ := Except.bind_ok.mp h
    obtain ⟨_, ls, reads, named, _, rfl, short⟩ := decodeName_ok_iff.mp hn
    obtain ⟨ok, front⟩ := prefix_of_readAs reads src behind pointers rfl
    simp only [Except.bind_ok] at h
    obtain ⟨_, _, _, _, h⟩ := h
    cases h
    exact ⟨ls, named, ok, front, short, rfl⟩

theorem strlen_exception {mem : List Byte} {what : String} :
    strlen mem ≠ .error (.exception what) := by
  unfold strlen
  split <;> simp

theorem readByte_exception {mem : List Byte} {i : Nat} {what : String} :
    readByte mem i ≠ .error (.exception what) := by
  unfold readByte
  split <;> simp

theorem exception_of_decodeName {name packet : List Byte} {bufLen : Nat} {what : String}
    (h : decodeName name packet bufLen = .error (.exception what)) :
    (0 : Byte) ∈ name ∧ (255 < (cstr name).length ∨
      decodeLoop packet bufLen (decodeFuel bufLen) name [] = .error (.exception what)) := by
  unfold decodeName decodeNameWithin at h
  rcases Except.bind_error.mp h with h | ⟨n, hn, h⟩
  · exact absurd h strlen_exception
  unfold strlen at hn
  split at hn
  · rename_i zero
    cases hn
    refine ⟨zero, ?_⟩
    split at h
    · rename_i late
      exact .inl late
    · rcases Except.bind_error.mp h with h | ⟨out, _, h⟩
      · exact .inr h
      · split at h <;> cases h
  · cases hn

/-- A question that makes the parser throw does so by its bytes in the datagram. -/
theorem throws_of_parse (pointers : ∀ b ∈ behind, 192 ≤ b.toNat) {src : List Byte}
    {what : String} (h : DNSQuery.parse (src ++ behind) [] = .error (.exception what)) :
    Throws src := by
  cases src with
  | nil => cases (parse_behind pointers).symm.trans h
  | cons b rest =>
    by_cases high : 192 ≤ b.toNat
    · cases (parse_pointer high (rest ++ behind)).symm.trans h
    have low : b.toNat < 192 := Nat.lt_of_not_le high
    have thrown : decodeName (b :: rest ++ behind) [] 256 = .error (.exception what) := by
      rw [List.cons_append, DNSQuery.parse, leadingPointer_low low, ← List.cons_append] at h
      rcases Except.bind_error.mp h with h | ⟨_, hn, h⟩
      · cases h
      cases hn
      rcases Except.bind_error.mp h with h | ⟨r, _, h⟩
      · exact h
      rcases Except.bind_error.mp h with h | ⟨_, _, h⟩
      · exact absurd h readByte_exception
      rcases Except.bind_error.mp h with h | ⟨_, _, h⟩
      · exact absurd h readByte_exception
      · cases h
    obtain ⟨zero, refused⟩ := exception_of_decodeName thrown
    have zero : (0 : Byte) ∈ b :: rest := by
      rcases List.mem_append.mp zero with zero | zero
      · exact zero
      · exact absurd (pointers 0 zero) (by decide)
    refine ⟨⟨b, rest, rfl, low⟩, zero, ?_⟩
    rw [cstr_append_of_mem zero] at refused
    exact refused.imp_right (refused_of_decodeLoop pointers)

end Behind

end OdbcDns
