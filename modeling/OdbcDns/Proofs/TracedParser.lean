import OdbcDns.Proofs.OutputBuffer
import OdbcDns.Proofs.Questions

/-! Without its accesses the traced parser is the parser. -/

namespace OdbcDns
open Rfc1035

/-- A traced `decodeName` that does not return stops as `decodeName` does. -/
theorem decodeName_of_stopped {mem : Memory} {name : Address} {message : Region} {e : Stop}
    (h : (decodeNameAt mem name message 256).1 = .error e) :
    decodeName (mem.from name) (mem message) 256 = .error e := by
  have loop : (decodeLoopAt mem message 256 (decodeFuel 256) name ⟨0, 0⟩).1 =
      (decodeLoop (mem message) 256 (decodeFuel 256) (mem.from name) []).map Cursor.behind :=
    (decodeLoopAt_start (by decide) message name).result
  unfold decodeNameAt at h
  rw [Logged.fst_bind, strlenAt_result] at h
  unfold decodeName decodeNameWithin
  cases hs : strlen (mem.from name) with
  | error e' =>
    rw [hs] at h
    cases h
    rfl
  | ok n =>
    rw [hs] at h
    simp only [Except.map, Nat.zero_add, bind, Except.bind] at h ⊢
    split at h
    · rename_i long
      rw [if_pos long]
      cases h
      rfl
    · rename_i short
      rw [if_neg short]
      cases hl : decodeLoop (mem message) 256 (decodeFuel 256) (mem.from name) [] with
      | error e' =>
        rw [hl] at loop
        cases (congrArg Prod.fst (Logged.bind_of_error _ loop)).symm.trans h
        rfl
      | ok out =>
        rw [hl] at loop
        cases (congrArg Prod.fst (Logged.bind_of_ok _ loop)).symm.trans h

/-- The root has no dot to write the terminator over, wherever its zero byte stands. -/
theorem Returned.decodeName_root {mem : Memory} {name : Address} {message : Region}
    (h : Returned mem name message 256 []) :
    decodeName (mem.from name) (mem message) 256 = .error (.fault .outOfBounds) := by
  obtain ⟨k, hk, hle⟩ := h.entered
  have loop : decodeLoop (mem message) 256 (decodeFuel 256) (mem.from name) [] = .ok [dot] :=
    h.reads.decodeLoop (by decide) (Nat.le_refl _)
  unfold decodeName decodeNameWithin
  simp only [hk, bind, Except.bind, Nat.not_lt.mpr hle, if_false, loop]
  rfl

theorem decodeString_result (mem : Memory) (name : Address) (message : Region) :
    (decodeString mem name message).1 = decodeName (mem.from name) (mem message) 256 := by
  have object : 256 < 9223372036854775808 := by decide
  unfold decodeString
  cases h : (decodeNameAt mem name message 256).1 with
  | error e =>
    have listened : (Logged.listen (decodeNameAt mem name message (maxDnsNameLength + 1))).1 =
        .error e := congrArg (Except.map _) h
    rw [Logged.bind_of_error _ listened, decodeName_of_stopped h]
  | ok n =>
    obtain ⟨ls, returned, rfl⟩ := (decodeNameAt_ok_iff object).mp h
    have listened : (Logged.listen (decodeNameAt mem name message (maxDnsNameLength + 1))).1 =
        .ok ((wire ls).length, (decodeNameAt mem name message 256).2) := congrArg (Except.map _) h
    rw [Logged.bind_of_ok _ listened]
    by_cases root : ls = []
    · subst root
      have outside : ¬ ∀ a ∈ (decodeNameAt mem name message 256).2, a.Inside 256 := by
        intro inside
        obtain ⟨log, he, _⟩ := returned.trace
        rw [he] at inside
        have := (inside (.store (-1) 0) (by simp [wire])).1
        omega
      rw [returned.decodeName_root]
      exact congrArg Prod.fst (if_neg outside)
    · have inside : ∀ a ∈ (decodeNameAt mem name message 256).2, a.Inside 256 := by
        refine ((outputSafe_iff mem name message (by decide) object).mpr ?_).1
        rintro ⟨_, reads⟩
        exact root (returned.reads.unique reads)
      have buffer : usable 256 ≤ (List.replicate 256 (0 : Byte)).length := by
        rw [List.length_replicate]
        decide
      obtain ⟨rest, he⟩ := returned.terminated root buffer
      have pure : decodeName (mem.from name) (mem message) 256 = _ := decodeName_ok_iff.mpr
        ⟨returned.entered, ls, returned.reads, root, rfl, rfl, returned.room⟩
      have string : cstr (outputBuffer (List.replicate 256 0)
          (decodeNameAt mem name message 256).2) = cstr (text ls) := by
        rw [← he, List.append_assoc]
        exact cstr_append_zero _ _
      rw [pure, ← string]
      exact congrArg Prod.fst (if_pos inside)

theorem fst_load (mem : Memory) (a : Address) (k : Nat) :
    (load mem (a.add k)).1 = readByte (mem.from a) k := by
  unfold load readByte Memory.from Address.add
  rw [Logged.fst_bind, List.getElem?_drop]
  rfl

theorem DNSQuery.parseAt_result (mem : Memory) (start : Address) :
    (DNSQuery.parseAt mem start).1 = DNSQuery.parse (mem.from start) (mem .stack) := by
  have next := fst_load mem start 1
  unfold DNSQuery.parseAt DNSQuery.parse
  cases hm : mem.from start with
  | nil =>
    rw [load_of_nil hm]
    rfl
  | cons b0 rest =>
    have first : (load mem start).1 = .ok b0 := by rw [load_of_cons hm]
    rw [Logged.bind_of_ok _ first]
    rw [hm] at next
    by_cases hp : charToUnsigned b0 &&& 0xC0 = 0xC0
    · simp only [hp, if_true]
      rw [Logged.fst_bind, next]
      cases rest with
      | nil => simp [leadingPointer, hp, readByte, bind, Except.bind]
      | cons b1 rest =>
        simp only [leadingPointer, hp, if_true]
        refine (Logged.fst_bind _ _).trans ?_
        rw [decodeString_result]
        refine congrArg (_ >>= ·) (funext fun r => ?_)
        obtain ⟨qname, n⟩ := r
        simp only [Logged.fst_bind, fst_load, hm]
        rfl
    · simp only [hp, if_false, leadingPointer]
      rw [Logged.fst_bind, decodeString_result, hm]
      refine congrArg (_ >>= ·) (funext fun r => ?_)
      obtain ⟨qname, n⟩ := r
      simp only [Logged.fst_bind, fst_load, hm]
      rfl

section Loop

variable {mem : Memory} {n ptr : Nat}

theorem extractLoopAt_of_error {e : Stop}
    (h : (DNSQuery.parseAt mem ⟨.packet, ptr⟩).1 = .error e) :
    (extractLoopAt mem (n + 1) ptr).1 = .error e := by
  rw [extractLoopAt, Logged.bind_of_error _ h]

theorem extractLoopAt_of_ok {query : DNSQuery}
    (h : (DNSQuery.parseAt mem ⟨.packet, ptr⟩).1 = .ok query) :
    (extractLoopAt mem (n + 1) ptr).1 =
      (extractLoopAt mem n (ptr + query.length)).1.map (query :: ·) := by
  rw [extractLoopAt, Logged.bind_of_ok _ h]
  refine (Logged.fst_bind _ _).trans ?_
  cases (extractLoopAt mem n (ptr + query.length)).1 with
  | error e => rfl
  | ok queries => rfl

theorem extractLoopAt_result (mem : Memory) (n ptr : Nat) :
    (extractLoopAt mem n ptr).1 = match parseQuestions (mem .stack) (mem .packet) n ptr with
      | (queries, none) => .ok queries
      | (_, some e) => .error e := by
  induction n generalizing ptr with
  | zero => rfl
  | succ n ih =>
    have parsed := DNSQuery.parseAt_result mem ⟨.packet, ptr⟩
    rw [Memory.from] at parsed
    rw [parseQuestions]
    cases hq : DNSQuery.parse ((mem .packet).drop ptr) (mem .stack) with
    | error e => exact extractLoopAt_of_error (parsed.trans hq)
    | ok query =>
      rw [extractLoopAt_of_ok (parsed.trans hq), ih]
      simp only
      rcases parseQuestions (mem .stack) (mem .packet) n (ptr + query.length) with
        ⟨queries, none | e⟩
      · rfl
      · rfl

end Loop

theorem extractQueriesAt_eq (p : Packet) (stack : List Byte) :
    extractQueriesAt (p.memory stack) =
      ((extractLoopAt (p.memory stack) (qdcount p.bytes) headerLength).1,
        .load ⟨.packet, 4⟩ :: .load ⟨.packet, 5⟩ ::
          (extractLoopAt (p.memory stack) (qdcount p.bytes) headerLength).2) := by
  have byte : ∀ i < 1024, load (p.memory stack) ⟨.packet, i⟩ =
      (.ok (byteAt p.bytes i), [.load ⟨.packet, i⟩]) := by
    intro i hi
    have hlt : i < p.bytes.length := by
      rw [p.size]
      exact hi
    have here : (p.memory stack).from ⟨.packet, i⟩ = byteAt p.bytes i :: p.bytes.drop (i + 1) := by
      show p.bytes.drop i = _
      rw [List.drop_eq_getElem_cons hlt]
      simp [byteAt, hlt]
    exact load_of_cons here
  unfold extractQueriesAt
  rw [byte 4 (by decide), byte 5 (by decide)]
  rfl

/-- The traced parser finds the questions that `extractQueries` reads. -/
theorem extractQueriesAt_result (p : Packet) (stack : List Byte) :
    (extractQueriesAt (p.memory stack)).1 =
      match parseQuestions stack p.bytes (qdcount p.bytes) headerLength with
      | (queries, none) => .ok queries
      | (_, some e) => .error e := by
  rw [extractQueriesAt_eq]
  exact extractLoopAt_result (p.memory stack) (qdcount p.bytes) headerLength

end OdbcDns
