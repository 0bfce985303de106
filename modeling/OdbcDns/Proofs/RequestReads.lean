import OdbcDns.Proofs.Contained
import OdbcDns.Proofs.TracedParser

namespace OdbcDns
open Rfc1035 Slice

/-- A load hits the first `n` bytes of the packet. -/
def Access.Within (n : Nat) : Access → Prop
  | .load a => a.region = .packet ∧ a.offset < n
  | .store _ _ => True

/-- The call throws, or it returns and has loaded nothing but the first `n` bytes of the
packet. What comes after an access outside an object is undefined and may load anything. -/
def ReadsInside (n : Nat) (x : Traced (List DNSQuery)) : Prop :=
  (∃ what, x.1 = .error (.exception what)) ∨
    (∃ queries, x.1 = .ok queries) ∧ x.All (Access.Within n)

section Within

variable {mem : Memory} {n : Nat}

theorem load_within {i : Nat} (h : i < n) :
    Logged.All (Access.Within n) (load mem ⟨.packet, i⟩) :=
  .bind (.log ⟨rfl, h⟩) fun _ _ => .lift _

theorem strlenAt_within {i : Nat} (bs rest : List Byte) (k : Nat) (h : i + bs.length < n) :
    Logged.All (Access.Within n) (strlenAt ⟨.packet, i⟩ (bs ++ 0 :: rest) k) := by
  induction bs generalizing i k with
  | nil => exact .bind (.log ⟨rfl, h⟩) fun _ _ => .pure k
  | cons b bs ih =>
    rw [List.length_cons] at h
    have here : i < n := by omega
    refine .bind (.log ⟨rfl, here⟩) fun _ _ => ?_
    split
    · exact .pure k
    · exact @ih (i + 1) (k + 1) (by omega)

theorem copyLabelAt_within (bufLen k : Nat) {i : Nat} (h : i + k ≤ n) (c : Cursor) :
    Logged.All (Access.Within n) (copyLabelAt mem bufLen k ⟨.packet, i⟩ c) := by
  induction k generalizing i c with
  | zero => exact .pure c
  | succ k ih =>
    unfold copyLabelAt
    split
    · exact .stop _
    · refine .bind (load_within (by omega)) fun b _ => .bind (.log trivial) fun _ _ => ?_
      exact @ih (i + 1) (by omega) _

theorem decodeLoopAt_within {ls : List Label} (ok : ∀ l ∈ ls, LabelOk l) (message : Region)
    (bufLen fuel : Nat) {i : Nat} {rest : List Byte}
    (hm : mem.from ⟨.packet, i⟩ = wire ls ++ rest) (h : i + (wire ls).length ≤ n) (c : Cursor) :
    Logged.All (Access.Within n) (decodeLoopAt mem message bufLen fuel ⟨.packet, i⟩ c) := by
  induction fuel generalizing ls i c with
  | zero => exact .stop _
  | succ fuel ih =>
    have hpos := length_wire_pos ls
    unfold decodeLoopAt
    refine .bind (load_within (by omega)) fun b0 hb => ?_
    cases ls with
    | nil =>
      rw [load_of_cons hm] at hb
      obtain rfl := Except.ok.inj hb
      rw [if_neg (by decide), if_neg (by decide)]
      refine .bind (.pure _) fun c _ => ?_
      split
      · exact .stop _
      · exact .bind (.log trivial) fun _ _ => .pure _
    | cons l ls =>
      have hl := ok l (by simp)
      have hn := hl.toNat_length
      have len : (wire (l :: ls)).length = l.length + 1 + (wire ls).length := by
        simp only [wire, List.length_cons, List.length_append]
        omega
      rw [load_of_cons hm] at hb
      obtain rfl := Except.ok.inj hb
      have tail : mem.from ⟨.packet, i + (l.length + 1)⟩ = wire ls ++ rest := by
        have := mem.from_add ⟨.packet, i⟩ (l.length + 1)
        rw [hm, wire, List.cons_append, List.append_assoc, List.drop_succ_cons,
          List.drop_left] at this
        exact this
      split
      · rename_i hp
        rw [charToUnsigned_pointer, hn] at hp
        have := hl.2
        omega
      · split
        · exact .stop _
        · rw [hn]
          have copied := @copyLabelAt_within mem n bufLen l.length (i + 1) (by omega) c
          refine .bind copied fun c _ => ?_
          split
          · exact .stop _
          · refine .bind (.log trivial) fun _ _ => ?_
            split
            · exact .pure _
            · exact ih (fun k hk => ok k (by simp [hk])) tail (by omega) _

/-- A question that stands in the first `n` bytes is read there. -/
theorem WireQuestion.parseAt_within (q : WireQuestion) {i : Nat} {rest : List Byte}
    (hm : mem.from ⟨.packet, i⟩ = q.bytes ++ rest) (h : i + q.bytes.length ≤ n) :
    Logged.All (Access.Within n) (DNSQuery.parseAt mem ⟨.packet, i⟩) := by
  have len : q.bytes.length = (wire q.labels).length + 4 := by simp [bytes]
  have hw : mem.from ⟨.packet, i⟩ = wire q.labels ++
      ([q.typeHigh, q.typeLow, q.classHigh, q.classLow] ++ rest) := by
    rw [hm, bytes, List.append_assoc]
  have name : Logged.All (Access.Within n) (decodeNameAt mem ⟨.packet, i⟩ .stack 256) := by
    obtain ⟨bs, he⟩ := wire_concat q.labels
    have hs : (wire q.labels).length = bs.length + 1 := by simp [he]
    refine .bind ?_ fun k _ => ?_
    · rw [hw, he, List.append_assoc]
      exact strlenAt_within bs _ 0 (by omega)
    · split
      · exact .stop _
      · refine .bind (decodeLoopAt_within q.ok _ _ _ hw (by omega) _) fun c _ => ?_
        exact .bind (.log trivial) fun _ _ => .pure _
  have qname : Logged.All (Access.Within n) (decodeString mem ⟨.packet, i⟩ .stack) := by
    refine .bind (.listen name) fun r _ => ?_
    show Logged.All _ (ite _ _ _)
    split
    · exact .pure _
    · exact .stop _
  refine .bind (load_within (by omega)) fun b0 hb => ?_
  have spelled : ¬ charToUnsigned b0 &&& 0xC0 = 0xC0 := by
    obtain ⟨b, bs, he, small⟩ := wire_eq_cons q.ok
    rw [he] at hw
    rw [load_of_cons hw] at hb
    rw [charToUnsigned_pointer, ← Except.ok.inj hb]
    omega
  rw [if_neg spelled]
  refine .bind qname ?_
  rintro ⟨t, k⟩ hk
  rw [decodeString_result] at hk
  obtain ⟨_, ls, reads, _, _, rfl, _⟩ := decodeName_ok_iff.mp hk
  rw [hw] at reads
  obtain rfl := reads.unique (readAs_wire q.ok _ _)
  refine .bind (@load_within mem n (i + _) (by omega)) fun t _ => ?_
  exact .bind (@load_within mem n (i + _) (by omega)) fun c _ => .pure _

end Within

/-- What the parser does with contained questions depends on nothing behind the datagram. -/
theorem Contained.extractLoop {d : List Byte} {n ptr : Nat} (h : Contained d n ptr)
    (received : d.length ≤ 512) :
    ∃ r : Except Stop (List DNSQuery), (∀ e, r = .error e → ∃ what, e = .exception what) ∧
      ∀ (mem : Memory) (behind : List Byte), mem .packet = d ++ behind → 64 ≤ behind.length →
        (extractLoopAt mem n ptr).1 = r ∧
          ((∃ queries, r = .ok queries) →
            Logged.All (Access.Within d.length) (extractLoopAt mem n ptr)) := by
  induction h with
  | none ptr =>
    refine ⟨.ok [], by simp, fun mem behind _ _ => ⟨rfl, fun _ => .pure _⟩⟩
  | @question n ptr q named here _ ih =>
    obtain ⟨r, stops, ih⟩ := ih
    refine ⟨r.map (q.query :: ·), ?_, fun mem behind hm hb => ?_⟩
    · intro e he
      cases r with
      | error e' => exact stops e (by cases he; rfl)
      | ok queries => cases he
    have nonempty := List.ne_nil_of_length_pos q.length_bytes_pos
    have loc : mem.from ⟨.packet, ptr⟩ =
        q.bytes ++ (d ++ behind).drop (ptr + q.bytes.length) := by
      rw [Memory.from, hm]
      exact (At.append here nonempty).drop_eq
    have parsed : (DNSQuery.parseAt mem ⟨.packet, ptr⟩).1 = .ok q.query := by
      rw [DNSQuery.parseAt_result, loc]
      exact q.parse named _ _
    obtain ⟨result, within⟩ := ih mem behind hm hb
    refine ⟨?_, fun hr => .bind (q.parseAt_within loc (here.le nonempty)) fun query hq => ?_⟩
    · rw [extractLoopAt_of_ok parsed]
      exact congrArg (Except.map _) result
    · cases parsed.symm.trans hq
      refine .bind (within ?_) fun queries _ => .pure _
      cases r with
      | error e => obtain ⟨_, hr⟩ := hr; cases hr
      | ok queries => exact ⟨queries, rfl⟩
  | @throws n ptr h =>
    obtain ⟨what, thrown⟩ := h.parse (by rw [List.length_drop]; omega)
    refine ⟨.error (.exception what), fun e he => ⟨what, by cases he; rfl⟩,
      fun mem behind hm hb => ⟨?_, by rintro ⟨_, hr⟩; cases hr⟩⟩
    have parsed : (DNSQuery.parseAt mem ⟨.packet, ptr⟩).1 = .error (.exception what) := by
      rw [DNSQuery.parseAt_result, Memory.from, hm,
        List.drop_append_of_le_length (Nat.le_of_lt h.lt)]
      exact thrown behind _ hb
    exact extractLoopAt_of_error parsed

/-- The last byte that is loaded for a question is the low one of its class. -/
theorem class_within {mem : Memory} {ptr i j n : Nat} {f : Byte → Byte → DNSQuery}
    {query : DNSQuery} {x : Traced DNSQuery}
    (hx : x = do
      let t ← load mem (Address.add ⟨.packet, ptr⟩ i)
      let c ← load mem (Address.add ⟨.packet, ptr⟩ j)
      pure (f t c))
    (h : x.1 = .ok query) (within : x.All (Access.Within n)) :
    ptr + j < n ∧ ∃ t c, query = f t c := by
  subst hx
  simp only [Logged.fst_bind, Except.bind_ok] at h
  obtain ⟨t, ht, c, _, h⟩ := h
  have loaded := (Logged.all_bind.mp ((Logged.all_bind.mp within).2 t ht)).1
  exact ⟨(loaded (.load ⟨.packet, ptr + j⟩) List.mem_cons_self).2, t, c, (Except.ok.inj h).symm⟩

/-- A question that was read inside the first `n` bytes ends there. -/
theorem length_le_of_within {mem : Memory} {ptr n : Nat} {query : DNSQuery}
    (h : (DNSQuery.parseAt mem ⟨.packet, ptr⟩).1 = .ok query)
    (within : Logged.All (Access.Within n) (DNSQuery.parseAt mem ⟨.packet, ptr⟩)) :
    ptr + query.length ≤ n := by
  unfold DNSQuery.parseAt at h within
  rw [Logged.fst_bind] at h
  obtain ⟨b0, hb0, h⟩ := Except.bind_ok.mp h
  replace within := (Logged.all_bind.mp within).2 b0 hb0
  split at h
  · rename_i pointer
    rw [if_pos pointer] at within
    rw [Logged.fst_bind] at h
    obtain ⟨b1, hb1, h⟩ := Except.bind_ok.mp h
    replace within := (Logged.all_bind.mp within).2 b1 hb1
    rw [Logged.fst_bind] at h
    obtain ⟨⟨name, k⟩, hk, h⟩ := Except.bind_ok.mp h
    obtain ⟨last, t, c, rfl⟩ := class_within rfl h ((Logged.all_bind.mp within).2 _ hk)
    exact last
  · rename_i spelled
    rw [if_neg spelled] at within
    rw [Logged.fst_bind] at h
    obtain ⟨⟨name, k⟩, hk, h⟩ := Except.bind_ok.mp h
    obtain ⟨last, t, c, rfl⟩ := class_within rfl h ((Logged.all_bind.mp within).2 _ hk)
    exact last

theorem ReadsInside.tail {mem : Memory} {k n ptr : Nat} {query : DNSQuery}
    (h : ReadsInside n (extractLoopAt mem (k + 1) ptr))
    (parsed : (DNSQuery.parseAt mem ⟨.packet, ptr⟩).1 = .ok query) :
    ReadsInside n (extractLoopAt mem k (ptr + query.length)) := by
  have result := extractLoopAt_of_ok (n := k) parsed
  cases tail : (extractLoopAt mem k (ptr + query.length)).1 with
  | error e =>
    rw [tail] at result
    rcases h with ⟨what, h⟩ | ⟨⟨queries, h⟩, _⟩
    · cases result.symm.trans h
      exact .inl ⟨what, tail⟩
    · cases result.symm.trans h
  | ok queries =>
    rw [tail] at result
    rcases h with ⟨what, h⟩ | ⟨_, within⟩
    · cases result.symm.trans h
    · have within := (Logged.all_bind.mp within).2 query parsed
      exact .inr ⟨⟨queries, tail⟩, (Logged.all_bind.mp within).1⟩

section Pointers

variable {mem : Memory} {d behind : List Byte}

/-- Questions are read inside the datagram, and nothing but pointers behind it, only when
they are contained in it. -/
theorem contained_of_readsInside (hm : mem .packet = d ++ behind) (hs : mem .stack = [])
    (pointers : ∀ b ∈ behind, 192 ≤ b.toNat) {n ptr : Nat}
    (h : ReadsInside d.length (extractLoopAt mem n ptr)) : Contained d n ptr := by
  have result : ∀ ptr, (DNSQuery.parseAt mem ⟨.packet, ptr⟩).1 =
      DNSQuery.parse (d.drop ptr ++ behind.drop (ptr - d.length)) [] := by
    intro ptr
    rw [DNSQuery.parseAt_result, hs, Memory.from, hm, List.drop_append]
  have pointers : ∀ k, ∀ b ∈ behind.drop k, 192 ≤ b.toNat :=
    fun k b hb => pointers b (List.mem_of_mem_drop hb)
  have inside : ∀ {n ptr}, ReadsInside d.length (extractLoopAt mem (n + 1) ptr) →
      ptr < d.length := by
    intro n ptr h
    refine Nat.lt_of_not_le fun hle => ?_
    have parsed := result ptr
    rw [List.drop_eq_nil_of_le hle, List.nil_append, parse_behind (pointers _)] at parsed
    have stopped := extractLoopAt_of_error (n := n) parsed
    rcases h with ⟨what, h⟩ | ⟨⟨queries, h⟩, _⟩
    · cases stopped.symm.trans h
    · cases stopped.symm.trans h
  induction n generalizing ptr with
  | zero => exact .none ptr
  | succ n ih =>
    cases parsed : (DNSQuery.parseAt mem ⟨.packet, ptr⟩).1 with
    | error e =>
      have stopped := extractLoopAt_of_error (n := n) parsed
      rcases h with ⟨what, h⟩ | ⟨⟨queries, h⟩, _⟩
      · cases stopped.symm.trans h
        exact .throws (throws_of_parse (pointers _) ((result ptr).symm.trans parsed))
      · cases stopped.symm.trans h
    | ok query =>
      have tail := h.tail parsed
      have fits : ptr + query.length ≤ d.length := by
        cases n with
        | succ n => exact Nat.le_of_lt (inside tail)
        | zero =>
          rcases h with ⟨what, h⟩ | ⟨_, within⟩
          · cases (extractLoopAt_of_ok (n := 0) parsed).symm.trans h
          · exact length_le_of_within parsed (Logged.all_bind.mp within).1
      obtain ⟨ls, named, ok, front, short, len⟩ :=
        prefix_of_parse (pointers _) ((result ptr).symm.trans parsed)
      have text := length_wire named
      have four : ((d.drop (ptr + (wire ls).length)).take 4).length = 4 := by
        rw [List.length_take, List.length_drop]
        omega
      obtain ⟨typeHigh, typeLow, classHigh, classLow, last⟩ := List.length_eq_four.mp four
      let q : WireQuestion := ⟨ls, ok, by omega, typeHigh, typeLow, classHigh, classLow⟩
      have here : At d ptr q.bytes := at_append.mpr ⟨front, last ▸ List.take_prefix 4 _⟩
      have hq : q.bytes.length = query.length := by simp [q, WireQuestion.bytes, len]
      exact .question q named here (hq ▸ ih tail)

end Pointers

theorem qdcount_append {d : List Byte} (h : 6 ≤ d.length) (behind : List Byte) :
    qdcount (d ++ behind) = qdcount d :=
  qdcount_of_take_eq (n := d.length) (by rw [List.take_left, List.take_length]) h

theorem contained_of_pointers {p : Packet} {d behind : List Byte} (bytes : p.bytes = d ++ behind)
    (pointers : ∀ b ∈ behind, 192 ≤ b.toNat)
    (reads : ReadsInside d.length (extractQueriesAt (p.memory []))) :
    6 ≤ d.length ∧ Contained d (qdcount d) headerLength := by
  have loop : ReadsInside d.length
      (extractLoopAt (p.memory []) (qdcount p.bytes) headerLength) := by
    rw [extractQueriesAt_eq] at reads
    refine reads.imp_right fun h => ⟨h.1, fun a ha => h.2 a ?_⟩
    exact List.mem_cons_of_mem _ (List.mem_cons_of_mem _ ha)
  have contained := contained_of_readsInside bytes rfl pointers loop
  by_cases header : 6 ≤ d.length
  · rw [bytes, qdcount_append header] at contained
    exact ⟨header, contained⟩
  · -- the count is taken from behind the datagram, and it is not zero
    have high : 192 ≤ (byteAt p.bytes 5).toNat := by
      have size := p.size
      rw [bytes, List.length_append, packetAllocation] at size
      have hlt : 5 - d.length < behind.length := by omega
      rw [byteAt, bytes, List.getD_eq_getElem?_getD, List.getElem?_append_right (by omega),
        List.getElem?_eq_getElem hlt]
      exact pointers _ (List.getElem_mem hlt)
    obtain ⟨n, hn⟩ := Nat.exists_eq_succ_of_ne_zero (n := qdcount p.bytes) (by
      unfold qdcount
      omega)
    rw [hn] at contained
    have := contained.lt
    unfold headerLength at this
    omega

theorem Contained.reads {d : List Byte} (received : d.length ≤ 512) (header : 6 ≤ d.length)
    (h : Contained d (qdcount d) headerLength) :
    ∃ r, ∀ (p : Packet) (behind stack : List Byte), p.bytes = d ++ behind →
      (extractQueriesAt (p.memory stack)).1 = r ∧
        ReadsInside d.length (extractQueriesAt (p.memory stack)) := by
  obtain ⟨r, stops, run⟩ := h.extractLoop received
  refine ⟨r, fun p behind stack bytes => ?_⟩
  have enough : 64 ≤ behind.length := by
    have := p.size
    rw [bytes, List.length_append, packetAllocation] at this
    omega
  obtain ⟨result, within⟩ := run (p.memory stack) behind bytes enough
  rw [extractQueriesAt_eq, bytes, qdcount_append header]
  refine ⟨result, ?_⟩
  cases r with
  | error e =>
    obtain ⟨what, rfl⟩ := stops e rfl
    exact .inl ⟨what, result⟩
  | ok queries =>
    have count : 4 < d.length ∧ 5 < d.length := by omega
    refine .inr ⟨⟨queries, result⟩, fun a ha => ?_⟩
    rcases List.mem_cons.mp ha with rfl | ha
    · exact ⟨rfl, count.1⟩
    rcases List.mem_cons.mp ha with rfl | ha
    · exact ⟨rfl, count.2⟩
    · exact within ⟨queries, rfl⟩ a ha

/-- What `extractQueries` does with a datagram in a buffer with the given earlier content. -/
def extracted (d : List Byte) (old : Packet) (stack : List Byte) : Traced (List DNSQuery) :=
  extractQueriesAt ((Packet.ofDatagram d old).memory stack)

/-- The parser reads inside a datagram, and its result depends on nothing else, exactly when
the datagram has the count of questions and contains the questions. -/
theorem reads_inside_iff {d : List Byte} (received : d.length ≤ 512) :
    ((∀ old stack, ReadsInside d.length (extracted d old stack)) ∧
      ∀ old stack old' stack', (extracted d old stack).1 = (extracted d old' stack').1) ↔
    6 ≤ d.length ∧ Contained d (qdcount d) headerLength := by
  constructor
  · rintro ⟨inside, _⟩
    refine contained_of_pointers (ofDatagram_bytes received
      ⟨List.replicate packetAllocation 0xC0, List.length_replicate⟩) ?_ (inside _ [])
    intro b hb
    rw [List.eq_of_mem_replicate (List.mem_of_mem_drop hb)]
    decide
  · rintro ⟨header, contained⟩
    obtain ⟨r, run⟩ := contained.reads received header
    have run := fun old stack => run _ _ stack (ofDatagram_bytes received old)
    refine ⟨fun old stack => (run old stack).2, fun old stack old' stack' => ?_⟩
    exact (run old stack).1.trans (run old' stack').1.symm

theorem reads_inside_plain :
    (∀ old stack, ReadsInside 19 (extracted plainRequest old stack)) ∧
      ∀ old stack old' stack',
        (extracted plainRequest old stack).1 = (extracted plainRequest old' stack').1 := by
  have here : At plainRequest 12 ([1, 97, 0] ++ [0, 1, 0, 1]) := by decide
  refine (reads_inside_iff (d := plainRequest) (by decide)).mpr ⟨by decide, ?_⟩
  exact .question ⟨[[97]], by decide, by decide, 0, 1, 0, 1⟩ (by decide) here (.none _)

/-- Two questions: the name `a` spelled out, and a pointer to it. -/
def pointerRequest : List Byte :=
  [0, 7, 1, 0, 0, 2, 0, 0, 0, 0, 0, 0] ++ [1, 97, 0, 0, 1, 0, 1] ++ [0xC0, 12, 0, 1, 0, 1]

/-- A stack with the name `b` where the pointer points to. -/
def nameOnStack : List Byte := List.replicate 12 0 ++ [1, 98, 0]

def cleared : Packet := ⟨List.replicate packetAllocation 0, List.length_replicate⟩

/-- The pointer is followed into the stack, so that the second question asks for what
happens to be there. -/
theorem pointerRequest_reads_stack :
    (extracted pointerRequest cleared nameOnStack).1 =
        .ok [⟨[97], 1, 1, 7⟩, ⟨[98], 1, 1, 6⟩] ∧
      .load ⟨.stack, 12⟩ ∈ (extracted pointerRequest cleared nameOnStack).2 ∧
      (extracted pointerRequest cleared []).1 = .error (.fault .outOfBounds) ∧
      ¬ ((∀ old stack, ReadsInside 25 (extracted pointerRequest old stack)) ∧
        ∀ old stack old' stack',
          (extracted pointerRequest old stack).1 = (extracted pointerRequest old' stack').1) := by
  have found : (extracted pointerRequest cleared nameOnStack).1 =
      .ok [⟨[97], 1, 1, 7⟩, ⟨[98], 1, 1, 6⟩] := by
    decide +kernel
  have loaded : .load ⟨.stack, 12⟩ ∈ (extracted pointerRequest cleared nameOnStack).2 := by
    decide +kernel
  have stopped : (extracted pointerRequest cleared []).1 = .error (.fault .outOfBounds) := by
    decide +kernel
  refine ⟨found, loaded, stopped, fun h => ?_⟩
  rcases h.1 cleared nameOnStack with ⟨what, h⟩ | ⟨_, within⟩
  · cases found.symm.trans h
  · cases (within _ loaded).1

end OdbcDns
