import OdbcDns.Proofs.Relay

namespace OdbcDns
open Slice Rfc1035

/-- The questions of a packet are found one behind the other, each where the lengths that
`decodeName` has returned for the ones before it say. -/
theorem question_section_framed (cfg : Config) (stack : List Byte) {s : Session}
    {qs : List Question} (count : qdcount s.packet.bytes = qs.length)
    (laid : At s.packet.bytes 12 (questionBytes qs)) :
    ∃ s' queries, extractQueries cfg stack s = (.ok (questionBytes qs).length, s') ∧
      s'.queries = s.queries ++ queries ∧ queries.length = qs.length ∧
      queries.map DNSQuery.qname = qs.map fun q => q.name.text := by
  have parsed := parseQuestions_questions stack qs laid
  have loop : extractQueries cfg stack s = _ :=
    extractLoop_eq cfg stack (qdcount s.packet.bytes) headerLength 0 s
  rw [count, headerLength, parsed] at loop
  simp only [Nat.zero_add, length_questionBytes] at loop
  refine ⟨_, qs.map Question.query, loop, rfl, List.length_map _, ?_⟩
  rw [List.map_map]
  rfl

/-- The packet of a request for the addresses of `a` and `b`, before it is parsed. -/
def askedBoth : Session :=
  Worker.idle.session (.ofDatagram (request 0 7 1 [questionA, questionB]) .zeroed) [] []

theorem askedBoth_section : At askedBoth.packet.bytes 12 (questionBytes [questionA, questionB]) := by
  decide +kernel

theorem askedBoth_count : qdcount askedBoth.packet.bytes = 2 := by decide +kernel

theorem question_section_framed_both :
    ∃ s' queries, extractQueries resolver [] askedBoth = (.ok 14, s') ∧
      s'.queries = askedBoth.queries ++ queries ∧ queries.length = 2 ∧
      queries.map DNSQuery.qname = [[97], [98]] :=
  @question_section_framed resolver [] askedBoth [questionA, questionB] askedBoth_count
    askedBoth_section

/-- The name that starts at a byte of the packet is read as `n`. -/
def StandsAt (packet : List Byte) (off : Nat) (n : List Byte) : Prop :=
  ∃ k, decodeName (packet.drop off) packet (maxDnsNameLength + 1) = .ok (n, k)

/-- Every name in the table stands where the table says. -/
def SoundTable (packet : List Byte) (t : PointerLocations) : Prop :=
  ∀ n loc, t n = some loc → StandsAt packet loc.toNat n

theorem namesTable_apply (t : PointerLocations) (qs : List DNSQuery) (n : List Byte) :
    namesTable t qs n = if n ∈ qs.map DNSQuery.qname then some 12 else t n := by
  induction qs generalizing t with
  | nil => rfl
  | cons q qs ih =>
    refine (ih (t.insert q.qname 12)).trans ?_
    simp only [PointerLocations.insert, List.map_cons, List.mem_cons]
    by_cases here : n = q.qname
    · simp [here]
    · simp [here]

/-- A name that is spelled out at a byte of the packet is the only one that is read there. -/
theorem standsAt_iff {packet : List Byte} {off : Nat} {ls : List Label} (named : ls ≠ [])
    (ok : ∀ l ∈ ls, LabelOk l) (short : (text ls).length ≤ 254)
    (here : At packet off (wire ls)) (n : List Byte) :
    StandsAt packet off n ↔ n = cstr (text ls) := by
  have read := decodeName_labels named ok short packet (packet.drop (off + (wire ls).length))
  rw [← here.drop_eq] at read
  unfold StandsAt
  constructor
  · rintro ⟨k, h⟩
    cases read.symm.trans h
    rfl
  · rintro rfl
    exact ⟨_, read⟩

theorem sound_names_iff {packet : List Byte} {qs : List WireQuestion}
    (named : ∀ q ∈ qs, q.labels ≠ []) (laid : At packet 12 (wireBytes qs)) :
    SoundTable packet (namesTable (fun _ => none) (qs.map WireQuestion.query)) ↔
      ∀ q ∈ qs, ∀ k ∈ qs, q.query.qname = k.query.qname := by
  have entries : ∀ n loc, namesTable (fun _ => none) (qs.map WireQuestion.query) n = some loc ↔
      (∃ q ∈ qs, q.query.qname = n) ∧ loc = 12 := by
    intro n loc
    rw [namesTable_apply, List.map_map]
    by_cases mem : n ∈ qs.map (DNSQuery.qname ∘ WireQuestion.query)
    · rw [if_pos mem, Option.some.injEq]
      exact ⟨fun h => ⟨List.mem_map.mp mem, h.symm⟩, fun h => h.2.symm⟩
    · rw [if_neg mem]
      constructor
      · intro h
        cases h
      · rintro ⟨here, _⟩
        exact absurd (List.mem_map.mpr here) mem
  cases qs with
  | nil => simp [SoundTable, namesTable]
  | cons q qs =>
    obtain ⟨first, _⟩ := at_append.mp (show At packet 12 (q.bytes ++ wireBytes qs) from laid)
    have stands := standsAt_iff (named q (by simp)) q.ok q.short (at_append.mp first).1
    have stands : ∀ n, StandsAt packet 12 n ↔ n = q.query.qname := stands
    constructor
    · intro sound
      have same : ∀ k ∈ q :: qs, k.query.qname = q.query.qname := by
        intro k hk
        exact (stands _).mp (sound _ 12 ((entries _ _).mpr ⟨⟨k, hk, rfl⟩, rfl⟩))
      intro k hk j hj
      rw [same k hk, same j hj]
    · intro same n loc entry
      obtain ⟨⟨k, hk, rfl⟩, rfl⟩ := (entries n loc).mp entry
      exact (stands _).mpr (same k hk q (by simp))

/-- Every name is entered with the place of the first one, so that the table is sound
exactly when all questions ask for one name. -/
theorem table_sound_iff (cfg : Config) (stack : List Byte) {s : Session}
    {qs : List WireQuestion} (clean : s.pointerLocations = fun _ => none)
    (raises : Raises s.packet.bytes qs) :
    (∃ n s', extractQueries cfg stack s = (.ok n, s') ∧
        SoundTable s'.packet.bytes s'.pointerLocations) ↔
      (∀ q ∈ qs, q.labels ≠ []) ∧ ∀ q ∈ qs, ∀ k ∈ qs, q.query.qname = k.query.qname := by
  have loop : extractQueries cfg stack s = _ :=
    extractLoop_eq cfg stack (qdcount s.packet.bytes) headerLength 0 s
  rw [raises.count, headerLength] at loop
  by_cases named : ∀ q ∈ qs, q.labels ≠ []
  · rw [parseQuestions_wire stack named raises.bytes, clean] at loop
    rw [← sound_names_iff named raises.bytes]
    constructor
    · rintro ⟨n, s', h, sound⟩
      cases loop.symm.trans h
      exact ⟨named, sound⟩
    · rintro ⟨_, sound⟩
      exact ⟨_, _, loop, sound⟩
  · have root : ∃ q ∈ qs, q.labels = [] := by simpa using named
    rw [parseQuestions_root stack root raises.bytes] at loop
    constructor
    · rintro ⟨n, s', h, _⟩
      cases loop.symm.trans h
    · rintro ⟨h, _⟩
      exact absurd h named

/-- The packet of a request that asks for the address of `a` twice. -/
def askedTwice : Session :=
  Worker.idle.session (.ofDatagram (request 0 7 1 [questionA, questionA]) .zeroed) [] []

theorem table_sound_iff_twice :
    ∃ n s', extractQueries resolver [] askedTwice = (.ok n, s') ∧
      SoundTable s'.packet.bytes s'.pointerLocations := by
  have raises : Raises askedTwice.packet.bytes [questionA.onWire, questionA.onWire] :=
    ⟨by decide +kernel, by decide +kernel, by decide +kernel⟩
  exact (table_sound_iff resolver [] rfl raises).mpr (by decide)

theorem packet_extractQueries (cfg : Config) (stack : List Byte) (s : Session) :
    (extractQueries cfg stack s).2.packet = s.packet := by
  have loop : extractQueries cfg stack s = _ :=
    extractLoop_eq cfg stack (qdcount s.packet.bytes) headerLength 0 s
  rw [loop]

/-- The name `b` is entered with byte 12, where `a` stands. -/
theorem askedBoth_unsound :
    (extractQueries resolver [] askedBoth).1 = .ok 14 ∧
      (extractQueries resolver [] askedBoth).2.pointerLocations [98] = some 12 ∧
      decodeName (askedBoth.packet.bytes.drop 12) askedBoth.packet.bytes 256 = .ok ([97], 3) ∧
      ¬ SoundTable (extractQueries resolver [] askedBoth).2.packet.bytes
        (extractQueries resolver [] askedBoth).2.pointerLocations := by
  have returned : (extractQueries resolver [] askedBoth).1 = .ok 14 := by decide +kernel
  have entry : (extractQueries resolver [] askedBoth).2.pointerLocations [98] = some 12 := by
    decide +kernel
  have read : decodeName (askedBoth.packet.bytes.drop 12) askedBoth.packet.bytes 256 =
      .ok ([97], 3) := by
    decide +kernel
  refine ⟨returned, entry, read, fun sound => ?_⟩
  rw [packet_extractQueries] at sound
  obtain ⟨k, h⟩ := sound _ _ entry
  cases read.symm.trans h

end OdbcDns
