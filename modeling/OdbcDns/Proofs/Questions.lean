import OdbcDns.Proofs.Header
import OdbcDns.Proofs.Lookup
import Mathlib.Algebra.GroupWithZero.Nat

namespace OdbcDns
open Slice Rfc1035

theorem At.append {m rest ys : List Byte} {off : Nat} (h : At m off ys) (hne : ys ≠ []) :
    At (m ++ rest) off ys := by
  have hle := h.le hne
  have hp := List.length_pos_of_ne_nil hne
  rw [at_iff] at h ⊢
  intro i hi
  rw [List.getElem?_append_left (by omega)]
  exact h i hi

/-- A question with an uncompressed well-formed name. -/
structure Question where
  name : DomainName
  typeHigh : Byte
  typeLow : Byte
  classHigh : Byte
  classLow : Byte

namespace Question

def bytes (q : Question) : List Byte :=
  q.name.wire ++ [q.typeHigh, q.typeLow, q.classHigh, q.classLow]

/-- What the parser makes of it: only the low bytes of type and class are read. -/
def query (q : Question) : DNSQuery :=
  ⟨q.name.text, charToU16 q.typeLow, charToU16 q.classLow, q.bytes.length⟩

end Question

theorem leadingPointer_labels {ls : List Label} (hok : ∀ l ∈ ls, LabelOk l) (rest : List Byte) :
    leadingPointer (wire ls ++ rest) = .ok none := by
  obtain ⟨b, bs, he, small⟩ := wire_eq_cons hok
  rw [he]
  exact leadingPointer_low (by omega) _

theorem DomainName.leadingPointer_wire (n : DomainName) (rest : List Byte) :
    leadingPointer (n.wire ++ rest) = .ok none := leadingPointer_labels n.ok rest

theorem readByte_append (bs : List Byte) (b : Byte) (rest : List Byte) {i : Nat}
    (h : i = bs.length) : readByte (bs ++ b :: rest) i = .ok b := by
  subst h
  simp [readByte]

/-- What the parser makes of a question with a spelled-out name: only the low
bytes of type and class are read. -/
theorem DNSQuery.parse_labels {ls : List Label} (hne : ls ≠ []) (hok : ∀ l ∈ ls, LabelOk l)
    (hshort : (text ls).length ≤ 254) (typeHigh typeLow classHigh classLow : Byte)
    (stack rest : List Byte) :
    DNSQuery.parse (wire ls ++ (typeHigh :: typeLow :: classHigh :: classLow :: rest)) stack =
      .ok ⟨cstr (text ls), charToU16 typeLow, charToU16 classLow, (wire ls).length + 4⟩ := by
  have hw := length_wire hne
  have hd : ∀ rest, decodeName (wire ls ++ rest) stack (maxDnsNameLength + 1) =
      .ok (cstr (text ls), (text ls).length + 2) := decodeName_labels hne hok hshort stack
  have ht := readByte_append (wire ls ++ [typeHigh]) typeLow (classHigh :: classLow :: rest)
    (i := (text ls).length + 2 + 1) (by simp [hw])
  have hc := readByte_append (wire ls ++ [typeHigh, typeLow, classHigh]) classLow rest
    (i := (text ls).length + 2 + 3) (by simp [hw])
  simp only [List.append_assoc, List.cons_append, List.nil_append] at ht hc
  unfold DNSQuery.parse
  simp only [leadingPointer_labels hok, hd, bind, Except.bind, ht, hc, hw]

/-- A root question makes the parser write in front of its name buffer. -/
theorem DNSQuery.parse_root (stack rest : List Byte) :
    DNSQuery.parse (wire [] ++ rest) stack = .error (.fault .outOfBounds) := by
  have hp : leadingPointer (wire [] ++ rest) = .ok none := leadingPointer_labels (by simp) rest
  have hd : decodeName (wire [] ++ rest) stack (maxDnsNameLength + 1) =
      .error (.fault .outOfBounds) := decodeName_root stack rest
  unfold DNSQuery.parse
  simp only [hp, hd, bind, Except.bind]

/-- A question with any uncompressed name that fits the name buffers. -/
structure WireQuestion where
  labels : List Label
  ok : ∀ l ∈ labels, LabelOk l
  short : (text labels).length ≤ 254
  typeHigh : Byte
  typeLow : Byte
  classHigh : Byte
  classLow : Byte

namespace WireQuestion

def bytes (q : WireQuestion) : List Byte :=
  wire q.labels ++ [q.typeHigh, q.typeLow, q.classHigh, q.classLow]

/-- What the parser makes of it. -/
def query (q : WireQuestion) : DNSQuery :=
  ⟨cstr (text q.labels), charToU16 q.typeLow, charToU16 q.classLow, q.bytes.length⟩

theorem bytes_append (q : WireQuestion) (rest : List Byte) : q.bytes ++ rest =
    wire q.labels ++ (q.typeHigh :: q.typeLow :: q.classHigh :: q.classLow :: rest) := by
  simp [bytes]

theorem parse (q : WireQuestion) (hne : q.labels ≠ []) (stack rest : List Byte) :
    DNSQuery.parse (q.bytes ++ rest) stack = .ok q.query := by
  rw [bytes_append, DNSQuery.parse_labels hne q.ok q.short, query, bytes, List.length_append]
  rfl

theorem parse_root (q : WireQuestion) (he : q.labels = []) (stack rest : List Byte) :
    DNSQuery.parse (q.bytes ++ rest) stack = .error (.fault .outOfBounds) := by
  rw [bytes_append, he, DNSQuery.parse_root]

theorem length_qname (q : WireQuestion) : q.query.qname.length ≤ 254 :=
  Nat.le_trans (length_cstr_le _) q.short

theorem length_bytes_pos (q : WireQuestion) : 0 < q.bytes.length := by simp [bytes]

end WireQuestion

def Question.onWire (q : Question) : WireQuestion :=
  ⟨q.name.labels, q.name.ok, q.name.short, q.typeHigh, q.typeLow, q.classHigh, q.classLow⟩

theorem Question.query_onWire (q : Question) : q.onWire.query = q.query := by
  have ht : cstr (text q.name.labels) = q.name.text := cstr_eq_self q.name.zero_not_mem
  rw [WireQuestion.query, Question.onWire, ht]
  rfl

theorem decodeLoop_length {packet : List Byte} {bufLen fuel : Nat} {srcLoc out r : List Byte}
    (h : decodeLoop packet bufLen fuel srcLoc out = .ok r) : r.length ≤ bufLen := by
  induction fuel generalizing srcLoc out with
  | zero => cases h
  | succ fuel ih =>
    unfold decodeLoop at h
    cases srcLoc with
    | nil => cases h
    | cons b0 rest =>
      simp only at h
      split at h
      · cases rest with
        | nil => cases h
        | cons b1 rest => exact ih h
      · split at h
        · cases h
        · rw [Except.bind_ok] at h
          obtain ⟨out', _, h⟩ := h
          split at h
          · cases h
          · rename_i hlt
            split at h
            · cases h
              rw [List.length_append, List.length_singleton]
              omega
            · exact ih h

theorem length_cstr_set {mem : List Byte} {k : Nat} (h : k < mem.length) :
    (cstr (mem.set k 0)).length ≤ k := by
  rw [List.set_eq_take_append_cons_drop, if_pos h, cstr_append_zero]
  exact Nat.le_trans (length_cstr_le _) (List.length_take_le _ _)

theorem decodeName_length {name packet text : List Byte} {bufLen n : Nat}
    (h : decodeName name packet bufLen = .ok (text, n)) : text.length + 2 ≤ n ∧ n ≤ bufLen := by
  unfold decodeName decodeNameWithin at h
  rw [Except.bind_ok] at h
  obtain ⟨_, _, h⟩ := h
  split at h
  · cases h
  · rw [Except.bind_ok] at h
    obtain ⟨out, hl, h⟩ := h
    split at h
    · cases h
    · cases h
      have ht : (cstr (out.set (out.length - 2) 0)).length ≤ out.length - 2 :=
        length_cstr_set (by omega)
      exact ⟨by omega, decodeLoop_length hl⟩

/-- An accepted question counts for at most 260 bytes, and its name fits the buffer
of the lookup. -/
theorem DNSQuery.parse_bounds {start message : List Byte} {q : DNSQuery}
    (h : DNSQuery.parse start message = .ok q) : q.length ≤ 260 ∧ q.qname.length ≤ 254 := by
  unfold DNSQuery.parse at h
  rw [Except.bind_ok] at h
  obtain ⟨p, _, h⟩ := h
  cases p with
  | some ptr =>
    simp only [Except.bind_ok] at h
    obtain ⟨⟨name, n⟩, hn, _, _, _, _, h⟩ := h
    have hb := decodeName_length hn
    cases h
    simp only [maxDnsNameLength] at hb ⊢
    omega
  | none =>
    simp only [Except.bind_ok] at h
    obtain ⟨⟨name, n⟩, hn, _, _, _, _, h⟩ := h
    have hb := decodeName_length hn
    cases h
    simp only [maxDnsNameLength] at hb ⊢
    omega

/-- A question takes five bytes or more, and is within the memory that the parser reads. -/
theorem DNSQuery.parse_within {start message : List Byte} {q : DNSQuery}
    (h : DNSQuery.parse start message = .ok q) : 5 ≤ q.length ∧ q.length ≤ start.length := by
  have read : ∀ {i b}, readByte start i = .ok b → i < start.length := by
    intro i b hb
    unfold readByte at hb
    split at hb
    · rename_i found
      exact (List.getElem?_eq_some_iff.mp found).1
    · cases hb
  unfold DNSQuery.parse at h
  rw [Except.bind_ok] at h
  obtain ⟨p, _, h⟩ := h
  cases p with
  | some ptr =>
    simp only [Except.bind_ok] at h
    obtain ⟨⟨name, n⟩, _, _, _, _, last, h⟩ := h
    cases h
    exact ⟨Nat.le_succ 5, read last⟩
  | none =>
    simp only [Except.bind_ok] at h
    obtain ⟨⟨name, n⟩, hn, _, _, _, last, h⟩ := h
    have long := decodeName_length hn
    cases h
    exact ⟨by dsimp only; omega, read last⟩

/-- The questions of a packet from offset `ptr` on, as `extractQueries` reads
them, and what has stopped it before the last one. -/
def parseQuestions (stack packet : List Byte) : Nat → Nat → List DNSQuery × Option Stop
  | 0, _ => ([], none)
  | n + 1, ptr =>
    match DNSQuery.parse (packet.drop ptr) stack with
    | .error e => ([], some e)
    | .ok query =>
      let (queries, stop) := parseQuestions stack packet n (ptr + query.length)
      (query :: queries, stop)

theorem parseQuestions_bounds (stack packet : List Byte) (n ptr : Nat) :
    ∀ q ∈ (parseQuestions stack packet n ptr).1, q.length ≤ 260 ∧ q.qname.length ≤ 254 := by
  induction n generalizing ptr with
  | zero => simp [parseQuestions]
  | succ n ih =>
    unfold parseQuestions
    cases hq : DNSQuery.parse (packet.drop ptr) stack with
    | error e => simp
    | ok q => simpa using ⟨DNSQuery.parse_bounds hq, ih _⟩

theorem parseQuestions_length (stack packet : List Byte) (n ptr : Nat) :
    ∀ q ∈ (parseQuestions stack packet n ptr).1, q.length ≤ 260 :=
  fun q hq => (parseQuestions_bounds stack packet n ptr q hq).1

theorem parseQuestions_count_le (stack packet : List Byte) (n ptr : Nat) :
    (parseQuestions stack packet n ptr).1.length ≤ n := by
  induction n generalizing ptr with
  | zero => exact Nat.le_refl 0
  | succ n ih =>
    unfold parseQuestions
    cases DNSQuery.parse (packet.drop ptr) stack with
    | error e => simp
    | ok q => exact Nat.succ_le_succ (ih _)

/-- The questions that are read stand one behind the other in the packet. -/
theorem parseQuestions_within (stack packet : List Byte) (n ptr : Nat) :
    5 * (parseQuestions stack packet n ptr).1.length ≤
        ((parseQuestions stack packet n ptr).1.map DNSQuery.length).sum ∧
      ((parseQuestions stack packet n ptr).1.map DNSQuery.length).sum ≤ packet.length - ptr := by
  induction n generalizing ptr with
  | zero => exact ⟨Nat.le_refl _, Nat.zero_le _⟩
  | succ n ih =>
    unfold parseQuestions
    cases hq : DNSQuery.parse (packet.drop ptr) stack with
    | error e => exact ⟨Nat.le_refl _, Nat.zero_le _⟩
    | ok q =>
      obtain ⟨long, within⟩ := DNSQuery.parse_within hq
      have rest := ih (ptr + q.length)
      rw [List.length_drop] at within
      simp only [List.length_cons, List.map_cons, List.sum_cons]
      omega

/-- The table that `extractQueries` leaves: every name is said to stand where
the first one does. -/
def namesTable (t : PointerLocations) (qs : List DNSQuery) : PointerLocations :=
  qs.foldl (fun t q => t.insert q.qname 12) t

/-- The loop of `extractQueries` keeps what it has parsed, also when it stops. -/
theorem extractLoop_eq (cfg : Config) (stack : List Byte) (n ptr length : Nat) (s : Session) :
    extractLoop cfg stack n ptr length s =
      (match (parseQuestions stack s.packet.bytes n ptr).2 with
        | none =>
          .ok (length + ((parseQuestions stack s.packet.bytes n ptr).1.map DNSQuery.length).sum)
        | some e => .error e,
      { s with
        queries := s.queries ++ (parseQuestions stack s.packet.bytes n ptr).1
        pointerLocations :=
          namesTable s.pointerLocations (parseQuestions stack s.packet.bytes n ptr).1 }) := by
  induction n generalizing ptr length s with
  | zero => simp [extractLoop_zero, parseQuestions, namesTable]
  | succ n ih =>
    simp only [extractLoop_succ, Act.bind_apply, Act.get_apply, Act.lift_apply, parseQuestions]
    cases hq : DNSQuery.parse (s.packet.bytes.drop ptr) stack with
    | error e => simp [namesTable]
    | ok q =>
      simp only [logGuarded_ok, Act.modify_apply]
      refine (ih _ _ _).trans ?_
      simp [namesTable, headerLength, Nat.add_assoc]

/-- The questions of a request. -/
def Turn.parsed (t : Turn) : List DNSQuery × Option Stop :=
  parseQuestions t.locals.stack (Packet.ofDatagram t.datagram t.buffer).bytes
    (qdcount (Packet.ofDatagram t.datagram t.buffer).bytes) headerLength

theorem Turn.five_mul_length_parsed_le (t : Turn) :
    5 * t.parsed.1.length ≤ (t.parsed.1.map DNSQuery.length).sum :=
  (parseQuestions_within t.locals.stack (Packet.ofDatagram t.datagram t.buffer).bytes _ _).1

/-- All questions of a request are in its packet. -/
theorem Turn.sum_parsed_le (t : Turn) : (t.parsed.1.map DNSQuery.length).sum ≤ 1012 := by
  have within := (parseQuestions_within t.locals.stack
    (Packet.ofDatagram t.datagram t.buffer).bytes
    (qdcount (Packet.ofDatagram t.datagram t.buffer).bytes) headerLength).2
  rw [Packet.size, packetAllocation, headerLength] at within
  exact within

/-- So the answers start behind them. -/
theorem Turn.sizeAdd_parsed (t : Turn) : sizeAdd headerLength (t.parsed.1.map DNSQuery.length).sum =
    12 + (t.parsed.1.map DNSQuery.length).sum := by
  have small := t.sum_parsed_le
  exact sizeAdd_of_lt (by unfold headerLength; omega)

/-- Reading the questions of a request stays within the memory that it may use. The root as a
name does not: its text is terminated in front of the buffer. -/
def Turn.Defined (t : Turn) : Prop := t.parsed.2 ≠ some (.fault .outOfBounds)

/-- The session that is left when these questions have been extracted. -/
def Worker.extracted (w : Worker) (t : Turn) (qs : List DNSQuery) : Session :=
  { w.session (.ofDatagram t.datagram t.buffer) t.exchanges t.driver with
    queries := w.queries ++ qs
    pointerLocations := namesTable w.pointerLocations qs }

theorem Worker.queries_extracted {w : Worker} (hq : w.queries = []) (t : Turn)
    (qs : List DNSQuery) : (w.extracted t qs).queries = qs := by
  rw [Worker.extracted, hq, List.nil_append]

theorem Worker.extractQueries_eq (cfg : Config) (t : Turn) (w : Worker) :
    extractQueries cfg t.locals.stack
        (w.session (.ofDatagram t.datagram t.buffer) t.exchanges t.driver) =
      (match t.parsed.2 with
        | none => .ok (t.parsed.1.map DNSQuery.length).sum
        | some e => .error e, w.extracted t t.parsed.1) := by
  refine (extractLoop_eq cfg t.locals.stack _ headerLength 0 _).trans ?_
  simp only [Nat.zero_add]
  rfl

/-- What the first `try` block does. -/
theorem Worker.extract_eq (cfg : Config) (t : Turn) (w : Worker) :
    w.extract cfg t = match t.parsed.2 with
      | none => .ok ⟨w.extracted t t.parsed.1, false, (t.parsed.1.map DNSQuery.length).sum,
          (t.parsed.1.map DNSQuery.length).sum⟩
      | some (.fault f) => .error f
      | some _ => .ok ⟨{ w.extracted t t.parsed.1 with
          packet := (w.extracted t t.parsed.1).packet.setRcode Rcode.formatError.byte }, true,
          w.totalBytes, w.queryBytes⟩ := by
  unfold Worker.extract
  rw [Worker.extractQueries_eq]
  cases t.parsed.2 with
  | none => rfl
  | some e => cases e <;> rfl

/-- The section of several questions. -/
def questionBytes (qs : List Question) : List Byte := qs.flatMap Question.bytes

/-- The table with the names of these questions. -/
def questionTable (t : PointerLocations) (qs : List Question) : PointerLocations :=
  qs.foldl (fun t q => t.insert q.name.text 12) t

theorem namesTable_query (t : PointerLocations) (qs : List Question) :
    namesTable t (qs.map Question.query) = questionTable t qs := by
  unfold namesTable questionTable
  rw [List.foldl_map]
  rfl

theorem length_questionBytes (qs : List Question) :
    ((qs.map Question.query).map DNSQuery.length).sum = (questionBytes qs).length := by
  rw [questionBytes, List.length_flatMap, List.map_map]
  rfl

/-- The section of several questions with any names. -/
def wireBytes (qs : List WireQuestion) : List Byte := qs.flatMap WireQuestion.bytes

theorem length_wireBytes (qs : List WireQuestion) :
    ((qs.map WireQuestion.query).map DNSQuery.length).sum = (wireBytes qs).length := by
  rw [wireBytes, List.length_flatMap, List.map_map]
  rfl

theorem parseQuestions_wire (stack : List Byte) {packet : List Byte} {qs : List WireQuestion}
    (named : ∀ q ∈ qs, q.labels ≠ []) {ptr : Nat} (h : At packet ptr (wireBytes qs)) :
    parseQuestions stack packet qs.length ptr = (qs.map WireQuestion.query, none) := by
  induction qs generalizing ptr with
  | nil => rfl
  | cons q qs ih =>
    obtain ⟨hq, hqs⟩ := at_append.mp (show At packet ptr (q.bytes ++ wireBytes qs) from h)
    have hp := q.parse (named q (by simp)) stack (packet.drop (ptr + q.bytes.length))
    rw [← hq.drop_eq] at hp
    have hi : parseQuestions stack packet qs.length (ptr + q.query.length) =
        (qs.map WireQuestion.query, none) := ih (fun k hk => named k (by simp [hk])) hqs
    simp only [List.length_cons, parseQuestions, hp, hi, List.map_cons]

/-- A root name among them stops the parser. -/
theorem parseQuestions_root (stack : List Byte) {packet : List Byte} {qs : List WireQuestion}
    (root : ∃ q ∈ qs, q.labels = []) {ptr : Nat} (h : At packet ptr (wireBytes qs)) :
    (parseQuestions stack packet qs.length ptr).2 = some (.fault .outOfBounds) := by
  induction qs generalizing ptr with
  | nil => simp at root
  | cons q qs ih =>
    obtain ⟨hq, hqs⟩ := at_append.mp (show At packet ptr (q.bytes ++ wireBytes qs) from h)
    by_cases he : q.labels = []
    · have hp := q.parse_root he stack (packet.drop (ptr + q.bytes.length))
      rw [← hq.drop_eq] at hp
      simp only [List.length_cons, parseQuestions, hp]
    · have hp := q.parse he stack (packet.drop (ptr + q.bytes.length))
      rw [← hq.drop_eq] at hp
      have hr : ∃ k ∈ qs, k.labels = [] := by
        obtain ⟨k, hk, hroot⟩ := root
        rcases List.mem_cons.mp hk with rfl | hk
        · exact absurd hroot he
        · exact ⟨k, hk, hroot⟩
      have hi : (parseQuestions stack packet qs.length (ptr + q.query.length)).2 =
          some (.fault .outOfBounds) := ih hr hqs
      simp only [List.length_cons, parseQuestions, hp, hi]

theorem wireBytes_onWire (qs : List Question) :
    wireBytes (qs.map Question.onWire) = questionBytes qs := by
  rw [wireBytes, List.flatMap_map]
  rfl

theorem named_onWire (qs : List Question) : ∀ k ∈ qs.map Question.onWire, k.labels ≠ [] := by
  intro k hk
  obtain ⟨q, _, rfl⟩ := List.mem_map.mp hk
  exact q.name.nonempty

theorem parseQuestions_questions (stack : List Byte) {packet : List Byte} (qs : List Question)
    {ptr : Nat} (h : At packet ptr (questionBytes qs)) :
    parseQuestions stack packet qs.length ptr = (qs.map Question.query, none) := by
  rw [← wireBytes_onWire] at h
  have hp := parseQuestions_wire stack (named_onWire qs) h
  rw [List.length_map, List.map_map] at hp
  rw [hp]
  simp only [Function.comp_def, Question.query_onWire]

/-- A datagram that asks these questions. -/
structure Asks (d : List Byte) (qs : List Question) : Prop where
  some : qs ≠ []
  count : qdcount d = qs.length
  bytes : At d 12 (questionBytes qs)

theorem Asks.bytes_ne_nil {d : List Byte} {qs : List Question} (h : Asks d qs) :
    questionBytes qs ≠ [] := by
  obtain ⟨q, rest, rfl⟩ := List.exists_cons_of_ne_nil h.some
  simp [questionBytes, Question.bytes]

theorem Asks.le {d : List Byte} {qs : List Question} (h : Asks d qs) :
    12 + (questionBytes qs).length ≤ d.length := h.bytes.le h.bytes_ne_nil

/-- The session that is left when the questions of a datagram are extracted. -/
def Worker.asked (w : Worker) (t : Turn) (qs : List Question) : Session :=
  { w.session (.ofDatagram t.datagram t.buffer) t.exchanges t.driver with
    queries := w.queries ++ qs.map Question.query
    pointerLocations := questionTable w.pointerLocations qs }

/-- What the first `try` block leaves when it accepts all questions. -/
theorem Worker.extract_ok {cfg : Config} {t : Turn} {w : Worker} {g : Worker.Stage}
    (h : w.extract cfg t = .ok g) (he : g.error = false) :
    t.parsed.2 = none ∧ g = ⟨w.extracted t t.parsed.1, false,
      (t.parsed.1.map DNSQuery.length).sum, (t.parsed.1.map DNSQuery.length).sum⟩ := by
  rw [Worker.extract_eq] at h
  split at h
  · rename_i hn
    cases h
    exact ⟨hn, rfl⟩
  · cases h
  · cases h
    cases he

/-- A datagram with these questions behind its header. -/
structure Raises (d : List Byte) (qs : List WireQuestion) : Prop where
  header : 12 ≤ d.length
  count : qdcount d = qs.length
  bytes : At d 12 (wireBytes qs)

namespace Raises

variable {d : List Byte} {qs : List WireQuestion}

theorem le (h : Raises d qs) : 12 + (wireBytes qs).length ≤ d.length := by
  by_cases hne : wireBytes qs = []
  · rw [hne]
    exact h.header
  · exact h.bytes.le hne

/-- The end of the questions fits the `int` that the packet's length is passed as. -/
theorem end_mod (h : Raises d qs) (hl : d.length ≤ 512) :
    (12 + (wireBytes qs).length) % 4294967296 = 12 + (wireBytes qs).length := by
  have := h.le
  exact Nat.mod_eq_of_lt (by omega)

theorem at_append (h : Raises d qs) (rest : List Byte) : At (d ++ rest) 12 (wireBytes qs) := by
  by_cases hne : wireBytes qs = []
  · rw [hne]
    exact List.nil_prefix
  · exact At.append h.bytes hne

/-- The packet of the request has as many questions, and has them where the datagram does. -/
theorem packet {t : Turn} (h : Raises t.datagram qs) :
    qdcount (Packet.ofDatagram t.datagram t.buffer).bytes = qs.length ∧
      At (Packet.ofDatagram t.datagram t.buffer).bytes headerLength (wireBytes qs) := by
  have hh := h.header
  rw [qdcount_of_take_eq (take_ofDatagram t.received t.buffer) (by omega), h.count,
    ofDatagram_bytes t.received]
  exact ⟨rfl, h.at_append _⟩

theorem parsed {t : Turn} (h : Raises t.datagram qs) (named : ∀ q ∈ qs, q.labels ≠ []) :
    t.parsed = (qs.map WireQuestion.query, none) := by
  obtain ⟨count, here⟩ := h.packet
  rw [Turn.parsed, count]
  exact parseQuestions_wire t.locals.stack named here

theorem defined {t : Turn} (h : Raises t.datagram qs) (named : ∀ q ∈ qs, q.labels ≠ []) :
    t.Defined := by
  rw [Turn.Defined, h.parsed named]
  simp

/-- A question with the root as its name makes the parser write in front of a buffer. -/
theorem not_defined {t : Turn} (h : Raises t.datagram qs) (root : ∃ q ∈ qs, q.labels = []) :
    ¬ t.Defined := by
  obtain ⟨count, here⟩ := h.packet
  rw [Turn.Defined, Turn.parsed, count]
  exact not_not.mpr (parseQuestions_root t.locals.stack root here)

theorem rd_extracted (h : Raises d qs) {t : Turn} (ht : t.datagram = d) (w : Worker)
    (queries : List DNSQuery) : rd (w.extracted t queries).packet.bytes = rd d := by
  subst ht
  have hh := h.header
  exact rd_of_take_eq (take_ofDatagram t.received t.buffer) (by omega)

/-- What the first `try` block makes of questions with names. -/
theorem extract (h : Raises d qs) (named : ∀ q ∈ qs, q.labels ≠ []) (cfg : Config) {t : Turn}
    (ht : t.datagram = d) (w : Worker) :
    w.extract cfg t = .ok ⟨w.extracted t (qs.map WireQuestion.query), false,
      (wireBytes qs).length, (wireBytes qs).length⟩ := by
  subst ht
  rw [Worker.extract_eq, h.parsed named]
  simp only [length_wireBytes]

theorem extract_root (h : Raises d qs) (root : ∃ q ∈ qs, q.labels = []) (cfg : Config) {t : Turn}
    (ht : t.datagram = d) (w : Worker) : w.extract cfg t = .error .outOfBounds := by
  subst ht
  have hp : t.parsed.2 = some (.fault .outOfBounds) := not_not.mp (h.not_defined root)
  rw [Worker.extract_eq, hp]

end Raises

/-- A datagram that asks these questions, for names that are spelled out and not the root. -/
def Poses (d : List Byte) (qs : List DNSQuery) : Prop :=
  ∃ ws, Raises d ws ∧ (∀ q ∈ ws, q.labels ≠ []) ∧ qs = ws.map WireQuestion.query

section Poses

variable {d : List Byte}

theorem Poses.inside {qs : List DNSQuery} (h : Poses d qs) :
    12 + (qs.map DNSQuery.length).sum ≤ d.length := by
  obtain ⟨ws, raises, _, rfl⟩ := h
  rw [length_wireBytes]
  exact raises.le

theorem Poses.turn {t : Turn} {qs : List DNSQuery} (h : Poses t.datagram qs) :
    t.parsed = (qs, none) := by
  obtain ⟨ws, raises, named, rfl⟩ := h
  exact raises.parsed named

theorem Asks.poses {qs : List Question} (h : Asks d qs) : Poses d (qs.map Question.query) := by
  have hle := h.le
  refine ⟨qs.map Question.onWire, ⟨by omega, ?_, ?_⟩, named_onWire qs, ?_⟩
  · rw [List.length_map]
    exact h.count
  · rw [wireBytes_onWire]
    exact h.bytes
  · rw [List.map_map]
    exact List.map_congr_left fun q _ => q.query_onWire.symm

end Poses

theorem Asks.parsed {t : Turn} {qs : List Question} (h : Asks t.datagram qs) :
    t.parsed = (qs.map Question.query, none) := h.poses.turn

theorem Asks.defined {t : Turn} {qs : List Question} (h : Asks t.datagram qs) : t.Defined := by
  rw [Turn.Defined, h.parsed]
  simp

/-- Well-formed questions are always extracted. -/
theorem Worker.extract_asks (cfg : Config) (t : Turn) (w : Worker) {qs : List Question}
    (h : Asks t.datagram qs) : w.extract cfg t =
      .ok ⟨w.asked t qs, false, (questionBytes qs).length, (questionBytes qs).length⟩ := by
  rw [Worker.extract_eq, h.parsed]
  simp only [length_questionBytes, Worker.extracted, namesTable_query]
  rfl

/-- A request of these questions. -/
def request (id0 id1 flags : Byte) (qs : List Question) : List Byte :=
  [id0, id1, flags, 0, UInt8.ofNat (qs.length / 256), UInt8.ofNat (qs.length % 256),
    0, 0, 0, 0, 0, 0] ++ questionBytes qs

theorem asks_request (id0 id1 flags : Byte) {qs : List Question} (h : qs ≠ [])
    (hl : qs.length < 65536) : Asks (request id0 id1 flags qs) qs := by
  refine ⟨h, ?_, At.of_drop [] (by simp [request])⟩
  have h4 : byteAt (request id0 id1 flags qs) 4 = UInt8.ofNat (qs.length / 256) := rfl
  have h5 : byteAt (request id0 id1 flags qs) 5 = UInt8.ofNat (qs.length % 256) := rfl
  rw [qdcount, h4, h5, toNat_ofNat_mod, toNat_ofNat_mod]
  omega

def nameA : DomainName := ⟨[[97]], by decide, by decide, by decide, by decide⟩

def nameB : DomainName := ⟨[[98]], by decide, by decide, by decide, by decide⟩

def questionA : Question := ⟨nameA, 0, 1, 0, 1⟩

def questionB : Question := ⟨nameB, 0, 1, 0, 1⟩

theorem requestA_short : (request 0 7 1 [questionA]).length ≤ 512 := by decide

theorem requestB_short : (request 0 8 0 [questionB]).length ≤ 512 := by decide

theorem length_zeros : (List.replicate 1024 (0 : Byte)).length = packetAllocation :=
  List.length_replicate

/-- A buffer without earlier content. -/
def Packet.zeroed : Packet := ⟨List.replicate 1024 0, length_zeros⟩

/-- Both statements are executed at one time, and a row is counted for the insert. -/
def Execution.instant (now : Rat) : Execution := ⟨now, 0, now, now, 1⟩

/-- A turn in which nothing outside the worker fails. -/
def Turn.quiet (datagram : List Byte) (received : datagram.length ≤ 512)
    (lookup : List Byte → List Row) : Turn where
  interference := id
  executions := fun _ => .instant 0
  heap := fun _ _ => 0
  cacheDriver := []
  datagram := datagram
  received := received
  buffer := ⟨List.replicate 1024 0, length_zeros⟩
  locals := ⟨[], [], 0⟩
  lookup := lookup
  exchanges := []
  driver := []
  sendFails := false

/-- A turn in which the first call into the driver and the first one into the network
fail. -/
def Turn.failing (d : List Byte) (hl : d.length ≤ 512) : Turn :=
  { Turn.quiet d hl (fun _ => []) with
    exchanges := [⟨some 10051, none, none, []⟩]
    driver := [some "HY000"] }

/-- A worker that has just been started. -/
def Worker.idle : Worker := .start ⟨[], [], []⟩ ⟨[], []⟩ 0 0 0

theorem Worker.respond_of_ok {cfg : Config} {t : Turn} {g : Worker.Stage} {info : ResponseInfo}
    {s : Session} (hr : resolve cfg t.locals t.lookup (sizeAdd headerLength g.totalBytes)
      (sizeAdd headerLength g.totalBytes) g.session = (.ok info, s)) (old : ResponseInfo) :
    Worker.respond cfg t old g = .ok (Worker.answered cfg g s info, info) := by
  rw [Worker.respond_eq, hr]

/-- A request whose questions are accepted and resolved. -/
theorem Worker.serve_of_ok {cfg : Config} {t : Turn} {w : Worker} {g : Worker.Stage}
    {info : ResponseInfo} {s : Session} (hg : w.extract cfg t = .ok g)
    (hr : resolve cfg t.locals t.lookup (sizeAdd headerLength g.totalBytes)
      (sizeAdd headerLength g.totalBytes) g.session = (.ok info, s)) :
    w.serve cfg t = .ok ({ w with
      packet := some (Worker.answered cfg g s info).session.packet
      queries := s.queries
      pointerLocations := s.pointerLocations
      connection := s.connection
      socket := s.socket
      responseInfo := info
      error := g.error || t.sendFails
      totalBytes := (Worker.answered cfg g s info).totalBytes
      queryBytes := g.queryBytes }, (Worker.answered cfg g s info).reply) := by
  simp only [Worker.serve_eq, hg, bind, Except.bind, Worker.respond_of_ok hr]
  rfl

/-- With one question of type A, `resolve` is `resolveA`. -/
theorem resolve_single {cfg : Config} {locals : Locals} {lookup : List Byte → List Row}
    {off packetLen : Nat} {s s' : Session} {info : ResponseInfo} (query : DNSQuery)
    (hq : s.queries = [query]) (ht : query.qtype = typeA) :
    resolve cfg locals lookup off packetLen s = (.ok info, s') ↔
      ∃ n info', resolveA cfg locals lookup query off (.new locals.length) packetLen s =
        (.ok (n, info'), s') ∧ info = { info' with length := n } := by
  simp only [resolve, Act.bind_ok, Act.get_apply, Prod.mk.injEq, Except.ok.injEq]
  constructor
  · rintro ⟨_, _, ⟨rfl, rfl⟩, h⟩
    rw [hq, resolveLoop_cons, if_pos ht] at h
    simp only [Act.bind_ok, resolveLoop_nil, Act.pure_apply, Prod.mk.injEq, Except.ok.injEq] at h
    obtain ⟨⟨n, info'⟩, _, hr, rfl, rfl⟩ := h
    exact ⟨n, info', hr, rfl⟩
  · rintro ⟨n, info', hr, rfl⟩
    refine ⟨s, s, ⟨rfl, rfl⟩, ?_⟩
    rw [hq, resolveLoop_cons, if_pos ht]
    simp only [Act.bind_ok, resolveLoop_nil, Act.pure_apply, Prod.mk.injEq, Except.ok.injEq]
    exact ⟨_, _, hr, rfl, rfl⟩

end OdbcDns
