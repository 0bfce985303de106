import OdbcDns.Proofs.Questions

namespace OdbcDns
open Slice Rfc1035

/-- Every entry of the table is the place of a name that stands in the message
before `limit`. -/
def Spelled (msg : Message) (limit : Nat) (t : PointerLocations) : Prop :=
  ∀ n loc, t n = some loc → ∃ d : DomainName, d.text = n ∧
    loc.toNat + d.wire.length ≤ limit ∧ At msg loc.toNat d.wire

/-- The text of a name determines how it is written. -/
theorem DomainName.wire_of_text {m n : DomainName} (h : m.text = n.text) : m.wire = n.wire := by
  have hm := m.encodeName_text 63
  have hn := n.encodeName_text 63
  rw [if_pos (fun l hl => (m.ok l hl).2), h] at hm
  rw [if_pos (fun l hl => (n.ok l hl).2), hm] at hn
  exact Except.ok.inj hn

theorem Spelled.owner {msg : Message} {limit : Nat} {t : PointerLocations}
    (h : Spelled msg limit t) {n : DomainName} {loc : UInt16} (ht : t n.text = some loc) :
    loc.toNat + n.wire.length ≤ limit ∧ At msg loc.toNat n.wire := by
  obtain ⟨d, hd, hle, ha⟩ := h n.text loc ht
  rw [DomainName.wire_of_text hd] at hle ha
  exact ⟨hle, ha⟩

theorem Spelled.mono {msg : Message} {limit limit' : Nat} {t : PointerLocations}
    (h : Spelled msg limit t) (hle : limit ≤ limit') : Spelled msg limit' t := by
  intro n loc ht
  obtain ⟨d, hd, hl, ha⟩ := h n loc ht
  exact ⟨d, hd, Nat.le_trans hl hle, ha⟩

theorem Spelled.insert {msg : Message} {limit : Nat} {t : PointerLocations}
    (h : Spelled msg limit t) (n : DomainName) (loc : Nat) (hle : loc + n.wire.length ≤ limit)
    (hlt : limit ≤ 1024) (ha : At msg loc n.wire) :
    Spelled msg limit (t.insert n.text (UInt16.ofNat loc)) := by
  intro m k hm
  have hloc : (UInt16.ofNat loc).toNat = loc := by
    rw [UInt16.toNat_ofNat']
    omega
  unfold PointerLocations.insert at hm
  split at hm
  · rename_i he
    cases hm
    exact ⟨n, he.symm, by rw [hloc]; exact hle, by rw [hloc]; exact ha⟩
  · exact h m k hm

/-- The name that an alias record points to stands at its end. -/
theorem at_target {msg : Message} {ptr : Nat} {t : PointerLocations} {a : Answer}
    (h : At msg ptr (recordBytes t a)) :
    At msg (ptr + (ownerBytes t a.owner).length + 10) a.target.bytes := by
  have hd := (at_append.mp h).2
  rw [List.length_append, length_fixedPart, ← Nat.add_assoc] at hd
  exact hd

theorem Spelled.extend {msg : Message} {ptr : Nat} {t : PointerLocations} {a : Answer}
    (h : Spelled msg ptr t) (ha : At msg ptr (recordBytes t a))
    (hle : ptr + (recordBytes t a).length ≤ 1024) :
    Spelled msg (ptr + (recordBytes t a).length) (OdbcDns.extend t ptr a) := by
  have hm := h.mono (Nat.le_add_right ptr (recordBytes t a).length)
  have hl := length_recordBytes t a
  have hd := at_target ha
  unfold OdbcDns.extend
  cases hx : a.target with
  | address q => exact hm
  | cname n =>
    rw [hx] at hd hl
    simp only
    split
    · exact hm.insert n _ (by rw [hl]; simp only [Target.bytes]; omega) hle hd
    · exact hm

/-- Under a table of names that are spelled out, the answer section is read as
the rows it was written from. -/
theorem recordsAt_answers {msg : Message} {ptr : Nat} {t : PointerLocations} {as : List Answer}
    (h : Spelled msg ptr t) (ha : At msg ptr (answerBytes t ptr as))
    (hle : ptr + (answerBytes t ptr as).length ≤ 1024) :
    RecordsAt msg ptr (as.map Answer.record) (ptr + (answerBytes t ptr as).length) ∧
      Spelled msg (ptr + (answerBytes t ptr as).length) (answerTable t ptr as) := by
  induction as generalizing ptr t with
  | nil => exact ⟨.nil, h⟩
  | cons a as ih =>
    simp only [answerBytes, answerTable, List.length_append, ← Nat.add_assoc] at hle ha ⊢
    obtain ⟨hr, hrest⟩ := at_append.mp ha
    obtain ⟨hrs, hsp⟩ := ih (h.extend hr (by omega)) hrest hle
    refine ⟨.cons ?_ hrs, hsp⟩
    refine recordAt_of_bytes hr (fun loc hloc => ?_) (fun _ => rfl)
    obtain ⟨hlim, hat⟩ := h.owner hloc
    exact ⟨by omega, _, nameAt_of_wire a.owner.ok hat⟩

/-- Every record takes at least twelve bytes. -/
theorem length_answers_le (t : PointerLocations) (ptr : Nat) (as : List Answer) :
    12 * as.length ≤ (answerBytes t ptr as).length := by
  induction as generalizing t ptr with
  | nil => simp
  | cons a as ih =>
    have hi := ih (extend t ptr a) (ptr + (recordBytes t a).length)
    have hl := length_recordBytes t a
    have ho : 2 ≤ (ownerBytes t a.owner).length := by
      unfold ownerBytes
      split
      · simp
      · rw [a.owner.length_wire]
        omega
    simp only [answerBytes, List.length_append, List.length_cons]
    omega

/-- The table for a single question. -/
def singleTable (q : Question) : PointerLocations := questionTable (fun _ => none) [q]

/-- The answer section behind a single question. -/
def singleBytes (q : Question) (as : List Answer) : List Byte :=
  answerBytes (singleTable q) (12 + q.bytes.length) as

theorem Question.length_bytes (q : Question) : q.bytes.length = q.name.text.length + 6 := by
  rw [Question.bytes, List.length_append, q.name.length_wire]
  rfl

theorem Question.length_bytes_le (q : Question) : q.bytes.length ≤ 260 := by
  have := q.name.short
  have hl := q.length_bytes
  unfold DomainName.text at hl
  omega

theorem Question.qtype_of_low {q : Question} (h : q.typeLow = 1) : q.query.qtype = typeA := by
  rw [Question.query, h]
  rfl

/-- How a single question has been answered from the rows `as`. -/
structure AnsweredSingle (w : Worker) (t : Turn) (q : Question) (as : List Answer)
    (info : ResponseInfo) (s : Session) : Prop where
  fits : (singleBytes q as).length < 500
  length : info.length = (singleBytes q as).length
  answers : info.answers = UInt16.ofNat as.length
  recursion : info.recursionOccurred = false
  whole : info.truncationOccurred = false
  packet : s.packet.bytes = overwrite (Packet.ofDatagram t.datagram t.buffer).bytes
    (12 + q.bytes.length) (singleBytes q as)
  table : s.pointerLocations = answerTable (singleTable q) (12 + q.bytes.length) as
  connection : s.connection = w.connection.commit

section Single

variable {cfg : Config} {t : Turn} {w : Worker} {g : Worker.Stage} {q : Question}
  {as : List Answer} {info : ResponseInfo} {s : Session}

theorem Local.asked (stays : Local as t.datagram) (asks : Asks t.datagram [q]) (w : Worker) :
    Local as (w.asked t [q]).packet.bytes := by
  have hlen := asks.le
  unfold Local
  rw [show rd (w.asked t [q]).packet.bytes = rd t.datagram from
    rd_of_take_eq (take_ofDatagram t.received t.buffer) (by omega)]
  exact stays

theorem answered_single (asks : Asks t.datagram [q]) (type : q.typeLow = 1)
    (rows : t.lookup q.name.text = as.map Answer.row) (stays : Local as t.datagram)
    (extracted : w.clean.extract cfg t = .ok g)
    (resolved : resolve cfg t.locals t.lookup (sizeAdd headerLength g.totalBytes)
      (sizeAdd headerLength g.totalBytes) g.session = (.ok info, s))
    (whole : info.truncationOccurred = false ∨ (singleBytes q as).length < 500) :
    AnsweredSingle w t q as info s := by
  have hq := q.length_bytes_le
  have hlen := asks.le
  rw [w.clean.extract_asks cfg t asks] at extracted
  cases extracted
  simp only [questionBytes, List.flatMap_cons, List.flatMap_nil, List.append_nil] at resolved hlen
  rw [show sizeAdd headerLength q.bytes.length = 12 + q.bytes.length from
    sizeAdd_of_lt (by unfold headerLength; omega)] at resolved
  obtain ⟨n, info', hr, rfl⟩ := (resolve_single q.query rfl
    (Question.qtype_of_low type)).mp resolved
  have hloc := stays.asked asks w.clean
  obtain ⟨fits, inside, length, hinfo, packet, frame⟩ :=
    resolveA_ok hr whole rows (by omega) (by omega) hloc
  refine ⟨fits, length, ?_, by rw [hinfo]; rfl, by rw [hinfo]; rfl, packet,
    by rw [frame]; rfl, by rw [frame]; rfl⟩
  rw [hinfo]
  exact UInt16.zero_add _

theorem answered_single_exists (cfg : Config) (w : Worker) (asks : Asks t.datagram [q])
    (type : q.typeLow = 1) (rows : t.lookup q.name.text = as.map Answer.row)
    (stays : Local as t.datagram) (fits : (singleBytes q as).length < 500)
    (driver : t.driver = []) :
    ∃ g info s, w.clean.extract cfg t = .ok g ∧
      resolve cfg t.locals t.lookup (sizeAdd headerLength g.totalBytes)
        (sizeAdd headerLength g.totalBytes) g.session = (.ok info, s) ∧
      info.truncationOccurred = false := by
  have hq := q.length_bytes_le
  have hlen := asks.le
  simp only [questionBytes, List.flatMap_cons, List.flatMap_nil, List.append_nil] at hlen
  have hloc := stays.asked asks w.clean
  have hin : 12 + q.bytes.length + (singleBytes q as).length ≤ 1024 := by omega
  obtain ⟨n, info', s, hr, ht, _⟩ := resolveA_of_fits cfg t.locals t.lookup q.name
    q.query.qtype q.query.qclass q.query.length as (12 + q.bytes.length)
    (.new t.locals.length) (12 + q.bytes.length) (w.clean.asked t [q]) rows driver
    (by omega) fits hin hloc
  refine ⟨_, { info' with length := n }, s, w.clean.extract_asks cfg t asks, ?_, ht⟩
  simp only [questionBytes, List.flatMap_cons, List.flatMap_nil, List.append_nil]
  rw [show sizeAdd headerLength q.bytes.length = 12 + q.bytes.length from
    sizeAdd_of_lt (by unfold headerLength; omega)]
  exact (resolve_single q.query rfl (Question.qtype_of_low type)).mpr
    ⟨n, info', hr, rfl⟩

/-- The packet that is sent holds the question and the answers. -/
theorem AnsweredSingle.at_reply (h : AnsweredSingle w t q as info s) (asks : Asks t.datagram [q])
    (cfg : Config) (g : Worker.Stage) :
    At (Worker.answered cfg g s info).session.packet.bytes 12 q.bytes ∧
      At (Worker.answered cfg g s info).session.packet.bytes (12 + q.bytes.length)
        (singleBytes q as) := by
  have hq := q.length_bytes_le
  have hfit := h.fits
  have hsize := (Packet.ofDatagram t.datagram t.buffer).size
  have hin : 12 + q.bytes.length + (singleBytes q as).length ≤
      (Packet.ofDatagram t.datagram t.buffer).bytes.length := by
    rw [hsize, packetAllocation]
    omega
  have hb : At t.datagram 12 q.bytes := by simpa [questionBytes] using asks.bytes
  have hquestion : At (Packet.ofDatagram t.datagram t.buffer).bytes 12 q.bytes := by
    rw [ofDatagram_bytes t.received]
    exact At.append hb (by simp [Question.bytes])
  have hbody : SameBody s.packet (Worker.answered cfg g s info).session.packet := by
    unfold Worker.answered
    simp only [h.whole, h.recursion, Bool.false_eq_true, if_false]
    exact SameBody.flags cfg info s.packet
  refine ⟨hbody.at (Nat.le_refl 12) ?_, hbody.at (Nat.le_add_right 12 _) ?_⟩
  · rw [h.packet]
    exact hquestion.overwrite hin (.inl (Nat.le_refl _))
  · rw [h.packet]
    exact at_overwrite hin

theorem spelled_single {msg : Message} (h : At msg 12 q.bytes) :
    Spelled msg (12 + q.bytes.length) (singleTable q) := by
  have hn : At msg 12 q.name.wire := (at_append.mp h).1
  have hl := q.length_bytes
  have hw := q.name.length_wire
  have h0 : Spelled msg (12 + q.bytes.length) (fun _ => none) := fun _ _ h => by cases h
  exact h0.insert q.name 12 (by omega) (by have := q.length_bytes_le; omega) hn

theorem ancount_answered (h : AnsweredSingle w t q as info s) (cfg : Config) (g : Worker.Stage) :
    ancount (Worker.answered cfg g s info).session.packet.bytes = as.length := by
  have hfit := h.fits
  have hl : 12 * as.length ≤ (singleBytes q as).length := length_answers_le _ _ _
  unfold Worker.answered
  simp only [h.whole, h.recursion, Bool.false_eq_true, if_false, ancount_flags, h.answers,
    UInt16.toNat_ofNat']
  omega

/-- The answers written behind a single question are read as the rows and as nothing
else, in the packet as it is sent. -/
theorem answer_section_sound (asks : Asks t.datagram [q]) (type : q.typeLow = 1)
    (rows : t.lookup q.name.text = as.map Answer.row) (stays : Local as t.datagram)
    (extracted : w.clean.extract cfg t = .ok g)
    (resolved : resolve cfg t.locals t.lookup (sizeAdd headerLength g.totalBytes)
      (sizeAdd headerLength g.totalBytes) g.session = (.ok info, s))
    (whole : info.truncationOccurred = false) :
    RecordsAt (Worker.answered cfg g s info).session.packet.bytes (12 + q.bytes.length)
        (as.map Answer.record) (12 + q.bytes.length + info.length) ∧
      ancount (Worker.answered cfg g s info).session.packet.bytes = as.length ∧
      (∀ rs next, RecordsAt (Worker.answered cfg g s info).session.packet.bytes
          (12 + q.bytes.length) rs next →
        rs.length = ancount (Worker.answered cfg g s info).session.packet.bytes →
        rs = as.map Answer.record ∧ next = 12 + q.bytes.length + info.length) ∧
      ∀ n loc, s.pointerLocations n = some loc → ∃ d : DomainName, d.text = n ∧
        NameAt (Worker.answered cfg g s info).session.packet.bytes loc.toNat d.labels
          (loc.toNat + d.wire.length) := by
  have h := answered_single asks type rows stays extracted resolved (.inl whole)
  have hq := q.length_bytes_le
  have hfit := h.fits
  obtain ⟨hquestion, hanswers⟩ := h.at_reply asks cfg g
  obtain ⟨hrecords, hspelled⟩ := recordsAt_answers (spelled_single hquestion) hanswers
    (by unfold singleBytes at hfit; omega)
  have hcount := ancount_answered h cfg g
  rw [show (answerBytes (singleTable q) (12 + q.bytes.length) as).length = info.length from
    h.length.symm] at hrecords
  refine ⟨hrecords, hcount, fun rs next hr hl => ?_, fun n loc hn => ?_⟩
  · exact hr.unique hrecords (by rw [hl, hcount, List.length_map])
  · rw [h.table] at hn
    obtain ⟨d, hd, _, hat⟩ := hspelled n loc hn
    exact ⟨d, hd, nameAt_of_wire d.ok hat⟩

end Single

/-- A name of 114 characters. Behind a question for it the first alias lands
beyond byte 127. -/
def longName : DomainName :=
  ⟨[List.replicate 63 97, List.replicate 50 98], by decide, by decide, by decide, by decide⟩

def questionLong : Question := ⟨longName, 0, 1, 0, 1⟩

theorem requestLong_short : (request 0 7 1 [questionLong]).length ≤ 512 := by decide +kernel

/-- Two rows for the first name: an alias and the address it leads to. -/
def aliasThenAddress : List Answer :=
  [⟨nameA, 1, 300, .cname nameB⟩, ⟨nameB, 1, 60, .address ⟨1, 2, 3, 4⟩⟩]

def turnA : Turn :=
  .quiet (request 0 7 1 [questionA]) requestA_short (fun _ => aliasThenAddress.map Answer.row)

theorem answer_section_sound_alias : ∃ g info s,
    Worker.idle.clean.extract ⟨0, false⟩ turnA = .ok g ∧
    resolve ⟨0, false⟩ turnA.locals turnA.lookup (sizeAdd headerLength g.totalBytes)
      (sizeAdd headerLength g.totalBytes) g.session = (.ok info, s) ∧
    RecordsAt (Worker.answered ⟨0, false⟩ g s info).session.packet.bytes 19
      (aliasThenAddress.map Answer.record) (19 + info.length) := by
  have asks : Asks turnA.datagram [questionA] := asks_request 0 7 1 (by decide) (by decide)
  have stays : Local aliasThenAddress turnA.datagram := .inl (by decide)
  obtain ⟨g, info, s, hg, hr, hw⟩ := answered_single_exists ⟨0, false⟩ Worker.idle asks rfl rfl
    stays (by decide) rfl
  exact ⟨g, info, s, hg, hr, (answer_section_sound asks rfl rfl stays hg hr hw).1⟩

end OdbcDns
