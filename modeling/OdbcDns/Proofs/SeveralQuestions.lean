import OdbcDns.Proofs.AnswerSection
import OdbcDns.Proofs.Truncation

namespace OdbcDns
open Slice Rfc1035

/-- Wherever its owner pointer may lead, a written record ends where it was
written to end. -/
theorem recordAt_next {msg : Message} {off next : Nat} {t : PointerLocations} {a : Answer}
    {r : ResourceRecord} (h : At msg off (recordBytes t a)) (hr : RecordAt msg off r next) :
    next = off + (recordBytes t a).length := by
  obtain ⟨ho, hf⟩ := at_append.mp (at_append.mp h).1
  obtain ⟨name, fixed, rdata⟩ := hr
  rename_i mid rdlength
  have hmid : mid = off + (ownerBytes t a.owner).length := by
    unfold ownerBytes at ho ⊢
    cases ht : t a.owner.text with
    | none =>
      simp only [ht] at ho ⊢
      exact (name.unique (nameAt_of_wire a.owner.ok ho)).2
    | some loc =>
      simp only [ht] at ho ⊢
      have hv : 49152 ≤ (loc ||| 0xC000).toNat := by
        rw [UInt16.toNat_or]
        exact Nat.right_le_or
      have hlt := (loc ||| 0xC000).toNat_lt
      refine name.next_of_high (At.head_eq ho) ?_
      rw [toNat_ofNat_mod]
      omega
  subst hmid
  obtain ⟨_, _, _, rfl⟩ := fixedPart_injective (at_unique fixed hf rfl)
  rw [a.target.toNat_length, length_recordBytes]
  omega

/-- More records than were written must end behind what was written. -/
theorem recordsAt_next {msg : Message} {off next : Nat} {t : PointerLocations} {as : List Answer}
    {rs : List ResourceRecord} (h : At msg off (answerBytes t off as))
    (hr : RecordsAt msg off rs next) (hl : as.length < rs.length) :
    off + (answerBytes t off as).length < next := by
  induction as generalizing off t rs with
  | nil =>
    cases hr with
    | nil => simp at hl
    | cons head tail =>
      have := head.lt
      have := tail.le
      simp only [answerBytes, List.length_nil]
      omega
  | cons a as ih =>
    simp only [answerBytes, List.length_append, ← Nat.add_assoc] at h ⊢
    obtain ⟨hrec, hrest⟩ := at_append.mp h
    cases hr with
    | nil => simp at hl
    | cons head tail =>
      have hmid := recordAt_next hrec head
      subst hmid
      exact ih hrest tail (by simpa using hl)

/-- A question together with the rows that are found for it. -/
abbrev Asked := Question × List Answer

/-- The lengths of the answers that are written for each question. -/
def answerLengths (t : PointerLocations) (off : Nat) : List Asked → List Nat
  | [] => []
  | (_, as) :: rest => (answerBytes t off as).length :: answerLengths (answerTable t off as) off rest

/-- Every question is for addresses, and an address is found. -/
def Found (lookup : List Byte → List Row) (asked : List Asked) : Prop :=
  ∀ p ∈ asked, p.1.typeLow = 1 ∧ lookup p.1.name.text = p.2.map Answer.row ∧
    0 < p.2.countP Answer.isAddress

/-- How the loop over the questions ends: every question overwrites the answers
to the one before. -/
structure Overwritten (off : Nat) (asked : List Asked) (info : ResponseInfo) (s : Session)
    (info' : ResponseInfo) (s' : Session) : Prop where
  before : s'.packet.bytes.take off = s.packet.bytes.take off
  flags : info' = { info with answers := info'.answers, length := info'.length }
  answers : info'.answers = info.answers + UInt16.ofNat (asked.map (fun p => p.2.length)).sum
  last : ∀ p ∈ asked.getLast?, ∃ t, At s'.packet.bytes off (answerBytes t off p.2) ∧
    info'.length = (answerBytes t off p.2).length ∧
    info'.length ≤ (answerLengths s.pointerLocations off asked).sum

theorem resolveLoop_ok {cfg : Config} {locals : Locals} {lookup : List Byte → List Row}
    {off packetLen : Nat} {asked : List Asked} {info info' : ResponseInfo} {s s' : Session}
    (h : resolveLoop cfg locals lookup off packetLen (asked.map (fun p => p.1.query)) info s =
      (.ok info', s'))
    (hf : Found lookup asked) (hfit : (answerLengths s.pointerLocations off asked).sum < 500)
    (hoff : 12 ≤ off) (hle : off ≤ 1024) : Overwritten off asked info s info' s' := by
  induction asked generalizing info s with
  | nil =>
    simp only [List.map_nil, resolveLoop_nil, Act.pure_apply, Prod.mk.injEq, Except.ok.injEq] at h
    obtain ⟨rfl, rfl⟩ := h
    exact ⟨rfl, rfl, by simp, by simp⟩
  | cons p rest ih =>
    obtain ⟨htype, hrows, hpos⟩ := hf p (by simp)
    simp only [List.map_cons, resolveLoop_cons, Question.qtype_of_low htype, if_true, Act.bind_ok] at h
    obtain ⟨⟨n, info1⟩, s1, hr, h⟩ := h
    have hsum : (answerLengths s.pointerLocations off (p :: rest)).sum =
        (answerBytes s.pointerLocations off p.2).length +
          (answerLengths (answerTable s.pointerLocations off p.2) off rest).sum := by
      simp [answerLengths]
    rw [hsum] at hfit
    have ha : Answered p.2 off info s n info1 s1 :=
      resolveA_ok hr (.inr (by omega)) hrows hoff hle (.inl hpos)
    have htab : s1.pointerLocations = answerTable s.pointerLocations off p.2 := by rw [ha.frame]
    obtain ⟨before, flags, answers, last⟩ :=
      ih h (fun q hq => hf q (by simp [hq])) (by rw [htab]; omega)
    have hin : off + (answerBytes s.pointerLocations off p.2).length ≤ s.packet.bytes.length := by
      rw [s.packet.size]
      exact ha.inside
    refine ⟨?_, ?_, ?_, ?_⟩
    · rw [before, ha.packet]
      exact take_overwrite hin (Nat.le_refl off)
    · rw [flags, ha.info]
    · rw [answers, ha.info, List.map_cons, List.sum_cons, UInt16.ofNat_add, UInt16.add_assoc]
    · cases rest with
      | nil =>
        simp only [List.map_nil, resolveLoop_nil, Act.pure_apply, Prod.mk.injEq, Except.ok.injEq] at h
        obtain ⟨rfl, rfl⟩ := h
        simp only [List.getLast?_singleton, Option.mem_def, Option.some.injEq]
        rintro _ rfl
        refine ⟨s.pointerLocations, ?_, ha.length, by simp only [ha.length, hsum]; omega⟩
        rw [ha.packet]
        exact at_overwrite hin
      | cons q rest =>
        intro r hr
        obtain ⟨t, hat, hlen, hle⟩ := last r (by simpa using hr)
        exact ⟨t, hat, hlen, by rw [hsum]; rw [htab] at hle; omega⟩

theorem At.take {m ys : List Byte} {off n : Nat} (h : At m off ys) (hn : off + ys.length ≤ n) :
    At (m.take n) off ys :=
  h.of_take_eq (by rw [List.take_take, Nat.min_self]) hn

section Reply

variable {cfg : Config} {t : Turn} {w : Worker} {g : Worker.Stage} {asked : List Asked}
  {info : ResponseInfo} {s : Session}

/-- The length of the question section and the offset behind it. -/
def questionLength (asked : List Asked) : Nat := (questionBytes (asked.map Prod.fst)).length

/-- The lengths of the answers to all questions of a request. -/
def allLengths (asked : List Asked) : List Nat :=
  answerLengths (questionTable (fun _ => none) (asked.map Prod.fst)) (12 + questionLength asked) asked

theorem overwritten (asks : Asks t.datagram (asked.map Prod.fst)) (found : Found t.lookup asked)
    (fits : 12 + questionLength asked + (allLengths asked).sum ≤ 512)
    (extracted : w.clean.extract cfg t = .ok g)
    (resolved : resolve cfg t.locals t.lookup (sizeAdd headerLength g.totalBytes)
      (sizeAdd headerLength g.totalBytes) g.session = (.ok info, s)) :
    g.totalBytes = questionLength asked ∧
      Overwritten (12 + questionLength asked) asked (.new t.locals.length)
        (w.clean.asked t (asked.map Prod.fst)) info s := by
  rw [w.clean.extract_asks cfg t asks] at extracted
  cases extracted
  refine ⟨rfl, ?_⟩
  have hoff : sizeAdd headerLength (questionBytes (asked.map Prod.fst)).length =
      12 + questionLength asked :=
    sizeAdd_of_lt (by unfold questionLength at fits; unfold headerLength; omega)
  simp only [resolve, Act.bind_ok, Act.get_apply, Prod.mk.injEq, Except.ok.injEq, hoff] at resolved
  obtain ⟨_, _, ⟨rfl, rfl⟩, h⟩ := resolved
  have hqs : (w.clean.asked t (asked.map Prod.fst)).queries = asked.map (fun p => p.1.query) := by
    simp [Worker.asked, Worker.clean]
  rw [hqs] at h
  have hpos : 0 < questionLength asked := List.length_pos_of_ne_nil asks.bytes_ne_nil
  have hsum : (answerLengths (w.clean.asked t (asked.map Prod.fst)).pointerLocations
      (12 + questionLength asked) asked).sum = (allLengths asked).sum := rfl
  exact resolveLoop_ok h found (by omega) (by omega) (by omega)

/-- What stands behind the header when `resolve` returns stands in the reply. -/
theorem at_cached_reply (h : info.recursionOccurred = false) (hw : info.truncationOccurred = false)
    (hb : 12 + g.totalBytes + info.length ≤ 512) {off : Nat} {ys : List Byte}
    (ha : At s.packet.bytes off ys) (hoff : 12 ≤ off)
    (hle : off + ys.length ≤ 12 + g.totalBytes + info.length) (cfg : Config) :
    At (Worker.answered cfg g s info).reply off ys := by
  have hbody : SameBody s.packet (Worker.answered cfg g s info).session.packet := by
    simp only [Worker.answered, hw, h, Bool.false_eq_true, if_false]
    exact SameBody.flags cfg info s.packet
  have hsize : sizeAdd headerLength (Worker.answered cfg g s info).totalBytes =
      12 + g.totalBytes + info.length := by
    simp only [Worker.answered, headerLength]
    rw [sizeAdd_of_lt (a := g.totalBytes) (by omega), sizeAdd_of_lt (by omega)]
    omega
  unfold Worker.Stage.reply
  rw [hsize, maxDnsPacketLength]
  exact At.take (hbody.at hoff ha) (by omega)

theorem length_flatMap_records (asked : List Asked) :
    (asked.flatMap (fun p => p.2.map Answer.record)).length =
      (asked.map (fun p => p.2.length)).sum := by
  simp [List.length_flatMap]

/-- The last of several questions does not have all the answers. -/
theorem length_last_lt {lookup : List Byte → List Row} {p : Asked} (found : Found lookup asked)
    (hp : p ∈ asked.getLast?) (h2 : 2 ≤ asked.length) :
    p.2.length < (asked.map (fun p => p.2.length)).sum := by
  match asked, h2 with
  | a :: b :: rest, _ =>
    have ha : 0 < a.2.length :=
      Nat.lt_of_lt_of_le (found a (by simp)).2.2 List.countP_le_length
    have hm : p ∈ b :: rest := by
      rw [List.getLast?_cons_cons] at hp
      exact List.mem_of_mem_getLast? hp
    have hle : p.2.length ≤ ((b :: rest).map (fun p => p.2.length)).sum := by
      obtain ⟨l, r, he⟩ := List.append_of_mem hm
      rw [he, List.map_append, List.sum_append, List.map_cons, List.sum_cons]
      omega
    rw [List.map_cons, List.sum_cons]
    omega

theorem AnsweredSingle.recordsAt_reply {q : Question} {as : List Answer}
    (h : AnsweredSingle w t q as info s) (asks : Asks t.datagram [q])
    (htb : g.totalBytes = q.bytes.length)
    (hb : 12 + q.bytes.length + (singleBytes q as).length ≤ 512) (cfg : Config) :
    RecordsAt (Worker.answered cfg g s info).reply (12 + q.bytes.length) (as.map Answer.record)
      (12 + q.bytes.length + info.length) := by
  have hsize : sizeAdd headerLength (Worker.answered cfg g s info).totalBytes =
      12 + q.bytes.length + (singleBytes q as).length := by
    simp only [Worker.answered, headerLength, htb, h.length]
    rw [sizeAdd_of_lt (a := q.bytes.length) (by omega), sizeAdd_of_lt (by omega)]
    omega
  obtain ⟨hquestion, hanswers⟩ := h.at_reply asks cfg g
  unfold Worker.Stage.reply
  rw [hsize, maxDnsPacketLength, Nat.min_eq_left hb, h.length]
  exact (recordsAt_answers (spelled_single (At.take hquestion (by omega)))
    (At.take hanswers (Nat.le_refl _)) (by unfold singleBytes at hb; omega)).1

/-- The reply to several questions, in its length and its counts. -/
theorem several_reply (asks : Asks t.datagram (asked.map Prod.fst)) (found : Found t.lookup asked)
    (fits : 12 + questionLength asked + (allLengths asked).sum ≤ 512)
    (extracted : w.clean.extract cfg t = .ok g)
    (resolved : resolve cfg t.locals t.lookup (sizeAdd headerLength g.totalBytes)
      (sizeAdd headerLength g.totalBytes) g.session = (.ok info, s)) :
    g.totalBytes = questionLength asked ∧
      (Worker.answered cfg g s info).reply.length = 12 + questionLength asked + info.length ∧
      ancount (Worker.answered cfg g s info).reply = info.answers.toNat ∧
      ∀ p ∈ asked.getLast?, ∃ tab, info.length =
          (answerBytes tab (12 + questionLength asked) p.2).length ∧
        At (Worker.answered cfg g s info).reply (12 + questionLength asked)
          (answerBytes tab (12 + questionLength asked) p.2) := by
  obtain ⟨htb, hov⟩ := overwritten asks found fits extracted resolved
  have hrec : info.recursionOccurred = false := by rw [hov.flags]; rfl
  have hwhole : info.truncationOccurred = false := by rw [hov.flags]; rfl
  have hne : asked ≠ [] := fun h => asks.some (by simp [h])
  have hlast := hov.last
  rw [List.getLast?_eq_some_getLast hne] at hlast ⊢
  simp only [Option.mem_def, Option.some.injEq, forall_eq'] at hlast ⊢
  obtain ⟨tab, hat, hlen, hle⟩ := hlast
  have hle : info.length ≤ (allLengths asked).sum := hle
  obtain ⟨hreply, _, han⟩ := cached_reply cfg g s hrec (by omega)
  refine ⟨htb, by omega, han, tab, hlen, ?_⟩
  exact at_cached_reply hrec hwhole (by omega) hat (by omega) (by omega) cfg

/-- The answers to all of several questions are never read from the reply. -/
theorem single_of_all_answers (asks : Asks t.datagram (asked.map Prod.fst))
    (found : Found t.lookup asked)
    (fits : 12 + questionLength asked + (allLengths asked).sum ≤ 512)
    (extracted : w.clean.extract cfg t = .ok g)
    (resolved : resolve cfg t.locals t.lookup (sizeAdd headerLength g.totalBytes)
      (sizeAdd headerLength g.totalBytes) g.session = (.ok info, s))
    (hrecords : RecordsAt (Worker.answered cfg g s info).reply (12 + questionLength asked)
      (asked.flatMap (fun p => p.2.map Answer.record))
      (Worker.answered cfg g s info).reply.length) : asked.length = 1 := by
  obtain ⟨_, hreply, _, hlast⟩ := several_reply asks found fits extracted resolved
  have hne : asked ≠ [] := fun h => asks.some (by simp [h])
  obtain ⟨tab, hlen, hin⟩ := hlast _ (List.getLast?_eq_some_getLast hne)
  by_contra hone
  have h2 : 2 ≤ asked.length := by
    have := List.length_pos_of_ne_nil hne
    omega
  have hcount := length_last_lt found (List.getLast?_eq_some_getLast hne) h2
  have := recordsAt_next hin hrecords (by rw [length_flatMap_records]; exact hcount)
  omega

/-- The answers in a reply are those to all questions exactly when there is
only one. -/
theorem all_answers_iff_single (asks : Asks t.datagram (asked.map Prod.fst))
    (found : Found t.lookup asked)
    (fits : 12 + questionLength asked + (allLengths asked).sum ≤ 512)
    (extracted : w.clean.extract cfg t = .ok g)
    (resolved : resolve cfg t.locals t.lookup (sizeAdd headerLength g.totalBytes)
      (sizeAdd headerLength g.totalBytes) g.session = (.ok info, s)) :
    (RecordsAt (Worker.answered cfg g s info).reply (12 + questionLength asked)
        (asked.flatMap (fun p => p.2.map Answer.record))
        (Worker.answered cfg g s info).reply.length ∧
      ancount (Worker.answered cfg g s info).reply = (asked.map (fun p => p.2.length)).sum) ↔
    asked.length = 1 := by
  refine ⟨fun h => single_of_all_answers asks found fits extracted resolved h.1, fun hone => ?_⟩
  obtain ⟨htb, hreply, han, _⟩ := several_reply asks found fits extracted resolved
  match asked, hone with
  | [(q, as)], _ =>
    have hq : questionLength [(q, as)] = q.bytes.length := by
      simp [questionLength, questionBytes]
    have hall : (allLengths [(q, as)]).sum = (singleBytes q as).length := by
      simp [allLengths, answerLengths, singleBytes, singleTable, hq]
    obtain ⟨htype, hrows, hpos⟩ := found (q, as) (by simp)
    simp only at htype hrows hpos
    have asks : Asks t.datagram [q] := asks
    have hpos := q.length_bytes
    have hfit : (singleBytes q as).length < 500 := by omega
    have h := answered_single asks htype hrows (.inl ‹_›) extracted resolved (.inr hfit)
    have hcount : 12 * as.length ≤ (singleBytes q as).length := length_answers_le _ _ _
    refine ⟨?_, ?_⟩
    · rw [hreply, hq]
      simpa using h.recordsAt_reply asks (by rw [htb, hq]) (by omega) cfg
    · rw [han, h.answers, UInt16.toNat_ofNat']
      simp only [List.map_cons, List.map_nil, List.sum_cons, List.sum_nil]
      omega

end Reply

/-- `resolve` returns when all answers fit and the driver reports no error. -/
theorem resolveLoop_of_fits (cfg : Config) (locals : Locals) {lookup : List Byte → List Row}
    {asked : List Asked} (off packetLen : Nat) (info : ResponseInfo) (s : Session)
    (found : Found lookup asked) (hdrv : s.driver = [])
    (hfit : (answerLengths s.pointerLocations off asked).sum < 500) (hoff : 12 ≤ off)
    (hin : off + (answerLengths s.pointerLocations off asked).sum ≤ 1024) :
    ∃ info' s', resolveLoop cfg locals lookup off packetLen (asked.map (fun p => p.1.query)) info
      s = (.ok info', s') := by
  induction asked generalizing info s with
  | nil => exact ⟨info, s, rfl⟩
  | cons p rest ih =>
    obtain ⟨htype, hrows, hpos⟩ := found p (by simp)
    simp only [answerLengths, List.sum_cons] at hfit hin
    obtain ⟨n, info1, s1, hr, _, hd⟩ := resolveA_of_fits cfg locals lookup p.1.name
      p.1.query.qtype p.1.query.qclass p.1.query.length p.2 off info packetLen s hrows hdrv hoff
      (by omega) (by omega) (.inl hpos)
    have ha : Answered p.2 off info s n info1 s1 :=
      resolveA_ok hr (.inr (by omega)) hrows hoff (by omega) (.inl hpos)
    have htab : s1.pointerLocations = answerTable s.pointerLocations off p.2 := by rw [ha.frame]
    obtain ⟨info', s', h⟩ := ih { info1 with length := n } s1 (fun q hq => found q (by simp [hq]))
      hd (by rw [htab]; omega) (by rw [htab]; omega)
    refine ⟨info', s', ?_⟩
    simp only [List.map_cons, resolveLoop_cons, Question.qtype_of_low htype, if_true]
    exact (Act.bind_of_ok hr).trans h

theorem several_exists {t : Turn} {asked : List Asked} (cfg : Config) (w : Worker)
    (asks : Asks t.datagram (asked.map Prod.fst)) (found : Found t.lookup asked)
    (fits : 12 + questionLength asked + (allLengths asked).sum ≤ 512) (driver : t.driver = []) :
    ∃ g info s, w.clean.extract cfg t = .ok g ∧
      resolve cfg t.locals t.lookup (sizeAdd headerLength g.totalBytes)
        (sizeAdd headerLength g.totalBytes) g.session = (.ok info, s) := by
  have hpos : 0 < questionLength asked := List.length_pos_of_ne_nil asks.bytes_ne_nil
  have hoff : sizeAdd headerLength (questionBytes (asked.map Prod.fst)).length =
      12 + questionLength asked :=
    sizeAdd_of_lt (by unfold questionLength at fits; unfold headerLength; omega)
  have hsum : (answerLengths (w.clean.asked t (asked.map Prod.fst)).pointerLocations
      (12 + questionLength asked) asked).sum = (allLengths asked).sum := rfl
  obtain ⟨info, s, h⟩ := resolveLoop_of_fits cfg t.locals (12 + questionLength asked)
    (12 + questionLength asked) (.new t.locals.length) (w.clean.asked t (asked.map Prod.fst))
    found driver (by omega) (by omega) (by omega)
  refine ⟨_, info, s, w.clean.extract_asks cfg t asks, ?_⟩
  have hqs : (w.clean.asked t (asked.map Prod.fst)).queries = asked.map (fun p => p.1.query) := by
    simp [Worker.asked, Worker.clean]
  simp only [hoff]
  refine (Act.bind_of_ok (Act.get_apply _)).trans ?_
  rw [hqs]
  exact h

/-- Two questions with an address each. -/
def twoAsked : List Asked :=
  [(questionA, [⟨nameA, 1, 60, .address ⟨1, 2, 3, 4⟩⟩]),
    (⟨nameB, 0, 1, 0, 1⟩, [⟨nameB, 1, 60, .address ⟨5, 6, 7, 8⟩⟩])]

def turnTwo : Turn :=
  .quiet (request 0 7 1 (twoAsked.map Prod.fst)) (by decide) (fun n =>
    (twoAsked.filter (fun p => p.1.name.text = n)).flatMap (fun p => p.2.map Answer.row))

def oneAsked : List Asked := [(questionA, aliasThenAddress)]

theorem all_answers_of_one : ∃ g info s,
    Worker.idle.clean.extract ⟨0, false⟩ turnA = .ok g ∧
    resolve ⟨0, false⟩ turnA.locals turnA.lookup (sizeAdd headerLength g.totalBytes)
      (sizeAdd headerLength g.totalBytes) g.session = (.ok info, s) ∧
    RecordsAt (Worker.answered ⟨0, false⟩ g s info).reply 19
      (oneAsked.flatMap (fun p => p.2.map Answer.record))
      (Worker.answered ⟨0, false⟩ g s info).reply.length := by
  have asks : Asks turnA.datagram (oneAsked.map Prod.fst) :=
    asks_request 0 7 1 (by decide) (by decide)
  have found : Found turnA.lookup oneAsked :=
    List.forall_mem_singleton.mpr ⟨rfl, rfl, by decide⟩
  obtain ⟨g, info, s, hg, hr⟩ := several_exists ⟨0, false⟩ Worker.idle asks found (by decide) rfl
  exact ⟨g, info, s, hg, hr, ((all_answers_iff_single asks found (by decide) hg hr).mpr rfl).1⟩

/-- The second answer is written over the first. -/
theorem not_all_answers_of_two : ∃ g info s,
    Worker.idle.clean.extract ⟨0, false⟩ turnTwo = .ok g ∧
    resolve ⟨0, false⟩ turnTwo.locals turnTwo.lookup (sizeAdd headerLength g.totalBytes)
      (sizeAdd headerLength g.totalBytes) g.session = (.ok info, s) ∧
    ¬ RecordsAt (Worker.answered ⟨0, false⟩ g s info).reply 26
      (twoAsked.flatMap (fun p => p.2.map Answer.record))
      (Worker.answered ⟨0, false⟩ g s info).reply.length := by
  have asks : Asks turnTwo.datagram (twoAsked.map Prod.fst) :=
    asks_request 0 7 1 (by decide) (by decide)
  have found : Found turnTwo.lookup twoAsked :=
    List.forall_mem_cons.mpr
      ⟨⟨rfl, rfl, by decide⟩, List.forall_mem_singleton.mpr ⟨rfl, rfl, by decide⟩⟩
  obtain ⟨g, info, s, hg, hr⟩ := several_exists ⟨0, false⟩ Worker.idle asks found (by decide) rfl
  refine ⟨g, info, s, hg, hr, fun h => ?_⟩
  exact absurd (single_of_all_answers asks found (by decide) hg hr h) (by decide)

end OdbcDns
