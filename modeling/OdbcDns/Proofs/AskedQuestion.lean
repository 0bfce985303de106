import OdbcDns.Proofs.Matching

namespace OdbcDns
open Slice Rfc1035

/-- The bytes of the question section of a message, if it is well formed. -/
def questionSection (m : List Byte) : Option (List Byte) :=
  (questionsLength (qdcount m) (m.drop headerLength)).map (fun n => (m.drop headerLength).take n)

/-- A datagram has the id and the question section of a query. -/
structure Answers (d query : List Byte) : Prop where
  header : headerLength ≤ d.length
  id : idOf d = idOf query
  question : questionSection d = questionSection query

instance (d query : List Byte) : Decidable (Answers d query) :=
  decidable_of_iff (headerLength ≤ d.length ∧ idOf d = idOf query ∧
    questionSection d = questionSection query)
    ⟨fun h => ⟨h.1, h.2.1, h.2.2⟩, fun h => ⟨h.1, h.2, h.3⟩⟩

/-- Whatever arrives during a request answers some query sent so far: replies
may be late, duplicated or out of order. -/
def Honest (f : Forward) (k : Socket) : Prop :=
  ∀ d ∈ f.exchange.arrivals, ∃ query ∈ k.outbox ++ [f.query], Answers d query

instance (f : Forward) (k : Socket) : Decidable (Honest f k) :=
  inferInstanceAs (Decidable (∀ d ∈ _, ∃ query ∈ _, _))

/-- Earlier queries with the id of the request have asked the same question. -/
def Fresh (f : Forward) (k : Socket) : Prop :=
  ∀ query ∈ k.outbox, idOf query = idOf f.packet.bytes →
    questionSection query = questionSection f.query

instance (f : Forward) (k : Socket) : Decidable (Fresh f k) :=
  inferInstanceAs (Decidable (∀ query ∈ _, _))

/-- If the request is answered, it is by a message with its question section. -/
def SameQuestion (cfg : Config) (f : Forward) (k : Socket) : Prop :=
  ∀ n, (f.call cfg k).1 = .ok n →
    questionSection ((f.call cfg k).2.packet.bytes.take (sizeAdd f.packetLen n)) =
      questionSection f.query

/-- Everything that waits to be read answers a query sent before. -/
def Accounted (k : Socket) : Prop := ∀ d ∈ k.inbox, ∃ query ∈ k.outbox, Answers d query

theorem Honest.available {f : Forward} {k : Socket} (h : Honest f k) (hk : Accounted k) :
    ∀ d ∈ f.available k, ∃ query ∈ k.outbox ++ [f.query], Answers d query := by
  intro d hd
  rcases List.mem_append.mp hd with hin | harr
  · obtain ⟨query, hq, ha⟩ := hk d hin
    exact ⟨query, List.mem_append_left _ hq, ha⟩
  · exact h d harr

/-- A request keeps the accounts. -/
theorem Accounted.call {cfg : Config} {f : Forward} {k : Socket} (hk : Accounted k)
    (h : Honest f k) : Accounted (f.call cfg k).2.socket := by
  have ha := h.available hk
  rw [Forward.call_socket]
  unfold Forward.after
  split
  · exact hk
  · split
    · exact ha
    · exact fun d hd => ha d (List.mem_of_mem_tail hd)

/-- The message that a request is answered by is one that could be read. -/
theorem Forward.call_ok {cfg : Config} {f : Forward} {k : Socket} {n : Nat}
    (hs : cfg.noServer = false) (h : (f.call cfg k).1 = .ok n) :
    ∃ d ∈ f.available k, d.length ≤ 512 ∧
      (f.call cfg k).2.packet.bytes.take (sizeAdd f.packetLen n) = d ∧
      (2 ≤ d.length → idOf d = idOf f.packet.bytes) := by
  obtain ⟨_, _, d, rest, ha, hd, hs', hid, rfl⟩ := recursiveResolve_ok hs (Act.eq_of_fst h)
  have hp : (f.call cfg k).2.packet = .ofDatagram d f.packet := by
    rw [Forward.call, hs', Session.received, take_maxDnsPacketLength hd]
    rfl
  refine ⟨d, by rw [show f.available k = _ from ha]; exact .head _, hd, ?_, fun h2 => ?_⟩
  · rw [hp, sizeAdd_sizeSub (by omega), ofDatagram_bytes hd, List.take_left]
  · rw [← idOf_ofDatagram h2 hd f.packet, ← hp]
    exact hid

theorem Accounted.sameQuestion {cfg : Config} {f : Forward} {k : Socket}
    (hs : cfg.noServer = false) (hk : Accounted k) (h : Honest f k) (hf : Fresh f k) :
    SameQuestion cfg f k := by
  intro n hok
  obtain ⟨d, hd, _, htake, hid⟩ := Forward.call_ok hs hok
  obtain ⟨query, hq, ha⟩ := h.available hk d hd
  have hl := ha.header
  rw [htake, ha.question]
  rcases List.mem_append.mp hq with hold | hnew
  · exact hf query hold (ha.id.symm.trans (hid (by unfold headerLength at hl; omega)))
  · rw [List.mem_singleton.mp hnew]

/-- In a run of recursive requests over a network that delays, duplicates and
reorders the replies, every answer is to the question asked, as long as no id
is used again for another question. -/
theorem answers_question_asked {cfg : Config} (hs : cfg.noServer = false) {fs : List Forward}
    (honest : ∀ c ∈ calls cfg fs ⟨[], []⟩, Honest c.1 c.2)
    (fresh : ∀ c ∈ calls cfg fs ⟨[], []⟩, Fresh c.1 c.2) :
    ∀ c ∈ calls cfg fs ⟨[], []⟩, SameQuestion cfg c.1 c.2 := by
  have accounted : ∀ c ∈ calls cfg fs ⟨[], []⟩, Accounted c.2 :=
    forall_calls (I := Accounted) (P := Honest) (fun _ _ hk h => hk.call h)
      (by intro d hd; cases hd) honest
  exact fun c hc => (accounted c hc).sameQuestion hs (honest c hc) (fresh c hc)

/-- The reply to the first request arrives twice, and the second one is read for
the same question. -/
def duplicated : List Forward :=
  [forwarding 7 questionA [replyTo 7 questionA, replyTo 7 questionA], forwarding 7 questionA []]

theorem answers_question_asked_duplicated :
    (∃ c ∈ calls resolver duplicated ⟨[], []⟩, c.1.exchange.arrivals = [] ∧
      (c.1.call resolver c.2).1 = .ok 0) ∧
    ∀ c ∈ calls resolver duplicated ⟨[], []⟩, SameQuestion resolver c.1 c.2 :=
  ⟨by decide +kernel,
    answers_question_asked (by decide) (by decide +kernel) (by decide +kernel)⟩

/-- The id is used again for another question while a duplicate of the first
reply waits. -/
def reused : List Forward :=
  [forwarding 7 questionA [replyTo 7 questionA, replyTo 7 questionA],
    forwarding 7 questionB [replyTo 7 questionB]]

theorem answers_earlier_question :
    (∀ c ∈ calls resolver reused ⟨[], []⟩, Honest c.1 c.2) ∧
    ¬ ∀ c ∈ calls resolver reused ⟨[], []⟩, SameQuestion resolver c.1 c.2 := by
  refine ⟨by decide +kernel, fun h => ?_⟩
  have second := h _ (.tail _ (.head _)) 0 (by decide +kernel)
  revert second
  decide +kernel

end OdbcDns
