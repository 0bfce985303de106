import Mathlib.Data.List.Permutation
import OdbcDns.Proofs.Chains
import OdbcDns.Proofs.LocalReply
import OdbcDns.Proofs.Relaying

namespace OdbcDns
open Slice Rfc1035 UnionAll RecordQuery

/-! A reply that was relayed for one request answers the next one from the cache. -/

/-- The answer as the cache gives it at `now`: the seconds since it was stored are taken off
its TTL. -/
def Answer.aged (a : Answer) (stored now : Rat) : Answer :=
  { a with ttl := UInt32.ofInt (a.ttl.toNat - (now.floor - stored.floor)) }

section Aged

variable {stored now : Rat}

theorem selected_stored {a : Answer} (small : a.ttl.toNat < 2147483648) :
    selected now (a.stored stored) = (a.aged stored now).row := by
  have signed : signedTTL a.ttl = a.ttl.toNat := if_pos small
  have ttl : timestampDiff now (a.stored stored).expires =
      a.ttl.toNat - (now.floor - stored.floor) := by
    rw [← signed]
    exact timestampDiff_add now stored _
  rw [selected, ttl]
  rfl

theorem extend_aged (t : PointerLocations) (ptr : Nat) (a : Answer) :
    extend t ptr (a.aged stored now) = extend t ptr a := rfl

theorem length_recordBytes_aged (t : PointerLocations) (a : Answer) :
    (recordBytes t (a.aged stored now)).length = (recordBytes t a).length := by
  rw [length_recordBytes, length_recordBytes]
  rfl

/-- How much room answers take does not depend on their TTLs. -/
theorem length_answerBytes_aged (stored : Nat → Rat) (t : PointerLocations) (ptr : Nat)
    (ps : List (Answer × Nat)) :
    (answerBytes t ptr (ps.map fun p => p.1.aged (stored p.2) now)).length =
      (answerBytes t ptr (ps.map Prod.fst)).length := by
  induction ps generalizing t ptr with
  | nil => rfl
  | cons p ps ih =>
    simp only [List.map_cons, answerBytes, List.length_append, length_recordBytes_aged,
      extend_aged, ih]

end Aged

/-- The answers of a reply as the cache gives them at `now`. -/
def agedAnswers (executions : Nat → Execution) (as : List Answer) (now : Rat) : List Answer :=
  as.zipIdx.map fun p => p.1.aged (executions p.2).insertNow now

/-- Answers that the cache can give back as they came: they lead from the name over aliases
to addresses, none of them stands there twice, no address is also the name of one, and the
table has nothing live under any of these names when the statements for them are executed. -/
structure Cacheable (record : List Stored) (executions : Nat → Execution) (name : List Byte)
    (as : List Answer) : Prop where
  leads : Leads name (storedAnswers executions as)
  distinct : as.Pairwise fun a b => a.owner.text = b.owner.text → a.target.text ≠ b.target.text
  apart : ∀ a ∈ as, a.isAddress → ∀ b ∈ as, b.owner.text ≠ a.target.text
  stale : ∀ r ∈ record, ∀ a ∈ as, r.name = a.owner.text ∨ a.isAddress ∧ r.name = a.target.text →
    ∀ i < as.length, r.expires ≤ (executions i).deleteNow

/-- At `now` the statements for the answers have been executed, and the answers are alive. -/
structure Alive (executions : Nat → Execution) (as : List Answer) (now : Rat) : Prop where
  executed : ∀ i < as.length, (executions i).deleteNow ≤ now
  small : ∀ a ∈ as, a.ttl.toNat < 2147483648
  lives : ∀ p ∈ as.zipIdx, now < (executions p.2).insertNow + p.1.ttl.toNat

theorem mem_storedAnswers {executions : Nat → Execution} {as : List Answer} {r : Stored}
    (hr : r ∈ storedAnswers executions as) :
    ∃ p ∈ as.zipIdx, p.1 ∈ as ∧ r = p.1.stored (executions p.2).insertNow := by
  obtain ⟨p, hp, rfl⟩ := List.mem_map.mp hr
  exact ⟨p, hp, List.fst_mem_of_mem_zipIdx hp, rfl⟩

section Table

variable {c : Connection} {executions : Nat → Execution} {now : Rat} {name : List Byte}
  {as : List Answer}

theorem Alive.expires (alive : Alive executions as now) :
    ∀ r ∈ storedAnswers executions as, now < r.expires := by
  intro r hr
  obtain ⟨p, hp, ha, rfl⟩ := mem_storedAnswers hr
  have signed : signedTTL p.1.ttl = p.1.ttl.toNat := if_pos (alive.small p.1 ha)
  have expires : (p.1.stored (executions p.2).insertNow).expires =
      (executions p.2).insertNow + (p.1.ttl.toNat : Rat) := by
    rw [Answer.stored, signed]
    norm_cast
  rw [expires]
  exact alive.lives p hp

theorem Cacheable.pairwise (h : Cacheable c.record executions name as) :
    (storedAnswers executions as).Pairwise fun r r' => r.name = r'.name →
      r.value ≠ r'.value := by
  have distinct := h.distinct
  rw [← List.zipIdx_map_fst 0 as, List.pairwise_map] at distinct
  exact List.pairwise_map.mpr distinct

/-- What the answers leave in the table. -/
theorem Cacheable.record (h : Cacheable c.record executions name as)
    (alive : Alive executions as now) :
    (c.storeAll (executed executions 0 as)).record =
      c.record.filter (fun r => ∀ row ∈ storedAnswers executions as, r.name ≠ row.name) ++
        storedAnswers executions as := by
  have numbers : ∀ p ∈ executed executions 0 as, ∃ a ∈ as, ∃ i < as.length,
      p = (executions i, a.stored (executions i).insertNow) := by
    intro p hp
    obtain ⟨x, hx, rfl⟩ := List.mem_map.mp hp
    have bound := List.snd_lt_of_mem_zipIdx hx
    exact ⟨x.1, List.fst_mem_of_mem_zipIdx hx, x.2, bound, rfl⟩
  have stores := Connection.record_storeAll (executed executions 0 as) c.record []
    (List.append_nil _).symm
  rw [map_snd_executed, List.nil_append] at stores
  apply stores
  · intro r hr p hp hname
    obtain ⟨a, ha, i, hi, rfl⟩ := numbers p hp
    exact h.stale r hr a ha (.inl hname) i hi
  · intro r hr p hp
    obtain ⟨a, ha, i, hi, rfl⟩ := numbers p hp
    exact lt_of_le_of_lt (alive.executed i hi) (alive.expires r hr)
  · exact h.pairwise

/-- Under the name of an answer, or the text of an address, nothing but the answers is live. -/
theorem Cacheable.live (h : Cacheable c.record executions name as)
    (alive : Alive executions as now) {n : List Byte} {a : Answer} (ha : a ∈ as)
    (hn : n = a.owner.text ∨ a.isAddress ∧ n = a.target.text) :
    liveRows (c.storeAll (executed executions 0 as)).record now n =
      (storedAnswers executions as).filter (fun r => r.name = n) := by
  have before : liveRows (c.record.filter
      (fun r => ∀ row ∈ storedAnswers executions as, r.name ≠ row.name)) now n = [] := by
    apply List.filter_eq_nil_iff.mpr
    intro r hr
    have stale : r.name = n → r.expires ≤ now := by
      rintro rfl
      have first := List.length_pos_of_mem ha
      exact le_trans (h.stale r (List.mem_of_mem_filter hr) a ha hn 0 first)
        (alive.executed 0 first)
    simp only [decide_eq_true_eq, not_and, not_lt]
    exact stale
  have after : liveRows (storedAnswers executions as) now n =
      (storedAnswers executions as).filter (fun r => r.name = n) := by
    apply List.filter_congr
    intro r hr
    simp [alive.expires r hr]
  rw [h.record alive, liveRows, List.filter_append]
  rw [liveRows] at before after
  rw [before, after, List.nil_append]

/-- The lookup finds the answers and nothing else. -/
theorem Cacheable.returned (h : Cacheable c.record executions name as)
    (alive : Alive executions as now) {rows : List Row}
    (found : Returns (c.storeAll (executed executions 0 as)).record now name rows) :
    rows.Perm ((agedAnswers executions as now).map Answer.row) := by
  have owned : ∀ r ∈ storedAnswers executions as,
      liveRows (c.storeAll (executed executions 0 as)).record now r.name =
        (storedAnswers executions as).filter (fun r' => r'.name = r.name) := by
    intro r hr
    obtain ⟨p, _, ha, rfl⟩ := mem_storedAnswers hr
    exact h.live alive ha (.inl rfl)
  have apart : ∀ r ∈ storedAnswers executions as, r.type = typeA →
      liveRows (c.storeAll (executed executions 0 as)).record now r.value = [] := by
    intro r hr type
    obtain ⟨p, _, ha, rfl⟩ := mem_storedAnswers hr
    have address := p.1.type_eq_typeA.mp type
    refine (h.live alive ha (.inr ⟨address, rfl⟩)).trans (List.filter_eq_nil_iff.mpr ?_)
    intro r hr
    obtain ⟨p', _, hb, rfl⟩ := mem_storedAnswers hr
    rw [decide_eq_true_eq]
    exact h.apart p.1 ha address p'.1 hb
  have aged : (storedAnswers executions as).map (selected now) =
      (agedAnswers executions as now).map Answer.row := by
    rw [storedAnswers, agedAnswers, List.map_map, List.map_map]
    apply List.map_congr_left
    intro p hp
    exact selected_stored (alive.small p.1 (List.fst_mem_of_mem_zipIdx hp))
  rw [← aged]
  exact rows_of_yields found (h.leads.yields owned apart)

/-- The rows of the lookup are those of the answers in some order, which take no more room
than the answers can. -/
theorem Cacheable.ordered (h : Cacheable c.record executions name as)
    (alive : Alive executions as now) {rows : List Row}
    (found : Returns (c.storeAll (executed executions 0 as)).record now name rows)
    {q : Question} {n : Nat} (room : ∀ as', as'.Perm as → (singleBytes q as').length ≤ n) :
    ∃ as', as'.Perm (agedAnswers executions as now) ∧ rows = as'.map Answer.row ∧
      (singleBytes q as').length ≤ n := by
  have order := h.returned alive found
  rw [agedAnswers, List.map_map] at order
  obtain ⟨ps, rfl, perm⟩ := (congrFun₂ (List.eq_map_comp_perm _) rows as.zipIdx).mpr order
  refine ⟨_, perm.map _, (List.map_map ..).symm, ?_⟩
  have fits := room (ps.map Prod.fst) (by
    rw [← List.zipIdx_map_fst 0 as]
    exact perm.map _)
  rw [singleBytes, length_answerBytes_aged (fun i => (executions i).insertNow)]
  exact fits

/-- Some answer is an address. -/
theorem Cacheable.address {record : List Stored} (h : Cacheable record executions name as)
    {as' : List Answer}
    (order : as'.Perm (agedAnswers executions as now)) : 0 < as'.countP Answer.isAddress := by
  obtain ⟨r, hr, type⟩ := h.leads.address
  obtain ⟨p, hp, _, rfl⟩ := mem_storedAnswers hr
  rw [order.countP_eq, List.countP_pos_iff]
  exact ⟨_, List.mem_map_of_mem hp, p.1.type_eq_typeA.mp type⟩

end Table

/-- From `off` on the message has these answers, and `decode` can read all of them. -/
structure Answering (msg : Message) (off : Nat) (as : List Answer) : Prop where
  count : ancount msg = as.length
  laidOut : ∃ xs next, LaidOut msg off xs next ∧ xs.map Layout.record = as.map Answer.record ∧
    ∀ x ∈ xs, x.Readable msg

section Turn

variable {cfg : Config} {t : Turn} {w : Worker} {p : Packet} {q : Question} {as : List Answer}
  {now : Rat}

end Turn

/-- A reply that gives `a` as an alias of `b`, and an address of `b` whose owner is a pointer
to the alias. -/
def chainReply : List Byte :=
  upstreamReply 2 ([0xC0, 12, 0, 5, 0, 1, 0, 0, 0, 60, 0, 3, 1, 98, 0] ++
    [0xC0, 31, 0, 1, 0, 1, 0, 0, 0, 30, 0, 4, 1, 2, 3, 4])

def chainAnswers : List Answer :=
  [⟨nameA, 1, 60, .cname nameB⟩, ⟨nameB, 1, 30, .address ⟨1, 2, 3, 4⟩⟩]

def firstAsked : Turn := .asking 7 questionA requestA_short [chainReply]

theorem requestAgain_short : (request 0 8 1 [questionA]).length ≤ 512 := by decide

/-- The same question, two and a half seconds after the alias was cached. The statements for
the address come a quarter of a second later, and the lookup gives the address first. -/
def secondAsked : Turn :=
  { Turn.quiet (request 0 8 1 [questionA]) requestAgain_short fun _ =>
      [⟨28, [98], [49, 46, 50, 46, 51, 46, 52], typeA, 1⟩, ⟨58, [97], [98], typeCname, 1⟩] with
    executions := fun i => .instant (if i = 0 then 0 else 1 / 4) }

theorem relays_firstAsked :
    RelaysOnce resolver Worker.idle firstAsked questionA [] chainReply [] where
  server := by decide
  asks := asks_request 0 7 1 (by decide) (by decide)
  desired := by decide
  missed := .aliases (by decide) rfl rfl (by decide)
  driver := rfl
  works := ⟨rfl, rfl, rfl⟩
  available := rfl
  carries := ⟨by decide, by decide⟩
  short := by decide

/-- The packet that is cached: the reply, and what was in memory behind it. -/
def chainPacket : List Byte :=
  chainReply ++ (unresolved firstAsked questionA []).drop chainReply.length

theorem chainPacket_alias :
    Layout.In chainPacket ⟨19, 21, ⟨[[97]], 5, 1, 60, .name [[98]]⟩, 3⟩ where
  name := @NameAt.pointer _ 19 15 0xC0 12 _ (by decide) (by decide +kernel)
    (nameAt_of_wire (by decide) (by decide +kernel))
  fixed := by decide +kernel
  rdata := .name (nameAt_of_wire (by decide) (by decide +kernel))

theorem chainPacket_address :
    Layout.In chainPacket ⟨34, 36, ⟨[[98]], 1, 1, 30, .address [1, 2, 3, 4]⟩, 4⟩ where
  name := @NameAt.pointer _ 34 34 0xC0 31 _ (by decide) (by decide +kernel)
    (nameAt_of_wire (by decide) (by decide +kernel))
  fixed := by decide +kernel
  rdata := .address rfl (by decide +kernel)

theorem chainPacket_answering : Answering chainPacket 19 chainAnswers where
  count := by decide +kernel
  laidOut := by
    have small : chainPacket.length ≤ 16256 := by decide +kernel
    -- a record is readable exactly when `decode` finds its end
    have first : Layout.Ends chainPacket (fun _ => 0)
        ⟨19, 21, ⟨[[97]], 5, 1, 60, .name [[98]]⟩, 3⟩ :=
      ⟨⟨[97], ⟨5, 1, 60, 3⟩, some (.cname ⟨[98]⟩)⟩, by decide +kernel, rfl⟩
    have second : Layout.Ends chainPacket (fun _ => 0)
        ⟨34, 36, ⟨[[98]], 1, 1, 30, .address [1, 2, 3, 4]⟩, 4⟩ :=
      ⟨⟨[98], ⟨1, 1, 30, 4⟩, some (.a ⟨[1, 2, 3, 4], [49, 46, 50, 46, 51, 46, 52]⟩)⟩,
        by decide +kernel, rfl⟩
    refine ⟨_, 50, .cons chainPacket_alias (.cons chainPacket_address .nil), rfl, ?_⟩
    exact List.forall_mem_cons.mpr ⟨(chainPacket_alias.ends_iff small _).mp first,
      List.forall_mem_singleton.mpr ((chainPacket_address.ends_iff small _).mp second)⟩

end OdbcDns
