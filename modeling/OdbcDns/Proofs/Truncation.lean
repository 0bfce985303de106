import OdbcDns.Proofs.AnswerSection
import OdbcDns.Proofs.Sizes

namespace OdbcDns
open Slice Rfc1035

/-- How the loop over any rows ends: all records are written and leave room, or
one of them does not and the pointer stays in front of it. -/
theorem resolveRows_sizes {cfg : Config} {rows : List Row} {l l' : RowLoop} {s s' : Session}
    {known : List (List Byte)} (off : Nat) (h : resolveRows cfg rows l s = (.ok l', s'))
    (h0 : l.truncated = false) (hrem : 0 < l.remLen) (hk : Knows s.pointerLocations known)
    (hoff : off ≤ l.ptr) :
    s'.packet.bytes.take off = s.packet.bytes.take off ∧
      l'.info.recursionOccurred = l.info.recursionOccurred ∧
      (l'.truncated = false ∧ ((recordSizes known rows).sum : Int) < l.remLen ∧
          l'.ptr = l.ptr + (recordSizes known rows).sum ∧
          l'.info = { l.info with answers := l.info.answers + UInt16.ofNat rows.length } ∨
        l'.truncated = true ∧ l.remLen ≤ (recordSizes known rows).sum ∧
          l'.info.truncationOccurred = true ∧
          ∃ k < rows.length, (((recordSizes known rows).take k).sum : Int) < l.remLen ∧
            l'.ptr = l.ptr + ((recordSizes known rows).take k).sum ∧
            l'.info.answers = l.info.answers + UInt16.ofNat k - 1) := by
  -- `known` are the names that the table has when the loop reaches the rows left.
  induction rows generalizing l s known with
  | nil =>
    obtain ⟨rfl, rfl⟩ := resolveRows_nil_ok h
    exact ⟨rfl, rfl, .inl ⟨h0, by simpa [recordSizes] using hrem, by simp [recordSizes], by simp⟩⟩
  | cons row rows ih =>
    obtain ⟨l1, n, t1, he, h⟩ := resolveRows_cons_ok h
    obtain ⟨_, _, _, _, _, _, _, _, _, hl, _⟩ := encodeRow_inv he
    obtain ⟨hn, hk1, hle, htake⟩ := encodeRow_size he hk
    have htake0 : t1.packet.bytes.take off = s.packet.bytes.take off := by
      have := congrArg (List.take off) htake
      rwa [List.take_take, List.take_take, Nat.min_eq_left hoff] at this
    have hsum : (recordSizes known (row :: rows)).sum =
        n + (recordSizes (row.known known) rows).sum := by
      rw [recordSizes, List.sum_cons, hn]
    rcases h with ⟨hz, rfl, rfl⟩ | ⟨hz, h⟩
    · simp only [hl] at hz
      refine ⟨htake0, by rw [hl], .inr ⟨rfl, by rw [hsum, Int.natCast_add]; omega, rfl, 0, by simp,
        by simpa using hrem, ?_, ?_⟩⟩
      · simp [hl]
      · simp [hl]
    · simp only [hl] at hz h
      obtain ⟨ht, hrec, hcase⟩ := ih h h0 hz hk1 (by simp only; omega)
      simp only at hrec hcase
      refine ⟨ht.trans htake0, hrec, ?_⟩
      rcases hcase with ⟨htr, hlt, hptr, hinfo⟩ | ⟨htr, hge, hflag, k, hkl, hlt, hptr, hans⟩
      · refine .inl ⟨htr, by rw [hsum, Int.natCast_add]; omega, by rw [hsum, hptr]; omega, ?_⟩
        rw [hinfo, List.length_cons, ofNat_succ, ← UInt16.add_assoc]
      · have htake : ((recordSizes known (row :: rows)).take (k + 1)).sum =
            n + ((recordSizes (row.known known) rows).take k).sum := by
          rw [recordSizes, List.take_succ_cons, List.sum_cons, hn]
        refine .inr ⟨htr, by rw [hsum, Int.natCast_add]; omega, hflag, k + 1,
          by simpa using hkl, ?_, by rw [htake, hptr]; omega, ?_⟩
        · rw [htake, Int.natCast_add]
          omega
        · rw [hans, ofNat_succ, ← UInt16.add_assoc]

/-- The first byte behind record `i` of records that start at `off`. -/
def recordEnd (off : Nat) (sizes : List Nat) (i : Nat) : Nat := off + (sizes.take (i + 1)).sum

/-- The TC flag of a reply tells whether records are missing from it. -/
def FlagAgrees (reply : List Byte) (off : Nat) (sizes : List Nat) : Prop :=
  (tc reply = false →
    ∀ i < ancount reply, i < sizes.length ∧ recordEnd off sizes i ≤ reply.length) ∧
  (tc reply = true → ∃ i < sizes.length, reply.length < recordEnd off sizes i)

theorem sum_take_le (sizes : List Nat) (n : Nat) : (sizes.take n).sum ≤ sizes.sum := by
  have h := congrArg List.sum (List.take_append_drop n sizes)
  rw [List.sum_append] at h
  omega

/-- All records end inside a reply exactly when the last one does. -/
theorem flagAgrees_of_whole {reply : List Byte} {off : Nat} {sizes : List Nat}
    (hc : ancount reply = sizes.length) (hl : reply.length = min (off + sizes.sum) 512)
    (hoff : off ≤ 512) :
    FlagAgrees reply off sizes ↔ (tc reply = false ↔ off + sizes.sum ≤ 512) := by
  have hall : off + sizes.sum ≤ 512 ↔ ∀ i < sizes.length, recordEnd off sizes i ≤ reply.length := by
    constructor
    · intro h i _
      have := sum_take_le sizes (i + 1)
      unfold recordEnd
      omega
    · intro h
      cases hn : sizes.length with
      | zero =>
        rw [List.length_eq_zero_iff.mp hn]
        simpa using hoff
      | succ n =>
        have := h n (by omega)
        unfold recordEnd at this
        rw [← hn, List.take_length] at this
        omega
  unfold FlagAgrees
  rw [hc, hall]
  cases tc reply with
  | false =>
    simp only [forall_const, Bool.false_eq_true, false_implies, and_true, true_iff]
    exact ⟨fun h i hi => (h i hi).2, fun h i hi => ⟨hi, h i hi⟩⟩
  | true =>
    simp only [Bool.true_eq_false, false_implies, forall_const, true_and, false_iff]
    constructor
    · rintro ⟨i, hi, hlt⟩ h
      exact absurd (h i hi) (Nat.not_le.mpr hlt)
    · intro h
      by_contra hno
      exact h (fun i hi => Nat.not_lt.mp (fun hlt => hno ⟨i, hi, hlt⟩))

/-- A record that is turned away is missing from the reply. -/
theorem flagAgrees_of_truncated {reply : List Byte} {off k : Nat} {known : List (List Byte)}
    {rows : List Row} (ht : tc reply = true) (hk : k < rows.length)
    (hl : reply.length ≤ off + ((recordSizes known rows).take k).sum) :
    FlagAgrees reply off (recordSizes known rows) := by
  have hk' : k < (recordSizes known rows).length := by simpa using hk
  have hsize := le_of_mem_recordSizes (List.getElem_mem hk')
  refine ⟨fun h => absurd (ht.symm.trans h) (by decide), fun _ => ⟨k, hk', ?_⟩⟩
  rw [recordEnd, List.take_succ_eq_append_getElem hk', List.sum_append, List.sum_singleton]
  omega

section Reply

variable {cfg : Config} {t : Turn} {w : Worker} {g : Worker.Stage} {query : DNSQuery}
  {info : ResponseInfo} {s : Session}

theorem knows_single (name : List Byte) :
    Knows (PointerLocations.insert (fun _ => none) name 12) [name] := by
  intro m
  unfold PointerLocations.insert
  by_cases hm : m = name
  · simp [hm]
  · simp [hm]

theorem Packet.length_take (p : Packet) {n : Nat} (h : n ≤ 1024) : (p.bytes.take n).length = n := by
  rw [List.length_take, p.size, packetAllocation]
  omega

/-- The header and the length of a reply that was not received. -/
theorem cached_reply (cfg : Config) (g : Worker.Stage) (s : Session) {info : ResponseInfo}
    (h : info.recursionOccurred = false) (hb : 12 + g.totalBytes + info.length ≤ 1024) :
    (Worker.answered cfg g s info).reply.length = min (12 + g.totalBytes + info.length) 512 ∧
      tc (Worker.answered cfg g s info).reply = (info.truncationOccurred || tc s.packet.bytes) ∧
      ancount (Worker.answered cfg g s info).reply = info.answers.toNat := by
  have hsize : sizeAdd headerLength (sizeAdd g.totalBytes info.length) =
      12 + g.totalBytes + info.length := by
    rw [sizeAdd_of_lt (a := g.totalBytes) (by omega), headerLength, sizeAdd_of_lt (by omega)]
    omega
  have htc : tc (Worker.answered cfg g s info).session.packet.bytes =
      (info.truncationOccurred || tc s.packet.bytes) := by
    simp only [Worker.answered, h, Bool.false_eq_true, if_false, tc_flags]
    cases info.truncationOccurred with
    | false => rfl
    | true => exact tc_setTc s.packet
  have han : ancount (Worker.answered cfg g s info).session.packet.bytes = info.answers.toNat := by
    simp only [Worker.answered, h, Bool.false_eq_true, if_false, ancount_flags]
  have hreply : (Worker.answered cfg g s info).reply =
      (Worker.answered cfg g s info).session.packet.bytes.take
        (min (12 + g.totalBytes + info.length) 512) := by
    simp only [Worker.Stage.reply, Worker.answered, hsize, maxDnsPacketLength]
  rw [hreply]
  refine ⟨Packet.length_take _ (by omega), ?_, ?_⟩
  · rw [← htc, tc, tc, byteAt_take (by omega)]
  · rw [← han, ancount, ancount, byteAt_take (by omega), byteAt_take (by omega)]

/-- How a single question has been answered from the cache, for any rows. -/
structure CachedSingle (t : Turn) (query : DNSQuery) (sizes : List Nat) (info : ResponseInfo)
    (s : Session) : Prop where
  small : query.length ≤ 260
  flag : tc s.packet.bytes = tc (Packet.ofDatagram t.datagram t.buffer).bytes
  ends : info.truncationOccurred = false ∧ sizes.sum < 500 ∧ info.length = sizes.sum ∧
      info.answers = UInt16.ofNat sizes.length ∨
    info.truncationOccurred = true ∧ 500 ≤ sizes.sum ∧
      ∃ k < sizes.length, (sizes.take k).sum < 500 ∧ info.length = (sizes.take k).sum

theorem cached_single (extracted : w.clean.extract cfg t = .ok g) (accepted : g.error = false)
    (single : g.session.queries = [query]) (type : query.qtype = typeA)
    (resolved : resolve cfg t.locals t.lookup (sizeAdd headerLength g.totalBytes)
      (sizeAdd headerLength g.totalBytes) g.session = (.ok info, s))
    (cached : info.recursionOccurred = false) :
    g.totalBytes = query.length ∧
      CachedSingle t query (recordSizes [query.qname] (t.lookup query.qname)) info s := by
  obtain ⟨_, hg⟩ := Worker.extract_ok extracted accepted
  have hqs : t.parsed.1 = [query] := by
    rw [hg] at single
    exact single
  rw [hqs] at hg
  have hsession : g.session = w.clean.extracted t [query] := by rw [hg]
  have hq : query.length ≤ 260 := parseQuestions_length _ _ _ _ query (by
    rw [← Turn.parsed, hqs]
    exact .head _)
  have htb : g.totalBytes = query.length := by
    rw [hg]
    simp
  have hoff : sizeAdd headerLength query.length = 12 + query.length :=
    sizeAdd_of_lt (by unfold headerLength; omega)
  rw [htb, hoff] at resolved
  obtain ⟨n, info', hr, hinfo⟩ := (resolve_single query single type).mp resolved
  obtain ⟨l, u, hrows, hcase⟩ := resolveA_inv hr
  rcases hcase with ⟨_, hn, rfl, hcommit⟩ | ⟨_, _, _, hrec, _⟩
  · have hsp : g.session.packet = Packet.ofDatagram t.datagram t.buffer := by
      rw [hsession]
      rfl
    obtain ⟨htake, _, hend⟩ := resolveRows_sizes (12 + query.length) hrows rfl
      (by simp [RowLoop.start]) (by rw [hsession]; exact knows_single query.qname) (Nat.le_refl _)
    simp only [RowLoop.start] at hend
    refine ⟨htb, hq, ?_, ?_⟩
    · rw [tc, tc, commit_ok hcommit, ← hsp, byteAt_of_take_eq htake (by omega)]
    · rw [hinfo, hn, length_recordSizes]
      rcases hend with ⟨_, hlt, hptr, hl⟩ | ⟨_, hge, hflag, k, hk, hlt, hptr, _⟩
      · refine .inl ⟨by rw [hl]; rfl, by omega, by simp only; omega, ?_⟩
        rw [hl]
        exact UInt16.zero_add _
      · exact .inr ⟨hflag, by omega, k, hk, by omega, by simp only; omega⟩
  · rw [hinfo, hrec] at cached
    cases cached

theorem CachedSingle.flagAgrees_iff {known : List (List Byte)} {rows : List Row}
    (h : CachedSingle t query (recordSizes known rows) info s)
    (htb : g.totalBytes = query.length) (cached : info.recursionOccurred = false) (cfg : Config) :
    FlagAgrees (Worker.answered cfg g s info).reply (12 + query.length) (recordSizes known rows) ↔
      500 ≤ (recordSizes known rows).sum ∨
        (tc (Packet.ofDatagram t.datagram t.buffer).bytes = false ↔
          12 + query.length + (recordSizes known rows).sum ≤ 512) := by
  obtain ⟨hsmall, hflag, hends⟩ := h
  have hcount := length_le_recordSizes known rows
  have hbound : 12 + g.totalBytes + info.length ≤ 1024 := by omega
  obtain ⟨hlen, htc, han⟩ := cached_reply cfg g s cached hbound
  rw [htb] at hlen
  rcases hends with ⟨hwhole, hlt, hl, ha⟩ | ⟨htrunc, hge, k, hk, _, hl⟩
  · rw [hl] at hlen
    have hc : ancount (Worker.answered cfg g s info).reply = (recordSizes known rows).length := by
      rw [han, ha, length_recordSizes, UInt16.toNat_ofNat']
      omega
    rw [flagAgrees_of_whole hc hlen (by omega), htc, hwhole, hflag, Bool.false_or]
    exact ⟨.inr, fun h => h.resolve_left (by omega)⟩
  · refine ⟨fun _ => .inl hge, fun _ => flagAgrees_of_truncated ?_ (by simpa using hk) ?_⟩
    · rw [htc, htrunc, Bool.true_or]
    · rw [hlen, hl]
      omega

/-- Size and flag agree when the records exceed the budget of 500 bytes, or when
the request carries the flag exactly if its question and the records exceed a
datagram. -/
theorem size_and_flag_agree_iff (extracted : w.clean.extract cfg t = .ok g)
    (accepted : g.error = false) (single : g.session.queries = [query])
    (type : query.qtype = typeA)
    (resolved : resolve cfg t.locals t.lookup (sizeAdd headerLength g.totalBytes)
      (sizeAdd headerLength g.totalBytes) g.session = (.ok info, s))
    (cached : info.recursionOccurred = false) :
    FlagAgrees (Worker.answered cfg g s info).reply (12 + query.length)
        (recordSizes [query.qname] (t.lookup query.qname)) ↔
      500 ≤ (recordSizes [query.qname] (t.lookup query.qname)).sum ∨
        (tc (Packet.ofDatagram t.datagram t.buffer).bytes = false ↔
          12 + query.length + (recordSizes [query.qname] (t.lookup query.qname)).sum ≤ 512) := by
  obtain ⟨htb, h⟩ := cached_single extracted accepted single type resolved cached
  exact h.flagAgrees_iff htb cached cfg

end Reply

/-- What `resolve` is given once the question of a quiet turn is extracted. -/
theorem cached_exists {t : Turn} {q : Question} (cfg : Config) (w : Worker)
    (as : List Answer) (asks : Asks t.datagram [q]) (type : q.typeLow = 1)
    (rows : t.lookup q.name.text = as.map Answer.row) (stays : Local as t.datagram)
    (fits : (singleBytes q as).length < 500) (driver : t.driver = []) :
    ∃ g info s, w.clean.extract cfg t = .ok g ∧ g.error = false ∧
      g.session.queries = [q.query] ∧
      resolve cfg t.locals t.lookup (sizeAdd headerLength g.totalBytes)
        (sizeAdd headerLength g.totalBytes) g.session = (.ok info, s) ∧
      info.recursionOccurred = false := by
  obtain ⟨g, info, s, hg, hr, hw⟩ := answered_single_exists cfg w asks type rows stays fits driver
  have h := answered_single asks type rows stays hg hr (.inl hw)
  have he := w.clean.extract_asks cfg t asks
  rw [hg] at he
  cases he
  exact ⟨_, info, s, hg, rfl, rfl, hr, h.recursion⟩

theorem size_and_flag_agree_alias : ∃ g info s,
    Worker.idle.clean.extract ⟨0, false⟩ turnA = .ok g ∧
    resolve ⟨0, false⟩ turnA.locals turnA.lookup (sizeAdd headerLength g.totalBytes)
      (sizeAdd headerLength g.totalBytes) g.session = (.ok info, s) ∧
    FlagAgrees (Worker.answered ⟨0, false⟩ g s info).reply 19
      (recordSizes [nameA.text] (aliasThenAddress.map Answer.row)) := by
  have asks : Asks turnA.datagram [questionA] := asks_request 0 7 1 (by decide) (by decide)
  obtain ⟨g, info, s, hg, he, hq, hr, hc⟩ := cached_exists ⟨0, false⟩ Worker.idle aliasThenAddress
    asks rfl rfl (.inl (by decide)) (by decide) rfl
  refine ⟨g, info, s, hg, hr, (size_and_flag_agree_iff hg he hq rfl hr hc).mpr (.inr ?_)⟩
  decide +kernel

/-- Twenty-five addresses for a name of 114 characters. -/
def manyAddresses : List Answer :=
  List.replicate 25 ⟨longName, 1, 60, .address ⟨1, 2, 3, 4⟩⟩

def turnMany : Turn :=
  .quiet (request 0 7 1 [questionLong]) requestLong_short (fun _ => manyAddresses.map Answer.row)

/-- Their 400 bytes fit the budget, but not the datagram behind 132 bytes of
header and question: the last records are cut off and TC is not set. -/
theorem size_and_flag_disagree_many : ∃ g info s,
    Worker.idle.clean.extract ⟨0, false⟩ turnMany = .ok g ∧
    resolve ⟨0, false⟩ turnMany.locals turnMany.lookup (sizeAdd headerLength g.totalBytes)
      (sizeAdd headerLength g.totalBytes) g.session = (.ok info, s) ∧
    info.recursionOccurred = false ∧
    ¬ FlagAgrees (Worker.answered ⟨0, false⟩ g s info).reply 132
      (recordSizes [longName.text] (manyAddresses.map Answer.row)) := by
  have asks : Asks turnMany.datagram [questionLong] := asks_request 0 7 1 (by decide) (by decide)
  obtain ⟨g, info, s, hg, he, hq, hr, hc⟩ := cached_exists ⟨0, false⟩ Worker.idle manyAddresses
    asks rfl rfl (.inl (by decide)) (by decide +kernel) rfl
  obtain ⟨htb, h⟩ := cached_single hg he hq rfl hr hc
  refine ⟨g, info, s, hg, hr, hc, fun hf => ?_⟩
  exact absurd ((h.flagAgrees_iff htb hc ⟨0, false⟩).mp hf) (by decide +kernel)

end OdbcDns
