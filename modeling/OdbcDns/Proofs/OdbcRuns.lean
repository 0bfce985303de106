import OdbcDns.Proofs.OdbcRefinement

/-! The worker over the ODBC driver does what `Worker.run` does with some outcomes of its
calls, so whatever holds of that for all outcomes holds of this. -/

namespace OdbcDns.OdbcCalls

/-- The driver describes the columns of the query, and no string of the rows is longer than
its column. -/
structure Driver.Describes (v : Driver) (lookup : List Byte → List Row) : Prop where
  columns : v.described.map Column.name = ["TTL", "NAME", "VALUE", "TYPE", "CLASS"]
  name : ∀ asked, ∀ row ∈ lookup asked, row.name.length ≤ (v.described.map Column.length).getD 1 0
  value : ∀ asked, ∀ row ∈ lookup asked, row.value.length ≤ (v.described.map Column.length).getD 2 0

/-- What the constructor of the result set makes of the five columns. -/
structure Positions (rs : SQLResultSet) (nameLength valueLength : Nat) : Prop where
  ttl : rs.colPositions "TTL" = 1
  name : rs.colPositions "NAME" = 2
  value : rs.colPositions "VALUE" = 3
  type : rs.colPositions "TYPE" = 4
  rclass : rs.colPositions "CLASS" = 5
  nameLength : rs.colLengths[1]? = some nameLength
  valueLength : rs.colLengths[2]? = some valueLength

theorem Driver.Describes.positions {v : Driver} {lookup : List Byte → List Row}
    (h : v.Describes lookup) : Positions (.new v.described)
      ((v.described.map Column.length).getD 1 0) ((v.described.map Column.length).getD 2 0) := by
  have columns := h.columns
  rcases hd : v.described with _ | ⟨a, _ | ⟨b, _ | ⟨c, _ | ⟨d, _ | ⟨e, _ | ⟨f, rest⟩⟩⟩⟩⟩⟩
  all_goals simp [hd] at columns
  obtain ⟨ha, hb, hc, hd, he⟩ := columns
  constructor <;> simp [SQLResultSet.new, SQLResultSet.describeColumns, ha, hb, hc, hd, he]

section Rows

variable {rs : SQLResultSet} {nameLength valueLength : Nat} {F : Stop → Prop} {row : Row}

theorem next_eq (cursor : List Row) : SQLResultSet.next cursor =
    checked SQLResultSet.handleErrors (driverFunction true false
      (pure (decide (cursor ≠ []), if cursor = [] then .noData else .success))) := by
  funext d
  unfold SQLResultSet.next checked driverFunction
  simp only [Act.bind_apply, Act.get_apply, Act.set_apply]
  cases d.answers.headD (.done false) with
  | done info =>
    cases cursor <;> cases info <;> rfl
  | error first more old =>
    simp only [Act.bind_apply, Act.modify_apply, Act.pure_apply]
    rcases SQLResultSet.handleErrors .error _ with ⟨r, t⟩
    cases r <;> rfl
  | invalidHandle => rfl

theorem consults_next (cursor : List Row) :
    Consults F (· = decide (cursor ≠ [])) (SQLResultSet.next cursor) := by
  rw [next_eq]
  exact .checked_ok (.inr rfl) (fun _ => rfl) (by split <;> simp) (by split <;> simp) true false

theorem consults_getFixed {α : Type} {read : SQLValue → Option α} {colNum : Nat} {a : α}
    (h : (row.column colNum).bind read = some a) (buf : α) :
    Consults F (· = a) (SQLResultSet.getFixed read row colNum buf) := by
  unfold SQLResultSet.getFixed
  simp only [h]
  exact .checked_ok (.inr rfl) (fun _ => rfl) (by simp) (by simp) true buf

/-- A string column is read into its buffer, or it is too long. -/
theorem consults_getString {colName : String} {colNum length : Nat} {text : List Byte}
    (position : rs.colPositions colName = colNum + 1) (hlen : rs.colLengths[colNum]? = some length)
    (column : row.column (colNum + 1) = some (.varchar text)) (fits : text.length ≤ length)
    (buf : List Byte) :
    Consults (fun e => e = .fault .outOfBounds ∧ 256 ≤ text.length)
      (fun b => b = Slice.overwrite buf 0 (text ++ [0]) ∧ text.length + 1 ≤ 256)
      (rs.getString row colName buf) := by
  unfold SQLResultSet.getString
  simp only [position, Nat.succ_ne_zero, if_false, Nat.add_sub_cancel, hlen, column,
    List.take_of_length_le fits]
  by_cases long : text.length + 1 > 256
  · simp only [long, if_true]
    refine .checked (.inr rfl) (fun _ => rfl) true buf (z := .error (.fault .outOfBounds)) ?_ ?_
    · intro p hp
      cases hp
    · intro e he
      cases he
      exact ⟨rfl, by omega⟩
  · simp only [long, if_false]
    refine .checked (.inr rfl) (fun _ => rfl) true buf
      (z := .ok (Slice.overwrite buf 0 (text ++ [0]), .success)) ?_ ?_
    · intro p hp
      cases hp
      exact ⟨⟨rfl, by omega⟩, by simp, by simp⟩
    · intro e he
      cases he

/-- What the buffers hold when a row has been read. -/
def filled (b : RowBuffers) (row : Row) : RowBuffers :=
  ⟨row.ttl, Slice.overwrite b.nameBuf 0 (row.name ++ [0]),
    Slice.overwrite b.valueBuf 0 (row.value ++ [0]), row.type, row.rclass⟩

/-- A string of the row does not fit its buffer. -/
def TooLong (row : Row) : Prop := 256 ≤ row.name.length ∨ 256 ≤ row.value.length

theorem consults_readRow (h : Positions rs nameLength valueLength)
    (name : row.name.length ≤ nameLength) (value : row.value.length ≤ valueLength)
    (b : RowBuffers) :
    Consults (fun e => e = .fault .outOfBounds ∧ TooLong row)
      (fun b' => b' = filled b row ∧ ¬ TooLong row) (readRow rs row b) := by
  unfold readRow SQLResultSet.getLong SQLResultSet.getUShort
  rw [h.ttl, h.type, h.rclass]
  refine .bind (consults_getFixed (a := row.ttl) (by simp [Row.column]) b.ttlBuf) ?_
  rintro _ rfl
  refine .bind ((consults_getString h.name h.nameLength rfl name b.nameBuf).mono
    fun e he => ⟨he.1, .inl he.2⟩) ?_
  intro nameBuf hn
  refine .bind ((consults_getString h.value h.valueLength rfl value b.valueBuf).mono
    fun e he => ⟨he.1, .inr he.2⟩) ?_
  intro valueBuf hv
  refine .bind (consults_getFixed (a := row.type) (by simp [Row.column]) b.typeBuf) ?_
  rintro _ rfl
  refine .bind (consults_getFixed (a := row.rclass) (by simp [Row.column]) b.classBuf) ?_
  rintro _ rfl
  refine .pure ⟨?_, ?_⟩
  · rw [filled, hn.1, hv.1]
  · unfold TooLong
    omega

end Rows

section Loop

variable {cfg : Config} {row : Row} {l : RowLoop} {b : RowBuffers}

/-- With the strings in the buffers, the rest of the body of the loop is the same. -/
theorem encodeRow_filled (short : ¬ TooLong row) (same : b.valueBuf = l.valueBuf) :
    encodeRow cfg row l = Host.plain.encodeFetched cfg (filled b row) l := by
  have name : ¬ row.name.length + 1 > 256 := by
    unfold TooLong at short
    omega
  have value : ¬ row.value.length + 1 > 256 := by
    unfold TooLong at short
    omega
  have owner : cstr (Slice.overwrite b.nameBuf 0 (row.name ++ [0])) =
      cstr (Slice.overwrite [] 0 (row.name ++ [0])) := by
    simp [Slice.overwrite, cstr_append_zero]
  unfold encodeRow Host.encodeRow Host.encodeFetched getString
  simp only [name, value, if_false, Act.lift_ok_bind, filled, same, owner]

theorem encodeRow_tooLong (long : TooLong row) (cfg : Config) (l : RowLoop) (s : Session) :
    encodeRow cfg row l s = (.error (.fault .outOfBounds), s) := by
  unfold encodeRow Host.encodeRow getString
  by_cases name : row.name.length + 1 > 256
  · rw [if_pos name]
    rfl
  · have value : row.value.length + 1 > 256 := by
      unfold TooLong at long
      omega
    rw [if_neg name, if_pos value]
    rfl

theorem valueBuf_encodeFetched {s t : Session} {p : RowLoop × Nat}
    (h : Host.plain.encodeFetched cfg b l s = (.ok p, t)) : p.1.valueBuf = b.valueBuf := by
  unfold Host.encodeFetched at h
  obtain ⟨rdata, _, h⟩ := Act.lift_bind_ok.mp h
  obtain ⟨_, _, h⟩ := Act.lift_bind_ok.mp h
  simp only [Host.plain, Act.get_bind] at h
  obtain ⟨⟨_, packet, n⟩, _, h⟩ := Act.lift_bind_ok.mp h
  cases h
  rfl

theorem refined_resolveRows (cfg : Config) {rs : SQLResultSet} {nameLength valueLength : Nat}
    (h : Positions rs nameLength valueLength) {rows : List Row}
    (fits : ∀ row ∈ rows, row.name.length ≤ nameLength ∧ row.value.length ≤ valueLength)
    (b : RowBuffers) (l : RowLoop) (same : b.valueBuf = l.valueBuf) :
    RefinedBy Eq (resolveRows cfg rs rows b l) (OdbcDns.resolveRows cfg rows l) := by
  induction rows generalizing b l with
  | nil =>
    exact (consults_next []).refined (F := fun _ => False) (fun _ he => he.elim)
      fun _ _ => .pure rfl
  | cons row rows ih =>
    rw [resolveRows_cons]
    unfold resolveRows
    refine (consults_next (row :: rows)).absorbed ?_
    intro more hm
    obtain rfl : more = true := hm
    obtain ⟨name, value⟩ := fits row List.mem_cons_self
    refine (consults_readRow h name value b).refined ?_ ?_
    · intro e he s
      rw [he.1]
      exact Act.bind_of_error (encodeRow_tooLong he.2 cfg l s)
    · intro b' hb
      rw [hb.1, encodeRow_filled hb.2 same]
      refine .bind ((undriven_encodeFetched cfg (filled b row) l).refined_and
        fun _ _ _ => valueBuf_encodeFetched) ?_
      rintro ⟨l', n⟩ _ ⟨rfl, hv⟩
      refine .ite Iff.rfl (fun _ => .pure rfl) fun _ => ?_
      exact ih (fun row hr => fits row (List.mem_cons_of_mem _ hr)) _ _ hv.symm

end Loop

/-- A question whose name fits the buffer of the lookup. -/
def QueryFits (query : DNSQuery) : Prop := (0 : Byte) ∉ query.qname ∧ query.qname.length ≤ 254

theorem parse_fits {start message : List Byte} {query : DNSQuery}
    (h : DNSQuery.parse start message = .ok query) : QueryFits query := by
  unfold DNSQuery.parse at h
  obtain ⟨p, _, h⟩ := Except.bind_ok.mp h
  cases p with
  | some ptr =>
    simp only [Except.bind_ok] at h
    obtain ⟨_, hn, _, _, _, _, h⟩ := h
    cases h
    exact decodeName_fits hn
  | none =>
    simp only [Except.bind_ok] at h
    obtain ⟨_, hn, _, _, _, _, h⟩ := h
    cases h
    exact decodeName_fits hn

section Resolve

variable {cfg : Config} {t : Turn} {v : Driver}

/-- The prepared lookup returns the rows for the name of the question. -/
theorem consults_executeQuery {F : Stop → Prop} {st : SQLStatement Unit} {name asked : List Byte}
    (ready : Ready .select [(.string maxDnsNameLength, ())] st) (hn : cstr name = asked)
    (fits : asked.length ≤ 254) (lookup : List Byte → List Row) :
    Consults F (fun st => st.cursor = lookup asked)
      (st.executeQuery lookup fun _ => .chars name) := by
  have hv : bound .select [(.string maxDnsNameLength, ())] (fun _ => .chars name) =
      some [.varchar asked] := by
    have size : asked.length ≤ maxDnsNameLength := by
      simp only [maxDnsNameLength]
      omega
    simp [bound, SQLText.markers, List.range_succ, ParameterType.read, hn, size]
  have hq : ∀ c, SQLText.query lookup .select [.varchar asked] c =
      some ⟨c, .success, -1, lookup asked⟩ := fun _ => rfl
  obtain ⟨effect, he, hrun⟩ := ready.sqlExecute hv hq
  unfold SQLStatement.executeQuery
  rw [he]
  refine .checked (.inl rfl)
    (z := .ok ({ st with rowCount := -1, cursor := lookup asked }, .success)) (fun d => hrun d) true st ?_ ?_
  · intro p hp
    cases hp
    exact ⟨rfl, by simp, by simp⟩
  · intro e he
    cases he

theorem refined_resolveA (cfg : Config) (describes : v.Describes t.lookup) {query : DNSQuery}
    (fits : QueryFits query) (responseData : Nat) (info : ResponseInfo) (packetLen : Nat) :
    RefinedBy Eq (resolveA cfg t v query responseData info packetLen)
      (OdbcDns.resolveA cfg t.locals t.lookup query responseData info packetLen) := by
  have room : query.qname.length + 1 ≤ maxDnsNameLength := by
    have := fits.2
    simp only [maxDnsNameLength]
    omega
  have short : ¬ query.qname.length + 1 > maxDnsNameLength := Nat.not_lt.mpr room
  obtain ⟨name, hname, hn⟩ := strcpyS_fits [] fits.1 room
  rw [resolveA_eq, if_neg short]
  unfold resolveA SQLStatement.bindString SQLStatement.bind SQLStatement.prepare
  refine consults_new.absorbed ?_
  rintro _ rfl
  rw [hname, Act.lift_ok_bind]
  refine (consults_update _ _).absorbed ?_
  rintro _ rfl
  refine (consults_update _ _).absorbed ?_
  rintro _ rfl
  refine (consults_executeQuery ⟨rfl, ?_⟩ hn fits.2 t.lookup).refined (F := fun _ => False)
    (fun _ he => he.elim) ?_
  · intro n hlt
    obtain rfl : n = 0 := Nat.lt_one_iff.mp hlt
    rfl
  intro st hst
  rw [hst]
  refine .bind (refined_resolveRows cfg describes.positions (fun row hr =>
    ⟨describes.name _ row hr, describes.value _ row hr⟩) _ _ rfl) ?_
  rintro l _ rfl
  refine .ite Iff.rfl ?_ ?_
  · intro truncated
    exact .bind refined_commit fun _ _ _ => .pure rfl
  · intro whole
    refine .get_bind (fun _ _ => rfl) fun d => .ite Iff.rfl ?_ ?_
    · intro miss
      refine .bind refined_commit fun _ _ _ =>
        .bind (undriven_recursiveResolve cfg packetLen).refined ?_
      rintro n _ rfl
      exact .pure rfl
    · intro hit
      exact .bind refined_commit fun _ _ _ => .pure rfl

theorem refined_resolveLoop (cfg : Config) (describes : v.Describes t.lookup)
    (responseData packetLen : Nat) {queries : List DNSQuery} (fits : ∀ q ∈ queries, QueryFits q)
    (info : ResponseInfo) :
    RefinedBy Eq (resolveLoop cfg t v responseData packetLen queries info)
      (OdbcDns.resolveLoop cfg t.locals t.lookup responseData packetLen queries info) := by
  induction queries generalizing info with
  | nil => exact .pure rfl
  | cons query queries ih =>
    rw [resolveLoop_cons]
    refine .ite Iff.rfl ?_ ?_
    · intro address
      refine .bind (refined_resolveA cfg describes (fits query List.mem_cons_self) _ _ _) ?_
      rintro p _ rfl
      exact ih (fun q hq => fits q (List.mem_cons_of_mem _ hq)) _
    · intro other
      refine .get_bind (fun _ _ => rfl) fun d => .ite Iff.rfl ?_ ?_
      · intro desired
        refine .bind (undriven_recursiveResolve cfg packetLen).refined ?_
        rintro n _ rfl
        exact .pure rfl
      · intro undesired
        exact .pure rfl

theorem resolve_refined (cfg : Config) (describes : v.Describes t.lookup) {d : OdbcSession}
    (zero : Terminated d) (fits : ∀ q ∈ d.session.queries, QueryFits q)
    (responseData packetLen : Nat) :
    ∃ used, (∀ o ∈ used, Possible d o) ∧
      OdbcDns.resolve cfg t.locals t.lookup responseData packetLen (view d used) =
        ((resolve cfg t v responseData packetLen d).1,
          view (resolve cfg t v responseData packetLen d).2 []) := by
  obtain ⟨_, _, used, r, hused, same, hrun⟩ :=
    refined_resolveLoop cfg describes responseData packetLen fits (.new t.locals.length) d zero
  have final := hrun []
  rw [List.append_nil, ← same.eq] at final
  exact ⟨used, hused, final⟩

end Resolve

section Turn

variable {cfg : Config} {t : Turn} {v : Driver}

/-- The questions of a request are among those that were there and those it has read. -/
theorem queries_extractLoop (cfg : Config) (stack : List Byte) (n ptr length : Nat) (s : Session) :
    ∀ q ∈ (extractLoop cfg stack n ptr length s).2.queries, q ∈ s.queries ∨ QueryFits q := by
  induction n generalizing ptr length s with
  | zero => exact fun q hq => .inl hq
  | succ n ih =>
    rw [extractLoop_succ, Act.get_bind]
    cases hp : DNSQuery.parse (s.packet.bytes.drop ptr) stack with
    | error e => exact fun q hq => .inl hq
    | ok query =>
      rw [Act.lift_ok_bind]
      cases logGuarded cfg query.qtype query.qclass with
      | error e => exact fun q hq => .inl hq
      | ok _ =>
        rw [Act.lift_ok_bind]
        intro q hq
        rcases ih _ _ _ q hq with hq | fits
        · rcases List.mem_append.mp hq with hq | hq
          · exact .inl hq
          · rw [List.mem_singleton.mp hq]
            exact .inr (parse_fits hp)
        · exact .inr fits

theorem queries_extract {w : Worker} {g : Worker.Stage} (idle : w.queries = [])
    (h : w.extract cfg t = .ok g) : ∀ q ∈ g.session.queries, QueryFits q := by
  let s := w.session (.ofDatagram t.datagram t.buffer) t.exchanges t.driver
  have read : ∀ q ∈ (extractQueries cfg t.locals.stack s).2.queries, QueryFits q := by
    intro q hq
    rcases queries_extractLoop cfg t.locals.stack _ _ _ s q hq with hq | fits
    · have none : s.queries = [] := idle
      rw [none] at hq
      cases hq
    · exact fits
  unfold Worker.extract at h
  rcases he : extractQueries cfg t.locals.stack s with ⟨r, u⟩
  rw [he] at read
  simp only [s] at he
  rw [he] at h
  cases r with
  | ok n =>
    cases h
    exact read
  | error e =>
    cases e <;> cases h <;> exact read

/-- The outcomes of the driver's calls are carried along while the questions are read. -/
theorem extract_driver (cfg : Config) (t : Turn) (w : Worker)
    (driver cacheDriver : List (Option String)) :
    w.extract cfg { t with driver, cacheDriver } = (w.extract cfg t).map fun g =>
      { g with session := { g.session with driver } } := by
  have same := undriven_extractQueries cfg t.locals.stack
    (w.session (.ofDatagram t.datagram t.buffer) t.exchanges t.driver) driver
  unfold Worker.extract
  simp only [Worker.session] at same ⊢
  rw [same]
  rcases extractQueries cfg t.locals.stack _ with ⟨r, s⟩
  cases r with
  | ok n => rfl
  | error e => cases e <;> rfl

theorem respond_refined (cfg : Config) (describes : v.Describes t.lookup)
    (zero : (0 : Byte) ∈ v.msg) (info : ResponseInfo)
    {g : Worker.Stage} (fits : ∀ q ∈ g.session.queries, QueryFits q) :
    ∃ used, (∀ message, some message ∈ used → ∃ a ∈ v.answers, a.Reports v.msg message) ∧
      ∀ driver cacheDriver, Worker.respond cfg { t with driver, cacheDriver } info
          { g with session := { g.session with driver := used } } =
        (Worker.respondBy (resolveCall cfg t v) cfg info g).map fun p =>
          ({ p.1 with session := { p.1.session with driver := [] } }, p.2) := by
  obtain ⟨used, hused, hrun⟩ := resolve_refined cfg describes
    (d := ⟨g.session, v.answers, [], v.msg⟩) zero fits (sizeAdd headerLength g.totalBytes)
    (sizeAdd headerLength g.totalBytes)
  refine ⟨used, fun message hm => hused _ hm message rfl, fun driver cacheDriver => ?_⟩
  rw [Worker.respond_eq]
  unfold Worker.respondBy resolveCall onSession
  simp only [view] at hrun
  simp only [hrun]
  rcases resolve cfg t v (sizeAdd headerLength g.totalBytes) (sizeAdd headerLength g.totalBytes) _
    with ⟨r, d⟩
  cases r with
  | ok info => rfl
  | error e =>
    cases e with
    | exception what => rfl
    | fault f => rfl
    | code n =>
      simp only [Worker.failed]
      split <;> rfl

theorem serve_refined (cfg : Config) (describes : v.Describes t.lookup)
    (zero : (0 : Byte) ∈ v.msg) {w : Worker} (idle : w.queries = []) :
    ∃ driver, (∀ message, some message ∈ driver → ∃ a ∈ v.answers, a.Reports v.msg message) ∧
      ∀ cacheDriver, w.serve cfg { t with driver, cacheDriver } =
        w.serveBy (resolveCall cfg t v) cfg t := by
  simp only [Worker.serve_eq]
  unfold Worker.serveBy
  cases he : w.extract cfg t with
  | error f =>
    refine ⟨[], by simp, fun cacheDriver => ?_⟩
    rw [extract_driver, he]
    rfl
  | ok g =>
    obtain ⟨used, hused, hrun⟩ := respond_refined cfg describes zero w.responseInfo
      (queries_extract idle he)
    refine ⟨used, hused, fun cacheDriver => ?_⟩
    rw [extract_driver, he]
    simp only [Except.map, bind, Except.bind, hrun]
    cases Worker.respondBy (resolveCall cfg t v) cfg w.responseInfo g <;> rfl

theorem cache_refined (cfg : Config) (t : Turn) (zero : (0 : Byte) ∈ v.msg) (w : Worker) :
    ∃ cacheDriver, (∀ message, some message ∈ cacheDriver →
        ∃ a ∈ v.cacheAnswers, a.Reports v.msg message) ∧
      ∀ driver, w.caching cfg { t with driver, cacheDriver } =
        w.cachingBy (cacheCall cfg t v) t := by
  unfold Worker.caching Worker.cachingBy
  dsimp only
  split
  · cases hp : w.packet with
    | none => exact ⟨[], by simp, fun _ => rfl⟩
    | some packet =>
      let w' := { w with connection := { w.connection with
        record := t.interference w.connection.record } }
      let d : OdbcSession := ⟨w'.session packet [] t.cacheDriver, v.cacheAnswers, [], v.msg⟩
      obtain ⟨_, _, used, r, hused, same, hrun⟩ := refined_cacheResponse cfg t v
        (sizeAdd headerLength w.queryBytes) (ancount packet.bytes) d zero
      have final := hrun []
      rw [List.append_nil, ← same.eq] at final
      refine ⟨used, fun message hm => hused _ hm message rfl, fun driver => ?_⟩
      simp only [view, Worker.session, d, w'] at final
      simp only [Worker.session, final, cacheCall, onSession]
      rcases cacheResponse cfg t v (sizeAdd headerLength w.queryBytes) (ancount packet.bytes) _
        with ⟨r, u⟩
      cases r with
      | ok _ => rfl
      | error e => cases e <;> rfl
  · exact ⟨[], by simp, fun _ => rfl⟩

/-- The turn is the same one, with outcomes that the driver has reported. -/
structure Outcomes (t : Turn) (v : Driver) (t' : Turn) : Prop where
  turn : t' = { t with driver := t'.driver, cacheDriver := t'.cacheDriver }
  driver : ∀ message, some message ∈ t'.driver → ∃ a ∈ v.answers, a.Reports v.msg message
  cacheDriver : ∀ message, some message ∈ t'.cacheDriver →
    ∃ a ∈ v.cacheAnswers, a.Reports v.msg message

theorem turn_refined (cfg : Config) (describes : v.Describes t.lookup)
    (zero : (0 : Byte) ∈ v.msg) (w : Worker) :
    ∃ t', Outcomes t v t' ∧ turn cfg (t, v) w = w.turn cfg t' := by
  obtain ⟨cacheDriver, hc, hcache⟩ := cache_refined cfg t zero w
  simp only [Worker.turn_eq, Worker.cache]
  unfold turn Worker.turnBy
  cases hw : w.cachingBy (cacheCall cfg t v) t with
  | error f =>
    refine ⟨{ t with driver := [], cacheDriver }, ⟨rfl, by simp, hc⟩, ?_⟩
    rw [hcache, hw]
    rfl
  | ok r =>
    obtain ⟨driver, hd, hserve⟩ := serve_refined cfg describes zero (w := r.1.clean) rfl
    refine ⟨{ t with driver, cacheDriver }, ⟨rfl, hd, hc⟩, ?_⟩
    rw [hcache, hw]
    exact (hserve cacheDriver).symm

end Turn

/-- Every run of a worker over the driver is a run of `Worker.run`, with the same replies:
each turn has the outcomes that the driver's answers amount to, and only failures that it
has reported. The driver has to describe the five columns of the query, each as wide as what
is stored in it, and the buffer for its messages has to end somewhere: the constructor of a
statement and the commit ask the wrong handle for the message, and throw what the buffer
holds. -/
theorem odbc_run_refined (cfg : Config) {turns : List (Turn × Driver)}
    (describes : ∀ p ∈ turns, p.2.Describes p.1.lookup)
    (zero : ∀ p ∈ turns, (0 : Byte) ∈ p.2.msg) (w : Worker) :
    ∃ ts, List.Forall₂ (fun p t => Outcomes p.1 p.2 t) turns ts ∧
      run cfg turns w = w.run cfg ts := by
  induction turns generalizing w with
  | nil => exact ⟨[], .nil, rfl⟩
  | cons p turns ih =>
    obtain ⟨t, v⟩ := p
    obtain ⟨t', outcomes, hturn⟩ := turn_refined cfg (describes _ List.mem_cons_self)
      (zero _ List.mem_cons_self) w
    replace ih := ih (fun q hq => describes q (List.mem_cons_of_mem _ hq))
      (fun q hq => zero q (List.mem_cons_of_mem _ hq))
    unfold run Worker.runBy
    cases hw : turn cfg (t, v) w with
    | error f =>
      -- the later turns do not take place, whatever their outcomes would be
      obtain ⟨ts, hts, _⟩ := ih w
      refine ⟨t' :: ts, .cons outcomes hts, ?_⟩
      rw [Worker.run_cons_eq, ← hturn, hw]
      rfl
    | ok r =>
      obtain ⟨ts, hts, hrun⟩ := ih r.1
      refine ⟨t' :: ts, .cons outcomes hts, ?_⟩
      rw [Worker.run_cons_eq, ← hturn, hw]
      unfold run at hrun
      simp only [bind, Except.bind, hrun]

/-- The third call fails, with two diagnostic records. -/
def failing : Driver where
  described := [⟨"TTL", 10⟩, ⟨"NAME", 255⟩, ⟨"VALUE", 255⟩, ⟨"TYPE", 5⟩, ⟨"CLASS", 5⟩]
  answers := [.done false, .done true, .error [48] [[49]] []]
  cacheAnswers := []
  msg := [0]
  rowBuffers := ⟨0, [], [], 0, 0⟩
  cacheBuffers := ⟨[], [], 0, 0, 0⟩

def turnFailing : Turn := .quiet (request 0 7 1 [questionA]) requestA_short
  fun _ => [⟨60, [97], [49, 46, 50, 46, 51, 46, 52], 1, 1⟩]

theorem odbc_run_refined_failing : ∃ ts,
    List.Forall₂ (fun p t => Outcomes p.1 p.2 t) [(turnFailing, failing)] ts ∧
      run ⟨0, false⟩ [(turnFailing, failing)] .idle = Worker.idle.run ⟨0, false⟩ ts := by
  apply odbc_run_refined
  · intro p hp
    rw [List.mem_singleton.mp hp]
    refine ⟨rfl, ?_, ?_⟩
    all_goals
      intro asked row hr
      rw [List.mem_singleton.mp hr]
      decide
  · intro p hp
    rw [List.mem_singleton.mp hp]
    decide

end OdbcDns.OdbcCalls
