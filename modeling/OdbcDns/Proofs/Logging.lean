import OdbcDns.Proofs.Descriptions
import OdbcDns.Proofs.Turns
import OdbcDns.Lib.Refines

namespace OdbcDns

/-! What the log lines can change. -/

/-- The same configuration with the log lines turned off. -/
def Config.silent (cfg : Config) : Config := { cfg with infoEnabled := false }

theorem noServer_silent (cfg : Config) : cfg.silent.noServer = cfg.noServer := rfl

section Resolve

variable (cfg : Config)

theorem extractLoop_silent (stack : List Byte) (n ptr length : Nat) :
    extractLoop cfg stack n ptr length = extractLoop cfg.silent stack n ptr length := by
  induction n generalizing ptr length with
  | zero => rfl
  | succ n ih =>
    rw [extractLoop_succ, extractLoop_succ]
    simp only [logGuarded_ok, ih]

theorem extractQueries_silent (stack : List Byte) :
    extractQueries cfg stack = extractQueries cfg.silent stack := by
  rw [extractQueries_eq, extractQueries_eq]
  simp only [extractLoop_silent cfg]

theorem resolveRows_silent (rows : List Row) (l : RowLoop) :
    resolveRows cfg rows l = resolveRows cfg.silent rows l := by
  have row : ∀ row l, encodeRow cfg row l = encodeRow cfg.silent row l := by
    intro row l
    rw [encodeRow_eq, encodeRow_eq]
    simp only [logGuarded_ok]
  induction rows generalizing l with
  | nil => rfl
  | cons r rows ih =>
    rw [resolveRows_cons, resolveRows_cons]
    simp only [row, ih]

theorem recursiveResolve_silent (packetLen : Nat) :
    recursiveResolve cfg packetLen = recursiveResolve cfg.silent packetLen := by
  unfold recursiveResolve
  rw [noServer_silent]

theorem resolveA_silent (locals : Locals) (lookup : List Byte → List Row) (query : DNSQuery)
    (responseData : Nat) (info : ResponseInfo) (packetLen : Nat) :
    resolveA cfg locals lookup query responseData info packetLen =
      resolveA cfg.silent locals lookup query responseData info packetLen := by
  rw [resolveA_eq, resolveA_eq]
  simp only [resolveRows_silent cfg, recursiveResolve_silent cfg]

theorem resolveLoop_silent (locals : Locals) (lookup : List Byte → List Row)
    (responseData packetLen : Nat) (queries : List DNSQuery) (info : ResponseInfo) :
    resolveLoop cfg locals lookup responseData packetLen queries info =
      resolveLoop cfg.silent locals lookup responseData packetLen queries info := by
  induction queries generalizing info with
  | nil => rfl
  | cons query queries ih =>
    rw [resolveLoop_cons, resolveLoop_cons]
    simp only [resolveA_silent cfg, recursiveResolve_silent cfg, ih]

theorem resolve_silent (locals : Locals) (lookup : List Byte → List Row)
    (responseData packetLen : Nat) :
    resolve cfg locals lookup responseData packetLen =
      resolve cfg.silent locals lookup responseData packetLen := by
  unfold resolve
  simp only [resolveLoop_silent cfg]

end Resolve

section Cache

variable (cfg : Config)

/-- The log line of `cacheResponse` for a record reads behind the end of `CLASS_DESCR`. It is
made for a record with data when the insert has a count other than zero. -/
structure LineOutside (cfg : Config) (e : Execution) (rr : DNSResourceRecord) : Prop where
  info : cfg.infoEnabled = true
  data : rr.rdata ≠ none
  counted : e.insertCount ≠ 0
  outside : 256 ≤ rr.getClass.toNat

/-- A statement that succeeds returns its count. -/
theorem executeUpdate_bind {α : Type} (f : Connection → Connection) (count : Int)
    (g : Int → Call α) :
    (executeUpdate f count >>= g) = executeUpdate f count >>= fun _ => g count := by
  funext s
  rcases h : executeUpdate f count s with ⟨e | k, t⟩
  · rw [Act.bind_of_error h, Act.bind_of_error h]
  · rw [Act.bind_of_ok h, Act.bind_of_ok h, (executeUpdate_ok h).1]

/-- Only its log line can make a difference for a record. -/
theorem cacheRecord_log (e : Execution) {rr : DNSResourceRecord} {rdata : DNSRData}
    (hr : rr.rdata = some rdata) : cacheRecord cfg e rr =
      cacheRecord cfg.silent e rr >>= fun _ => Act.lift
        (if e.insertCount ≠ 0 && cfg.infoEnabled then describe rr.getType rr.getClass
          else .ok ()) := by
  rw [cacheRecord_eq cfg e hr, cacheRecord_eq cfg.silent e hr, Act.bind_assoc]
  refine congrArg (_ >>= ·) (funext fun _ => ?_)
  rw [executeUpdate_bind, Act.bind_assoc]
  simp only [Config.silent, Bool.and_false, Bool.false_eq_true, if_false]
  rfl

theorem cacheRecord_silent {e : Execution} {rr : DNSResourceRecord}
    (type : rr.rdata ≠ none → rr.getType.toNat < 256) (h : ¬ LineOutside cfg e rr) :
    cacheRecord cfg e rr = cacheRecord cfg.silent e rr := by
  cases hr : rr.rdata with
  | none => rw [cacheRecord_none cfg e hr, cacheRecord_none cfg.silent e hr]
  | some rdata =>
    have some : rr.rdata ≠ none := by
      rw [hr]
      exact Option.some_ne_none rdata
    have line : (if e.insertCount ≠ 0 && cfg.infoEnabled then describe rr.getType rr.getClass
        else .ok ()) = .ok () := by
      split
      · rename_i logged
        obtain ⟨counted, info⟩ := Bool.and_eq_true_iff.mp logged
        have class_lt : rr.getClass.toNat < 256 := by
          by_contra outside
          exact h ⟨info, some, of_decide_eq_true counted, Nat.le_of_not_lt outside⟩
        exact if_pos ⟨type some, class_lt⟩
      · rfl
    rw [cacheRecord_log cfg e hr, line]
    funext s
    rcases hc : cacheRecord cfg.silent e rr s with ⟨e | u, t⟩
    · rw [Act.bind_of_error hc]
    · rw [Act.bind_of_ok hc]
      rfl

theorem cacheRecord_outside {e : Execution} {rr : DNSResourceRecord} (h : LineOutside cfg e rr)
    {s t : Session} (stored : cacheRecord cfg.silent e rr s = (.ok (), t)) :
    cacheRecord cfg e rr s = (.error (.fault .outOfBounds), t) := by
  obtain ⟨rdata, hr⟩ := Option.ne_none_iff_exists'.mp h.data
  have logged : (decide (e.insertCount ≠ 0) && cfg.infoEnabled) = true := by
    rw [h.info, decide_eq_true h.counted]
    rfl
  have line : describe rr.getType rr.getClass = .error (.fault .outOfBounds) :=
    if_neg fun there => absurd there.2 (Nat.not_lt.mpr h.outside)
  rw [cacheRecord_log cfg e hr, Act.bind_of_ok stored, if_pos logged, line]
  rfl

variable (executions : Nat → Execution) (heap : Nat → Nat → Byte)

/-- The loop of `cacheResponse` comes to such a line: all records up to this one have been
stored, and `t` is left. -/
inductive ReachesLine (cfg : Config) (executions : Nat → Execution) (heap : Nat → Nat → Byte) :
    Nat → Nat → Nat → Session → Session → Prop
  | here {n i ptr after : Nat} {s t : Session} {rr : DNSResourceRecord}
      (decoded : DNSResourceRecord.decode (heap i) s.packet.bytes ptr = .ok (rr, after))
      (stored : cacheRecord cfg.silent (executions i) rr s = (.ok (), t))
      (line : LineOutside cfg (executions i) rr) :
      ReachesLine cfg executions heap (n + 1) i ptr s t
  | later {n i ptr after : Nat} {s t u : Session} {rr : DNSResourceRecord}
      (decoded : DNSResourceRecord.decode (heap i) s.packet.bytes ptr = .ok (rr, after))
      (stored : cacheRecord cfg.silent (executions i) rr s = (.ok (), t))
      (rest : ReachesLine cfg executions heap n (i + 1) after t u) :
      ReachesLine cfg executions heap (n + 1) i ptr s u

/-- The loop stops at the first such line and nowhere else. -/
theorem cacheLoop_log (n i ptr : Nat) (s : Session) :
    (∃ t, ReachesLine cfg executions heap n i ptr s t ∧
        cacheLoop cfg executions heap n i ptr s = (.error (.fault .outOfBounds), t)) ∨
      (∀ t, ¬ ReachesLine cfg executions heap n i ptr s t) ∧
        cacheLoop cfg executions heap n i ptr s =
          cacheLoop cfg.silent executions heap n i ptr s := by
  induction n generalizing i ptr s with
  | zero =>
    refine .inr ⟨fun t h => ?_, rfl⟩
    cases h
  | succ n ih =>
    rw [cacheLoop_succ, cacheLoop_succ]
    cases hd : DNSResourceRecord.decode (heap i) s.packet.bytes ptr with
    | error e =>
      refine .inr ⟨fun t h => ?_, rfl⟩
      cases h with
      | here decoded _ _ => cases hd.symm.trans decoded
      | later decoded _ _ => cases hd.symm.trans decoded
    | ok r =>
      obtain ⟨rr, after⟩ := r
      have type : rr.rdata ≠ none → rr.getType.toNat < 256 := fun data =>
        type_lt_of_decode hd (Option.ne_none_iff_exists'.mp data).choose_spec
      dsimp only
      rcases hc : cacheRecord cfg.silent (executions i) rr s with ⟨e | u, t⟩
      · -- the statements fail before anything is logged
        have failed : cacheRecord cfg (executions i) rr s = (.error e, t) := by
          cases hr : rr.rdata with
          | none =>
            rw [cacheRecord_none cfg.silent _ hr] at hc
            cases hc
          | some rdata => rw [cacheRecord_log cfg _ hr, Act.bind_of_error hc]
        refine .inr ⟨fun t' h => ?_, ?_⟩
        · cases h with
          | here decoded stored _ =>
            cases hd.symm.trans decoded
            cases hc.symm.trans stored
          | later decoded stored _ =>
            cases hd.symm.trans decoded
            cases hc.symm.trans stored
        · rw [Act.bind_of_error hc, Act.bind_of_error failed]
      · by_cases line : LineOutside cfg (executions i) rr
        · refine .inl ⟨t, .here hd hc line, ?_⟩
          rw [Act.bind_of_error (cacheRecord_outside cfg line hc)]
        · have same := congrFun (cacheRecord_silent cfg type line) s
          rw [Act.bind_of_ok hc, Act.bind_of_ok (same.trans hc)]
          rcases ih (i + 1) after t with ⟨v, reaches, stops⟩ | ⟨none, rest⟩
          · exact .inl ⟨v, .later hd hc reaches, stops⟩
          · refine .inr ⟨fun v h => ?_, rest⟩
            cases h with
            | here decoded _ line' =>
              cases hd.symm.trans decoded
              exact line line'
            | later decoded stored reaches =>
              cases hd.symm.trans decoded
              cases hc.symm.trans stored
              exact none v reaches

theorem cacheResponse_log (data n : Nat) (s : Session) :
    (∃ t u, driverCall s = (.ok (), t) ∧ ReachesLine cfg executions heap n 0 data t u ∧
        cacheResponse cfg executions heap data n s = (.error (.fault .outOfBounds), u)) ∨
      (∀ t u, driverCall s = (.ok (), t) → ¬ ReachesLine cfg executions heap n 0 data t u) ∧
        cacheResponse cfg executions heap data n s =
          cacheResponse cfg.silent executions heap data n s := by
  rw [cacheResponse_eq, cacheResponse_eq]
  rcases first : driverCall s with ⟨e | u, t⟩
  · refine .inr ⟨fun _ _ ok => ?_, ?_⟩
    · cases ok
    · rw [Act.bind_of_error first, Act.bind_of_error first]
  · rw [Act.bind_of_ok first, Act.bind_of_ok first]
    rcases cacheLoop_log cfg executions heap n 0 data t with ⟨u, reaches, stops⟩ | ⟨none, same⟩
    · exact .inl ⟨t, u, rfl, reaches, Act.bind_of_error stops⟩
    · refine .inr ⟨fun t' u ok => ?_, ?_⟩
      · cases ok
        exact none u
      · rw [Act.bind_apply, Act.bind_apply, same]

end Cache

namespace Worker

variable (cfg : Config) (t : Turn) (w : Worker)

/-- Before it serves the turn, the worker caches a packet, and its log comes to a line that
reads behind the end of `CLASS_DESCR`. -/
def Overruns (cfg : Config) (t : Turn) (w : Worker) : Prop :=
  w.due = true ∧ ∃ p, w.packet = some p ∧ ∃ s u,
    driverCall (w.cachingSession t p) = (.ok (), s) ∧
    ReachesLine cfg t.executions t.heap (ancount p.bytes) 0 (sizeAdd headerLength w.queryBytes) s u

theorem cache_log : w.Overruns cfg t ∧ w.cache cfg t = .error .outOfBounds ∨
    ¬ w.Overruns cfg t ∧ w.cache cfg t = w.cache cfg.silent t := by
  cases due : w.due with
  | false =>
    refine .inr ⟨fun h => Bool.false_ne_true (due.symm.trans h.1), ?_⟩
    rw [cache_idle cfg t due, cache_idle cfg.silent t due]
  | true =>
    cases packet : w.packet with
    | none =>
      refine .inr ⟨?_, ?_⟩
      · rintro ⟨_, p, hp, _⟩
        cases packet.symm.trans hp
      · rw [cache_eq, cache_eq]
        simp only [packet]
    | some p =>
      rw [cache_of_due cfg due packet, cache_of_due cfg.silent due packet]
      rcases cacheResponse_log cfg t.executions t.heap (sizeAdd headerLength w.queryBytes)
        (ancount p.bytes) (w.cachingSession t p) with ⟨s, u, first, reaches, stops⟩ | ⟨none, same⟩
      · refine .inl ⟨⟨due, p, packet, s, u, first, reaches⟩, ?_⟩
        rw [stops]
      · refine .inr ⟨?_, ?_⟩
        · rintro ⟨_, p', hp, s, u, first, reaches⟩
          cases packet.symm.trans hp
          exact none s u first reaches
        · rw [same]

theorem answered_silent (g : Stage) (s : Session) (info : ResponseInfo) :
    answered cfg g s info = answered cfg.silent g s info := by
  unfold answered setResponseFlags
  rw [noServer_silent]

theorem extract_silent : w.extract cfg t = w.extract cfg.silent t := by
  unfold extract
  rw [extractQueries_silent cfg]

theorem serve_silent : w.serve cfg t = w.serve cfg.silent t := by
  have second : ∀ info g, respond cfg t info g = respond cfg.silent t info g := by
    intro info g
    rw [respond_eq, respond_eq, resolve_silent cfg]
    simp only [answered_silent cfg]
  rw [serve_eq, serve_eq]
  simp only [extract_silent cfg, second]

/-- Somewhere in the run, which does not stop before. -/
def OverrunsIn (cfg : Config) (ts : List Turn) (w : Worker) : Prop :=
  ∃ before t after w' replies, ts = before ++ t :: after ∧
    w.run cfg.silent before = .ok (w', replies) ∧ w'.Overruns cfg t

theorem overrunsIn_cons {cfg : Config} {t : Turn} {ts : List Turn} {w : Worker}
    (here : ¬ w.Overruns cfg t) : w.OverrunsIn cfg (t :: ts) ↔
      ∃ r, w.turn cfg.silent t = .ok r ∧ r.1.OverrunsIn cfg ts := by
  constructor
  · rintro ⟨before, t', after, w', replies, split, runs, overruns⟩
    cases before with
    | nil =>
      cases split
      cases runs
      exact absurd overruns here
    | cons _ before =>
      cases split
      rw [run_cons_eq] at runs
      cases hturn : w.turn cfg.silent t with
      | error f =>
        rw [hturn] at runs
        cases runs
      | ok r =>
        cases hrest : r.1.run cfg.silent before with
        | error f =>
          simp only [hturn, hrest, bind, Except.bind] at runs
          cases runs
        | ok p =>
          simp only [hturn, hrest, bind, Except.bind] at runs
          cases runs
          exact ⟨r, rfl, before, t', after, p.1, p.2, rfl, hrest, overruns⟩
  · rintro ⟨r, hturn, before, t', after, w', replies, rfl, runs, overruns⟩
    refine ⟨t :: before, t', after, w', r.2 :: replies, rfl, ?_, overruns⟩
    simp only [run_cons_eq, hturn, runs, bind, Except.bind]

end Worker

/-- The log changes nothing in the reading of a request and in serving it. Over a run of a
worker it changes nothing at all, unless the worker caches a record with data of a class
without description: it stops there. -/
theorem logging_transparent (cfg : Config) :
    (∀ t (w : Worker), w.extract cfg t = w.extract cfg.silent t ∧
        w.serve cfg t = w.serve cfg.silent t) ∧
      ∀ ts (w : Worker), (w.OverrunsIn cfg ts → w.run cfg ts = .error .outOfBounds) ∧
        (¬ w.OverrunsIn cfg ts → w.run cfg ts = w.run cfg.silent ts) := by
  refine ⟨fun t w => ⟨w.extract_silent cfg t, w.serve_silent cfg t⟩, fun ts => ?_⟩
  induction ts with
  | nil =>
    refine fun w => ⟨?_, fun _ => by rw [Worker.run_nil, Worker.run_nil]⟩
    rintro ⟨before, _, _, _, _, split, _⟩
    cases before <;> cases split
  | cons t ts ih =>
    intro w
    rw [Worker.run_cons_eq, Worker.run_cons_eq]
    rcases Worker.cache_log cfg t w with ⟨overruns, stops⟩ | ⟨none, same⟩
    · have stopped : w.turn cfg t = .error .outOfBounds := by
        rw [Worker.turn_eq, stops]
        rfl
      refine ⟨fun _ => by rw [stopped]; rfl, fun h => absurd ?_ h⟩
      exact ⟨[], t, ts, w, [], rfl, rfl, overruns⟩
    · have turns : w.turn cfg t = w.turn cfg.silent t := by
        rw [Worker.turn_eq, Worker.turn_eq, same]
        simp only [Worker.serve_silent cfg]
      rw [Worker.overrunsIn_cons none, turns]
      cases hturn : w.turn cfg.silent t with
      | error f => simp [bind, Except.bind]
      | ok r =>
        obtain ⟨overruns, transparent⟩ := ih r.1
        simp only [bind, Except.bind, Except.ok.injEq, exists_eq_left']
        refine ⟨fun h => ?_, fun h => ?_⟩
        · rw [overruns h]
        · rw [transparent h]

end OdbcDns
