import OdbcDns.Proofs.CachedRows

/-! Hosts that note events next to the session. Without its notes, a function on such a host
is the function on the session. -/

namespace OdbcDns

variable {ω : Type}

/-- A host that notes events in `P`, as long as the lines that it logs are in `L` and the
records that it decodes are in `D`. -/
structure Host.Noting (P : ω → Prop) (L : UInt16 → UInt16 → Prop) (D : Nat → Nat → Prop)
    (host : Host (Session × List ω)) : Prop where
  silent : ∀ {α : Type} (x : Call α), host.call x = Act.silent x
  commits : host.commit = Act.silent OdbcDns.commit
  log : ∀ guard type rclass, (guard = true → L type rclass) →
    Act.Mirrors P (host.log guard type rclass)
      (Act.lift (if guard then describe type rclass else .ok ()))
  decoding : ∀ number buffer, D number buffer →
    Act.Mirrors P (host.decoding number buffer) (pure ())

theorem RowLoop.advance_mirrors {P : ω → Prop} (l : RowLoop) (readBytes : Nat)
    {f : RowLoop → Act (Session × List ω) Stop RowLoop} {g : RowLoop → Call RowLoop}
    (h : ∀ l, Act.Mirrors P (f l) (g l)) :
    Act.Mirrors P (l.advance readBytes f) (l.advance readBytes g) :=
  .ite (fun _ => .pure _) fun _ => h _

namespace Host.Noting

variable {P : ω → Prop} {L : UInt16 → UInt16 → Prop} {D : Nat → Nat → Prop}
  {host : Host (Session × List ω)} (h : host.Noting P L D) (cfg : Config)
include h

theorem call {α : Type} (x : Call α) : Act.Mirrors P (host.call x) x := by
  rw [h.silent]
  exact .silent x

theorem commit : Act.Mirrors P host.commit OdbcDns.commit := by
  rw [h.commits]
  exact .silent OdbcDns.commit

section Guarded

variable (valid : ∀ type rclass : UInt16, type.toNat < 256 → rclass.toNat < 256 → L type rclass)
include valid

/-- The guard lets only indices through that are in range. -/
theorem logGuarded (type rclass : UInt16) : Act.Mirrors P (host.logGuarded cfg type rclass)
    (Act.lift (OdbcDns.logGuarded cfg type rclass)) := by
  apply h.log
  intro guarded
  simp only [validateDescrArrays, Bool.and_eq_true, decide_eq_true_eq] at guarded
  exact valid type rclass guarded.2.1.2 guarded.2.2

theorem extractLoop (stack : List Byte) (n ptr length : Nat) :
    Act.Mirrors P (host.extractLoop cfg stack n ptr length)
      (OdbcDns.extractLoop cfg stack n ptr length) := by
  induction n generalizing ptr length with
  | zero => exact .pure length
  | succ n ih =>
    refine .bind (h.call _) fun s => .bind (.lift _) fun query => ?_
    refine .bind (h.logGuarded cfg valid _ _) fun _ => .bind (h.call _) fun _ => ?_
    exact ih (ptr + query.length) (length + query.length)

theorem extractQueries (stack : List Byte) :
    Act.Mirrors P (host.extractQueries cfg stack) (OdbcDns.extractQueries cfg stack) :=
  .bind (h.call _) fun _ => h.extractLoop cfg valid stack _ _ _

theorem encodeRow (row : Row) (l : RowLoop) :
    Act.Mirrors P (host.encodeRow cfg row l) (OdbcDns.encodeRow cfg row l) := by
  refine .bind (.lift _) fun _ => .bind (.lift _) fun _ => .bind (.lift _) fun _ => ?_
  refine .bind (h.logGuarded cfg valid _ _) fun _ => .bind (h.call _) fun _ => ?_
  exact .bind (.lift _) fun _ => .bind (h.call _) fun _ => .pure _

theorem resolveRows (rows : List Row) (l : RowLoop) :
    Act.Mirrors P (host.resolveRows cfg rows l) (OdbcDns.resolveRows cfg rows l) := by
  induction rows generalizing l with
  | nil => exact .bind (h.call _) fun _ => .pure l
  | cons row rows ih =>
    refine .bind (h.call _) fun _ => .bind (h.encodeRow cfg valid row l) fun r => ?_
    exact r.1.advance_mirrors r.2 ih

theorem resolveA (locals : Locals) (lookup : List Byte → List Row) (query : DNSQuery)
    (responseData : Nat) (info : ResponseInfo) (packetLen : Nat) :
    Act.Mirrors P (host.resolveA cfg locals lookup query responseData info packetLen)
      (OdbcDns.resolveA cfg locals lookup query responseData info packetLen) := by
  refine .ite (fun _ => .stop _) fun _ => ?_
  refine .bind (h.call _) fun _ => .bind (h.resolveRows cfg valid _ _) fun l => ?_
  refine .ite (fun _ => .bind h.commit fun _ => .pure _) fun _ => ?_
  refine .bind (h.call _) fun s => .ite (fun _ => ?_) fun _ => ?_
  · exact .bind h.commit fun _ => .bind (h.call _) fun _ => .pure _
  · exact .bind h.commit fun _ => .pure _

end Guarded

theorem cacheRecord (e : Execution) {rr : DNSResourceRecord}
    (described : cfg.infoEnabled = true → rr.rdata ≠ none → L rr.getType rr.getClass) :
    Act.Mirrors P (host.cacheRecord cfg e rr) (OdbcDns.cacheRecord cfg e rr) := by
  unfold OdbcDns.cacheRecord Host.cacheRecord
  cases hr : rr.rdata with
  | none => exact .pure ()
  | some rdata =>
    refine .bind (h.call _) fun _ => .bind (h.call _) fun inserted => h.log _ _ _ fun guard => ?_
    refine described (Bool.and_eq_true_iff.mp guard).2 ?_
    rw [hr]
    exact Option.some_ne_none rdata

variable (executions : Nat → Execution) (heap : Nat → Nat → Byte)

section All

variable (lines : ∀ type rclass, L type rclass) (places : ∀ number buffer, D number buffer)
include lines places

theorem cacheLoop (n i ptr : Nat) : Act.Mirrors P (host.cacheLoop cfg executions heap n i ptr)
    (OdbcDns.cacheLoop cfg executions heap n i ptr) := by
  induction n generalizing i ptr with
  | zero => exact .pure ()
  | succ n ih =>
    refine .bind (h.call _) fun s => .bind (h.decoding i ptr (places i ptr)) fun _ => ?_
    refine .bind (.lift _) fun r => .bind (h.cacheRecord cfg _ fun _ _ => lines _ _) fun _ => ?_
    exact ih (i + 1) r.2

/-- Without its notes, the function is `cacheResponse`. -/
theorem cacheResponse (data numResponses : Nat) :
    Act.Mirrors P (host.cacheResponse cfg executions heap data numResponses)
      (OdbcDns.cacheResponse cfg executions heap data numResponses) :=
  .bind (h.call _) fun _ => .bind (h.cacheLoop cfg executions heap lines places _ _ _) fun _ =>
    .bind h.commit fun _ => h.commit

end All

section Packet

variable {s : Session} {n i ptr : Nat}

theorem cacheLoop_succ (log : List ω) :
    host.cacheLoop cfg executions heap (n + 1) i ptr (s, log) = (do
      host.decoding i ptr
      let r ← Act.lift (DNSResourceRecord.decode (heap i) s.packet.bytes ptr)
      host.cacheRecord cfg (executions i) r.1
      host.cacheLoop cfg executions heap n (i + 1) r.2 : Act (Session × List ω) Stop Unit)
        (s, log) := by
  have first : host.call Act.get (s, log) = (.ok s, s, log) := by
    rw [h.silent]
    rfl
  rw [Host.cacheLoop, Host.cacheLoopBy, Act.bind_of_ok first]
  rfl

/-- The record is decoded at a place in `D`, and its line is in `L`. -/
def Permitted (cfg : Config) (L : UInt16 → UInt16 → Prop) (D : Nat → Nat → Prop)
    (c : DecodeCall) : Prop :=
  D c.number c.buffer ∧ ∀ rr ∈ c.record, cfg.infoEnabled = true → rr.rdata ≠ none →
    L rr.getType rr.getClass

/-- Whatever the statements do, the loop makes no calls but those that the packet leads to. -/
theorem cacheLoop_notes {log : List ω} (made : ∀ w ∈ log, P w)
    (calls : ∀ c ∈ decodeCalls heap s.packet.bytes n i ptr, Permitted cfg L D c) :
    ∀ w ∈ (host.cacheLoop cfg executions heap n i ptr (s, log)).2.2, P w := by
  induction n generalizing i ptr s log with
  | zero => exact made
  | succ n ih =>
    have here : Permitted cfg L D ⟨i, ptr, DNSResourceRecord.decode (heap i) s.packet.bytes ptr⟩ :=
      calls _ List.mem_cons_self
    refine (h.call _).notes_bind made fun s' q first made => ?_
    obtain ⟨t, log⟩ := q
    cases first
    refine (h.decoding i ptr here.1).notes_bind made fun _ q first made => ?_
    obtain ⟨t, log⟩ := q
    cases first
    refine (Act.Mirrors.lift _).notes_bind made fun r q first made => ?_
    obtain ⟨rr, after⟩ := r
    obtain ⟨t, log⟩ := q
    obtain ⟨hd, rfl⟩ := Prod.mk.inj first
    rw [decodeCalls_of_ok hd] at calls
    rw [hd] at here
    refine (h.cacheRecord cfg _ (here.2 rr rfl)).notes_bind made fun _ q first made => ?_
    obtain ⟨u, log⟩ := q
    have adds := (tracks_adds fun _ => True).cacheRecord cfg (executions i)
      (fun _ (_ : rr.rdata = some _) => trivial)
    have same := adds s
    rw [first] at same
    refine ih made fun c hc => calls c (List.mem_cons_of_mem _ ?_)
    rwa [same.2] at hc

theorem cacheResponse_notes {data numResponses : Nat}
    (calls : ∀ c ∈ decodeCalls heap s.packet.bytes numResponses 0 data, Permitted cfg L D c) :
    ∀ w ∈ (host.cacheResponse cfg executions heap data numResponses (s, [])).2.2, P w := by
  refine (h.call _).notes_bind (List.forall_mem_nil _) fun _ q first made => ?_
  have left := driverCall_snd s
  rw [first] at left
  obtain ⟨t, log⟩ := q
  cases left
  have rest : Act.Mirrors P (host.commit >>= fun _ => host.commit)
      (OdbcDns.commit >>= fun _ => OdbcDns.commit) := .bind h.commit fun _ => h.commit
  exact Act.after_bind (P := fun q : Session × List ω => ∀ w ∈ q.2, P w)
    (h.cacheLoop_notes cfg executions heap made calls) fun _ q noted => rest.notes q noted

/-- All that the loop notes stays. -/
theorem prefix_cacheResponse (data numResponses : Nat) (quiet : s.driver = []) :
    (host.cacheLoop cfg executions heap numResponses 0 data (s, [])).2.2 <+:
      (host.cacheResponse cfg executions heap data numResponses (s, [])).2.2 := by
  have first : host.call driverCall (s, []) = (.ok (), s, []) := by
    rw [h.silent, Act.silent, driverCall_of_nil quiet]
  have rest : Act.Mirrors P (host.commit >>= fun _ => host.commit)
      (OdbcDns.commit >>= fun _ => OdbcDns.commit) := .bind h.commit fun _ => h.commit
  rw [Host.cacheResponse, Act.bind_of_ok first]
  exact Act.Always.bind_snd (fun p => List.prefix_refl p.2) _ (fun _ => rest.keeps) (s, [])

end Packet

end Host.Noting

end OdbcDns
