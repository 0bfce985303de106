import OdbcDns.Proofs.AnswerSection
import OdbcDns.Proofs.Relay

namespace OdbcDns
open Slice Rfc1035

/-- A stop that is neither a copy into too small a destination nor an access outside an
object. -/
def Harmless (e : Stop) : Prop := e ≠ .fault .invalidParameter ∧ e ≠ .fault .outOfBounds

/-- The call returns with `Q` exactly under the condition `P`; otherwise it does harm. -/
def Does {α : Type} (x : Except Stop α) (P : Prop) (Q : α → Prop) : Prop :=
  P ∧ (∃ a, x = .ok a ∧ Q a) ∨ ¬ P ∧ ∃ e, x = .error e ∧ ¬ Harmless e

namespace Does

variable {α β : Type} {x : Except Stop α} {P P' : Prop} {Q : α → Prop}

theorem congr (h : Does x P Q) (hp : P ↔ P') : Does x P' Q := by
  unfold Does
  rw [← hp]
  exact h

theorem bind {f : α → Except Stop β} {R : β → Prop} (hx : Does x P Q)
    (hf : ∀ a, Q a → Does (f a) P' R) : Does (x >>= f) (P ∧ P') R := by
  rcases hx with ⟨hp, a, rfl, ha⟩ | ⟨hp, e, rfl, he⟩
  · exact (hf a ha).congr ⟨fun h => ⟨hp, h⟩, And.right⟩
  · exact .inr ⟨fun h => hp h.1, e, rfl, he⟩

theorem bind_eq {f : α → Except Stop β} {R : β → Prop} {a : α} (hx : Does x P (· = a))
    (hf : Does (f a) P' R) : Does (x >>= f) (P ∧ P') R :=
  hx.bind fun _ h => h ▸ hf

theorem ite [Decidable P] {a : α} {e : Stop} (ha : Q a) (he : ¬ Harmless e) :
    Does (if P then .ok a else .error e) P Q := by
  by_cases hp : P
  · exact .inl ⟨hp, a, if_pos hp, ha⟩
  · exact .inr ⟨hp, e, if_neg hp, he⟩

/-- A check in front of the rest. -/
theorem check [Decidable P] {e : Stop} (he : ¬ Harmless e) (hx : Does x P' Q) :
    Does (if P then .error e else x) (¬ P ∧ P') Q := by
  by_cases hp : P
  · rw [if_pos hp]
    exact .inr ⟨fun h => h.1 hp, e, rfl, he⟩
  · rw [if_neg hp]
    exact hx.congr ⟨fun h => ⟨hp, h⟩, And.right⟩

end Does

theorem not_harmless_invalidParameter : ¬ Harmless (.fault .invalidParameter) :=
  fun h => h.1 rfl

theorem not_harmless_outOfBounds : ¬ Harmless (.fault .outOfBounds) := fun h => h.2 rfl

theorem store_does (p : Packet) (off : Nat) (bs : List Byte) :
    Does (p.store off bs) (off + bs.length ≤ 1024) (fun _ => True) := by
  by_cases h : off + bs.length ≤ 1024
  · obtain ⟨q, hq, _⟩ := p.store_of_le off bs h
    exact .inl ⟨h, q, hq, trivial⟩
  · refine .inr ⟨h, _, dif_neg ?_, not_harmless_outOfBounds⟩
    rw [p.size]
    exact h

/-- Whether `k` bytes are accepted for a destination of `n - m` bytes. A negative
difference wraps around to a huge size. -/
def Room (n m k : Nat) : Prop := n < m ∨ m + k ≤ n

instance instDecidableRoom (n m k : Nat) : Decidable (Room n m k) :=
  inferInstanceAs (Decidable (_ ∨ _))

theorem toSize_lt_iff {n m k : Nat} (hn : n ≤ 1024) (hm : m ≤ 1024) (hk : k ≤ 1024) {z : Int}
    (hz : z = (n : Int) - m) : toSize z < k ↔ ¬ Room n m k := by
  unfold toSize Room
  omega

/-- The owner name can be written with `bufLen` bytes left: the labels are only compared
one by one with all that is left. -/
def OwnerFits (t : PointerLocations) (bufLen : Nat) (n : DomainName) : Prop :=
  match t n.text with
  | some _ => 2 ≤ bufLen
  | none => ∀ l ∈ n.labels, l.length ≤ bufLen

instance instDecidableOwnerFits (t : PointerLocations) (bufLen : Nat) (n : DomainName) :
    Decidable (OwnerFits t bufLen n) := by
  unfold OwnerFits
  split
  · exact inferInstance
  · exact inferInstance

/-- So can the data behind `used` of them. -/
def TargetFits (bufLen used : Nat) : Target → Prop
  | .address _ => Room bufLen used 4
  | .cname n => ∀ l ∈ n.labels, Room bufLen used l.length

instance instDecidableTargetFits (bufLen used : Nat) (x : Target) :
    Decidable (TargetFits bufLen used x) :=
  match x with
  | .address _ => inferInstanceAs (Decidable (Room _ _ _))
  | .cname n => inferInstanceAs (Decidable (∀ l ∈ n.labels, Room bufLen used l.length))

/-- The records that `encode` writes at `off` when it is given `bufLen` bytes, whether they
fit or not. -/
structure Encodable (t : PointerLocations) (bufLen off : Nat) (a : Answer) : Prop where
  owner : OwnerFits t bufLen a.owner
  target : TargetFits bufLen ((ownerBytes t a.owner).length + 10) a.target
  info : Room bufLen ((ownerBytes t a.owner).length + a.target.bytes.length) 10
  inside : off + (recordBytes t a).length ≤ 1024

theorem encodable_iff (t : PointerLocations) (bufLen off : Nat) (a : Answer) :
    Encodable t bufLen off a ↔ OwnerFits t bufLen a.owner ∧
      TargetFits bufLen ((ownerBytes t a.owner).length + 10) a.target ∧
      Room bufLen ((ownerBytes t a.owner).length + a.target.bytes.length) 10 ∧
      off + (recordBytes t a).length ≤ 1024 :=
  ⟨fun h => ⟨h.owner, h.target, h.info, h.inside⟩, fun ⟨h1, h2, h3, h4⟩ => ⟨h1, h2, h3, h4⟩⟩

instance instDecidableEncodable (t : PointerLocations) (bufLen off : Nat) (a : Answer) :
    Decidable (Encodable t bufLen off a) := decidable_of_iff _ (encodable_iff t bufLen off a).symm

theorem encodeOwner_does (t : PointerLocations) (n : DomainName) (bufLen : Nat) :
    Does (DNSResourceRecord.encodeOwner n.text bufLen t) (OwnerFits t bufLen n)
      (· = ownerBytes t n) := by
  unfold DNSResourceRecord.encodeOwner ownerBytes OwnerFits
  cases t n.text with
  | none =>
    simp only [n.encodeName_text]
    exact .ite rfl not_harmless_invalidParameter
  | some loc =>
    simp only [memory16_htons, ← Nat.not_lt, ← ite_not (bufLen < 2)]
    exact .ite rfl not_harmless_invalidParameter

theorem encodeTarget_does (x : Target) {n m : Nat} (hn : n ≤ 1024) (hm : m ≤ 1024) {z : Int}
    (hz : z = (n : Int) - m) :
    Does (x.object.encode z) (TargetFits n m x) (· = x.bytes) := by
  cases x with
  | address q =>
    have h4 := toSize_lt_iff hn hm (show 4 ≤ 1024 by decide) hz
    simp only [Target.object, DNSRData.encode, DNSRDataA.encode, h4, ite_not]
    exact .ite rfl not_harmless_invalidParameter
  | cname d =>
    simp only [Target.object, DNSRData.encode, DNSRDataCNAME.encode, d.encodeName_text]
    refine Does.congr (P := ∀ l ∈ d.labels, l.length ≤ toSize z)
      (.ite rfl not_harmless_invalidParameter) (forall₂_congr fun l hl => ?_)
    have hle := (d.ok l hl).2
    have := toSize_lt_iff hn hm (show l.length ≤ 1024 by omega) hz
    rw [← Nat.not_lt, this, not_not]

theorem length_ownerBytes_le (t : PointerLocations) (n : DomainName) :
    (ownerBytes t n).length ≤ 256 := by
  unfold ownerBytes
  cases t n.text with
  | some loc => simp
  | none =>
    have := n.short
    have h := n.length_wire
    unfold DomainName.text at h
    simp only
    omega

/-- `encode` writes the encodable records and does harm with the others. -/
theorem encode_does (a : Answer) (p : Packet) (t : PointerLocations) (off : Nat) {bufLen : Nat}
    (hb : bufLen ≤ 1024) :
    Does (a.object.encode p off bufLen t) (Encodable t bufLen off a)
      (fun r => r.2.2 = (recordBytes t a).length) := by
  have hol := length_ownerBytes_le t a.owner
  have hdl := a.target.length_bytes_le
  have hlen := length_recordBytes t a
  have hinfo := toSize_lt_iff hb
    (show (ownerBytes t a.owner).length + a.target.bytes.length ≤ 1024 by omega)
    (show 10 ≤ 1024 by decide)
    (show (bufLen : Int) - (ownerBytes t a.owner).length - a.target.bytes.length = _ by
      push_cast; omega)
  -- the checks in the order in which the source makes them
  have steps : Does (a.object.encode p off bufLen t)
      (OwnerFits t bufLen a.owner ∧ off + (ownerBytes t a.owner).length ≤ 1024 ∧
        TargetFits bufLen ((ownerBytes t a.owner).length + 10) a.target ∧
        off + (ownerBytes t a.owner).length + 10 + a.target.bytes.length ≤ 1024 ∧
        ¬ toSize ((bufLen : Int) - (ownerBytes t a.owner).length - a.target.bytes.length) < 10 ∧
        off + (ownerBytes t a.owner).length + 10 ≤ 1024 ∧ True)
      (fun r => r.2.2 = (recordBytes t a).length) := by
    refine .bind_eq (encodeOwner_does t a.owner bufLen) (.bind (store_does p off _) fun p1 _ => ?_)
    refine .bind_eq (encodeTarget_does a.target hb
      (show (ownerBytes t a.owner).length + 10 ≤ 1024 by omega) (by push_cast; omega)) ?_
    refine .bind (store_does p1 _ _) fun p2 _ => .check not_harmless_invalidParameter ?_
    refine .bind (store_does p2 _ _) fun p3 _ => .inl ⟨trivial, _, rfl, ?_⟩
    rw [hlen]
    exact toSize_written bufLen _ _ (by omega)
  refine steps.congr ⟨?_, fun h => ?_⟩
  · rintro ⟨ho, _, hx, hin, hi, _⟩
    rw [hinfo, not_not] at hi
    exact ⟨ho, hx, hi, by omega⟩
  · have hin := h.inside
    refine ⟨h.owner, by omega, h.target, by omega, ?_, by omega, trivial⟩
    rw [hinfo, not_not]
    exact h.info

/-- The rows that `resolveA` gets through from `ptr` on with `remLen` bytes left: each
record that it comes to is encodable, and it goes on while bytes are left. -/
def Tolerated (t : PointerLocations) (remLen ptr : Nat) : List Answer → Prop
  | [] => True
  | a :: as => Encodable t remLen ptr a ∧
    ((recordBytes t a).length < remLen → Tolerated (extend t ptr a)
      (remLen - (recordBytes t a).length) (ptr + (recordBytes t a).length) as)

instance instDecidableTolerated (t : PointerLocations) (remLen ptr : Nat) (as : List Answer) :
    Decidable (Tolerated t remLen ptr as) :=
  match as with
  | [] => .isTrue trivial
  | a :: as =>
    have := instDecidableTolerated (extend t ptr a) (remLen - (recordBytes t a).length)
      (ptr + (recordBytes t a).length) as
    inferInstanceAs (Decidable (_ ∧ (_ → _)))

/-- One turn of the loop, with bytes left. -/
theorem encodeRow_cases (cfg : Config) (a : Answer) {l : RowLoop} (s : Session)
    (pos : 0 < l.remLen) (le : l.remLen ≤ 500) :
    Encodable s.pointerLocations l.remLen.toNat l.ptr a ∧ (∃ s',
      encodeRow cfg a.row l s = (.ok (l.after a (recordBytes s.pointerLocations a).length,
        (recordBytes s.pointerLocations a).length), s') ∧
      s'.pointerLocations = extend s.pointerLocations l.ptr a ∧ s'.driver = s.driver) ∨
    ¬ Encodable s.pointerLocations l.remLen.toNat l.ptr a ∧
      ∃ e, encodeRow cfg a.row l s = (.error e, s) ∧ ¬ Harmless e := by
  have hsize : toSize l.remLen = l.remLen.toNat := toSize_of_lt (by omega) (by omega)
  have hrow := encodeRow_row cfg a l s
  rw [hsize] at hrow
  have h := encode_does a s.packet s.pointerLocations l.ptr
    (show l.remLen.toNat ≤ 1024 by omega)
  rcases h with ⟨hen, ⟨rr, p', n⟩, he, hn⟩ | ⟨hen, e, he, harm⟩
  · obtain rfl : n = (recordBytes s.pointerLocations a).length := hn
    rw [he] at hrow
    exact .inl ⟨hen, _, hrow, extend_eq _ _ _, rfl⟩
  · rw [he] at hrow
    exact .inr ⟨hen, e, hrow, harm⟩

theorem harmless_exception (m : String) : Harmless (.exception m) := by simp [Harmless]

theorem harmless_code (n : Int) : Harmless (.code n) := by simp [Harmless]

theorem harmless_hang : Harmless (.fault .hang) := by simp [Harmless]

theorem driverCall_harmless (s : Session) :
    Act.Ends Harmless (fun _ t => t.pointerLocations = s.pointerLocations) (driverCall s) := by
  obtain ⟨packet, queries, table, connection, socket, exchanges, driver⟩ := s
  match driver with
  | [] => exact rfl
  | none :: _ => exact rfl
  | some m :: _ => exact harmless_exception m

theorem commit_harmless (s : Session) : Act.Ends Harmless (fun _ _ => True) (commit s) :=
  .bind (driverCall_harmless s) fun _ _ _ => trivial

/-- What is left after a record that fits. -/
theorem remLen_after {l : RowLoop} {n : Nat} (a : Answer) (h : ¬ (l.after a n).remLen ≤ 0) :
    n < l.remLen.toNat ∧ (l.after a n).remLen.toNat = l.remLen.toNat - n := by
  simp only [RowLoop.after] at h ⊢
  omega

/-- Tolerated rows do no harm, whatever the driver does. -/
theorem resolveRows_harmless (cfg : Config) {as : List Answer} {l : RowLoop} {s : Session}
    (pos : 0 < l.remLen) (le : l.remLen ≤ 500)
    (h : Tolerated s.pointerLocations l.remLen.toNat l.ptr as) :
    Act.Ends Harmless (fun _ _ => True) (resolveRows cfg (as.map Answer.row) l s) := by
  induction as generalizing l s with
  | nil => exact .bind (driverCall_harmless s) fun _ _ _ => trivial
  | cons a as ih =>
    rw [List.map_cons, resolveRows_cons]
    refine .bind (driverCall_harmless s) fun _ t ht => ?_
    rw [← ht] at h
    rcases encodeRow_cases cfg a t pos le with ⟨_, u, he, htable, _⟩ | ⟨hen, _⟩
    · rw [Act.bind_of_ok he]
      dsimp only
      split
      · exact trivial
      · rename_i hrem
        obtain ⟨hlt, hleft⟩ := remLen_after a hrem
        refine ih (Int.not_le.mp hrem) ?_ ?_
        · simp only [RowLoop.after]
          omega
        · rw [htable, hleft]
          exact h.2 hlt
    · exact absurd h.1 hen

/-- Rows that are not tolerated do harm when the driver reports no error. -/
theorem tolerated_of_harmless (cfg : Config) {as : List Answer} {l : RowLoop} {s : Session}
    (pos : 0 < l.remLen) (le : l.remLen ≤ 500) (quiet : s.driver = [])
    (h : Act.Ends Harmless (fun _ _ => True) (resolveRows cfg (as.map Answer.row) l s)) :
    Tolerated s.pointerLocations l.remLen.toNat l.ptr as := by
  induction as generalizing l s with
  | nil => trivial
  | cons a as ih =>
    rw [List.map_cons, resolveRows_cons, Act.bind_of_ok (driverCall_of_nil quiet)] at h
    rcases encodeRow_cases cfg a s pos le with ⟨hen, u, he, htable, hdriver⟩ | ⟨_, e, he, harm⟩
    · rw [Act.bind_of_ok he] at h
      dsimp only at h
      refine ⟨hen, fun hlt => ?_⟩
      have hrem : ¬ (l.after a (recordBytes s.pointerLocations a).length).remLen ≤ 0 := by
        simp only [RowLoop.after]
        omega
      rw [if_neg hrem] at h
      have hi := ih (by exact Int.not_le.mp hrem) (by simp only [RowLoop.after]; omega)
        (hdriver.trans quiet) h
      rwa [htable, (remLen_after a hrem).2] at hi
    · rw [Act.bind_of_error he] at h
      exact absurd h harm

theorem receiveReply_harmless (id : List Byte) (packetLen : Nat) (s : Session) :
    Act.Ends Harmless (fun _ _ => True) (receiveReply id packetLen s) := by
  cases h : s.socket.inbox with
  | nil =>
    rw [receiveReply_nil h]
    exact harmless_hang
  | cons d rest =>
    rw [receiveReply_cons h]
    split
    · exact harmless_code _
    · split
      · exact harmless_exception _
      · trivial

/-- A short packet can be sent and the reply received. -/
theorem recursiveResolve_harmless (cfg : Config) {packetLen : Nat} (h : packetLen ≤ 1024)
    (s : Session) : Act.Ends Harmless (fun _ _ => True) (recursiveResolve cfg packetLen s) := by
  have hl : ¬ packetLen % 4294967296 > packetAllocation := by
    unfold packetAllocation
    omega
  unfold recursiveResolve
  split
  · trivial
  · simp only [Act.bind_apply, Act.get_apply, Act.set_apply]
    cases (s.exchanges.headD Exchange.quiet).sendError with
    | some n => exact harmless_code n
    | none =>
      simp only [hl, if_false, Act.bind_apply, Act.modify_apply]
      cases (s.exchanges.headD Exchange.quiet).selectError with
      | some n => exact harmless_code n
      | none =>
        cases (s.exchanges.headD Exchange.quiet).recvError with
        | some n => exact harmless_code n
        | none => exact receiveReply_harmless _ _ _

section ResolveA

variable {cfg : Config} {locals : Locals} {lookup : List Byte → List Row} {query : DNSQuery}
  {as : List Answer} {off packetLen : Nat} {info : ResponseInfo} {s : Session}

theorem resolveA_harmless (name : query.qname.length ≤ 254)
    (rows : lookup query.qname = as.map Answer.row) (short : packetLen ≤ 1024)
    (h : Tolerated s.pointerLocations 500 off as) :
    Act.Ends Harmless (fun _ _ => True)
      (resolveA cfg locals lookup query off info packetLen s) := by
  have hname : ¬ query.qname.length + 1 > maxDnsNameLength := by
    unfold maxDnsNameLength
    omega
  rw [resolveA_eq, if_neg hname, rows]
  refine .bind (driverCall_harmless s) fun _ t ht => .bind
    (resolveRows_harmless cfg (l := .start locals off info) (by simp [RowLoop.start])
      (by simp [RowLoop.start]) (by rw [ht]; exact h)) fun l u _ => ?_
  split
  · exact .bind (commit_harmless u) fun _ _ _ => trivial
  · rw [Act.bind_of_ok (Act.get_apply u)]
    split
    · exact .bind (commit_harmless u) fun _ v _ =>
        .bind (recursiveResolve_harmless cfg short v) fun _ _ _ => trivial
    · exact .bind (commit_harmless u) fun _ _ _ => trivial

theorem tolerated_of_resolveA (name : query.qname.length ≤ 254)
    (rows : lookup query.qname = as.map Answer.row) (quiet : s.driver = [])
    (h : Act.Ends Harmless (fun _ _ => True)
      (resolveA cfg locals lookup query off info packetLen s)) :
    Tolerated s.pointerLocations 500 off as := by
  have hname : ¬ query.qname.length + 1 > maxDnsNameLength := by
    unfold maxDnsNameLength
    omega
  rw [resolveA_eq, if_neg hname, rows, Act.bind_of_ok (driverCall_of_nil quiet)] at h
  exact tolerated_of_harmless cfg (l := .start locals off info) (by simp [RowLoop.start])
    (by simp [RowLoop.start]) quiet h.of_bind

end ResolveA

/-- `resolveA` answers a request with one question without a violated constraint and
without a write behind the packet, whatever driver and network do, exactly when the rows
are tolerated. -/
theorem resolveA_harmless_iff (cfg : Config) (w : Worker) {t : Turn} {query : DNSQuery}
    {as : List Answer} (parsed : t.parsed = ([query], none))
    (rows : t.lookup query.qname = as.map Answer.row) :
    (∀ driver exchanges e s', resolveA cfg t.locals t.lookup query (12 + query.length)
        (.new t.locals.length) (12 + query.length)
        { w.clean.extracted t [query] with driver, exchanges } = (.error e, s') → Harmless e) ↔
      Tolerated (PointerLocations.insert (fun _ => none) query.qname 12) 500
        (12 + query.length) as := by
  have mem : query ∈ t.parsed.1 := by
    rw [parsed]
    exact .head _
  obtain ⟨hlen, hname⟩ := parseQuestions_bounds _ _ _ _ query mem
  constructor
  · intro h
    exact tolerated_of_resolveA hname rows rfl (Act.ends_of_errors (h [] []))
  · intro h driver exchanges e s' he
    exact (resolveA_harmless hname rows (by omega) h).of_error he

theorem resolveA_harmless_iff_alias : turnA.parsed = ([questionA.query], none) ∧
    ∀ driver exchanges e s', resolveA ⟨0, false⟩ turnA.locals turnA.lookup questionA.query 19
      (.new 0) 19 { Worker.idle.clean.extracted turnA [questionA.query] with driver, exchanges } =
        (.error e, s') → Harmless e := by
  have parsed : turnA.parsed = ([questionA.query], none) := by decide +kernel
  exact ⟨parsed, (resolveA_harmless_iff ⟨0, false⟩ Worker.idle parsed rfl).mpr (by decide +kernel)⟩

/-- A name of 192 characters and a last label of the given length. -/
def longAliasName (n : Nat) (h : 1 ≤ n ∧ n ≤ 62) : DomainName where
  labels := [.replicate 63 97, .replicate 63 97, .replicate 63 97, .replicate n 97]
  nonempty := by simp
  ok := by
    simp only [List.forall_mem_cons, List.not_mem_nil, false_implies, implies_true, and_true,
      LabelOk, List.length_replicate]
    omega
  plain := by simp [List.mem_replicate, dot]
  short := by
    simp only [text, List.length_append, List.length_cons, List.length_replicate]
    omega

/-- The name `a` has an alias of 242 characters, and that one has an alias of 240. -/
def chainOfAliases : List Answer :=
  [⟨nameA, 1, 60, .cname (longAliasName 50 (by decide))⟩,
    ⟨longAliasName 50 (by decide), 1, 60, .cname (longAliasName 48 (by decide))⟩]

def turnChain : Turn :=
  .quiet (request 0 7 1 [questionA]) requestA_short (fun _ => chainOfAliases.map Answer.row)

/-- Behind the first record 244 bytes are left. The owner and the data of the second one
take all of them, and the fixed part is copied into a destination of size zero. -/
theorem chainOfAliases_harms : turnChain.parsed = ([questionA.query], none) ∧
    turnChain.lookup questionA.query.qname = chainOfAliases.map Answer.row ∧
    (resolveA ⟨0, false⟩ turnChain.locals turnChain.lookup questionA.query 19 (.new 0) 19
      (Worker.idle.clean.extracted turnChain [questionA.query])).1 =
        .error (.fault .invalidParameter) := by
  decide +kernel

end OdbcDns
