import OdbcDns.Proofs.Truncation

namespace OdbcDns
open Slice Rfc1035

/-- The number of records of these sizes that end within `n` bytes. -/
def delivered : List Nat → Nat → Nat
  | [], _ => 0
  | size :: sizes, n => if size ≤ n then delivered sizes (n - size) + 1 else 0

/-- Behind the first `k` records exactly `k` records are complete. -/
theorem delivered_take {sizes : List Nat} (pos : ∀ size ∈ sizes, 0 < size) {k : Nat}
    (hk : k ≤ sizes.length) : delivered sizes (sizes.take k).sum = k := by
  induction sizes generalizing k with
  | nil => simp [delivered, Nat.le_zero.mp hk]
  | cons size sizes ih =>
    obtain ⟨hpos, hrest⟩ := List.forall_mem_cons.mp pos
    cases k with
    | zero =>
      have : ¬ size ≤ 0 := Nat.not_le.mpr hpos
      simp [delivered, this]
    | succ k =>
      have hi := ih hrest (Nat.le_of_succ_le_succ hk)
      simp [delivered, hi]

theorem recordSizes_pos (known : List (List Byte)) (rows : List Row) :
    ∀ size ∈ recordSizes known rows, 0 < size :=
  fun _ h => Nat.lt_of_lt_of_le (by decide) (le_of_mem_recordSizes h)

/-- The counter agrees with the records in the answer exactly when no record was turned
away. -/
theorem answers_eq_delivered_iff {cfg : Config} {locals : Locals}
    {lookup : List Byte → List Row} {query : DNSQuery} {off packetLen length n : Nat}
    {info : ResponseInfo} {s s' : Session}
    (single : s.pointerLocations = PointerLocations.insert (fun _ => none) query.qname 12)
    (resolved : resolveA cfg locals lookup query off (.new length) packetLen s =
      (.ok (n, info), s'))
    (cached : info.recursionOccurred = false) :
    info.answers.toNat = delivered (recordSizes [query.qname] (lookup query.qname)) n ↔
      (recordSizes [query.qname] (lookup query.qname)).sum < 500 := by
  obtain ⟨l, t, hrows, hcase⟩ := resolveA_inv resolved
  rcases hcase with ⟨_, hn, rfl, _⟩ | ⟨_, _, _, rfl, _⟩
  · have known : Knows s.pointerLocations [query.qname] := by
      rw [single]
      exact knows_single query.qname
    have pos := recordSizes_pos [query.qname] (lookup query.qname)
    have hcount := length_le_recordSizes [query.qname] (lookup query.qname)
    obtain ⟨_, _, hend⟩ := resolveRows_sizes off hrows rfl (by simp [RowLoop.start]) known
      (Nat.le_refl _)
    simp only [RowLoop.start, ResponseInfo.new] at hend
    rcases hend with ⟨_, hlt, hptr, hinfo⟩ | ⟨_, hge, _, k, hk, hlt, hptr, hans⟩
    · have whole := delivered_take pos (Nat.le_refl _)
      rw [List.take_length, length_recordSizes] at whole
      have hn' : n = (recordSizes [query.qname] (lookup query.qname)).sum := by omega
      rw [hn', whole, hinfo]
      simp only [UInt16.zero_add, UInt16.toNat_ofNat']
      omega
    · have front := delivered_take pos (Nat.le_of_lt (by simpa using hk))
      have hn' : n = ((recordSizes [query.qname] (lookup query.qname)).take k).sum := by omega
      have one : (1 : UInt16).toNat = 1 := rfl
      rw [hn', front, hans, UInt16.zero_add, UInt16.toNat_sub, UInt16.toNat_ofNat', one]
      omega
  · cases cached

theorem answers_eq_delivered_alias : ∃ info s',
    resolveA ⟨0, false⟩ turnA.locals turnA.lookup questionA.query 19 (.new 0) 19
        (Worker.idle.clean.extracted turnA [questionA.query]) = (.ok (31, info), s') ∧
      info.answers.toNat =
        delivered (recordSizes [nameA.text] (aliasThenAddress.map Answer.row)) 31 := by
  have result : (resolveA ⟨0, false⟩ turnA.locals turnA.lookup questionA.query 19 (.new 0) 19
      (Worker.idle.clean.extracted turnA [questionA.query])).1 =
        .ok (31, ⟨2, 0, 0, .noError, 0, false, false⟩) := by
    decide +kernel
  have resolved := Act.eq_of_fst result
  exact ⟨_, _, resolved, (answers_eq_delivered_iff rfl resolved rfl).mpr (by decide +kernel)⟩

/-- A name of 253 characters. -/
def fullName : DomainName where
  labels := [.replicate 63 97, .replicate 63 97, .replicate 63 97, .replicate 61 97]
  nonempty := by simp
  ok := by decide
  plain := by decide
  short := by decide +kernel

/-- An alias between two such names takes 520 bytes: it is turned away, nothing is
delivered, and the counter wraps around. -/
theorem answers_ne_delivered_long :
    (resolveA ⟨0, false⟩ turnA.locals (fun _ => [Answer.row ⟨fullName, 1, 60, .cname fullName⟩])
        questionA.query 19 (.new 0) 19
        (Worker.idle.clean.extracted turnA [questionA.query])).1 =
        .ok (0, ⟨65535, 0, 0, .noError, 0, false, true⟩) ∧
      delivered (recordSizes [nameA.text] [Answer.row ⟨fullName, 1, 60, .cname fullName⟩]) 0 =
        0 := by
  decide +kernel

end OdbcDns
