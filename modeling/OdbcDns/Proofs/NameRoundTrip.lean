import OdbcDns.Proofs.NameAcceptance

namespace OdbcDns
open Rfc1035 Slice

/-- A name of the allowed form is written in its wire form and read back from the buffer. -/
theorem name_round_trip (n : DomainName) {buffer : List Byte}
    (room : n.text.length + 2 ≤ buffer.length) {mem : Memory} {name : Address}
    (there : mem.from name = overwrite buffer 0 n.wire) (message : Region) :
    encodeName n.text buffer.length = .ok n.wire ∧ n.wire.length = n.text.length + 2 ∧
      ∃ log, decodeNameAt mem name message 256 = (.ok (n.text.length + 2), log) ∧
        ∀ out, out.length = 256 → n.text ++ [0] <+: outputBuffer out log := by
  have hlen := n.length_wire
  have short : n.wire.length ≤ 256 := by
    have := n.short
    unfold DomainName.text at hlen
    omega
  have start : n.wire <+: mem.from name := by
    rw [there]
    exact ⟨_, rfl⟩
  refine ⟨?_, hlen, ?_⟩
  · rw [n.encodeName_text, if_pos]
    intro l hl
    have := length_label_le_wire hl
    unfold DomainName.wire at hlen
    omega
  · have reads : ReadAs (mem message) (mem.from name) n.labels := by
      obtain ⟨rest, hrest⟩ := start
      rw [← hrest]
      exact readAs_wire n.ok _ rest
    have returned : Returned mem name message 256 n.labels :=
      (returned_iff (by decide)).mpr ⟨entered_wire start short, reads, short⟩
    obtain ⟨log, he, buffer⟩ := returned.leaves n.nonempty
    rw [← hlen]
    exact ⟨log, he, fun out hout => buffer out (Nat.le_of_eq hout.symm)⟩

/-- The name `www.a`. -/
def shortName : DomainName where
  labels := [[119, 119, 119], [97]]
  nonempty := by decide
  ok := by decide
  plain := by decide
  short := by decide

theorem name_round_trip_short :
    encodeName shortName.text 7 = .ok [3, 119, 119, 119, 1, 97, 0] ∧
      ∃ log, decodeNameAt (fun _ => shortName.wire) ⟨.stack, 0⟩ .stack 256 = (.ok 7, log) ∧
        ∀ out, out.length = 256 → [119, 119, 119, dot, 97, 0] <+: outputBuffer out log := by
  obtain ⟨he, _, hd⟩ := @name_round_trip shortName (List.replicate 7 0) (by decide)
    (fun _ => shortName.wire) ⟨.stack, 0⟩ (by decide) .stack
  exact ⟨he, hd⟩

/-- No label holds a separator or a terminator. -/
def PlainLabels (ls : List Label) : Prop := ∀ l ∈ ls, dot ∉ l ∧ (0 : Byte) ∉ l

/-- The encoder writes at most one byte more than it reads. -/
theorem length_encodeLoop {bufLen fuel : Nat} {s bs : List Byte}
    (h : encodeLoop bufLen fuel s = .ok bs) : bs.length ≤ s.length + 1 := by
  induction fuel generalizing s bs with
  | zero => cases h
  | succ fuel ih =>
    simp only [encodeLoop] at h
    have hmod := Nat.mod_le (s.takeWhile (· ≠ dot)).length 256
    generalize (s.takeWhile (· ≠ dot)).length % 256 = len at h hmod
    split at h
    · cases h
    · split at h
      · rename_i hdot
        obtain ⟨rest, hr, he⟩ := Except.bind_ok.mp h
        cases he
        have := ih hr
        have hlt := length_takeWhile_lt hdot []
        rw [List.append_nil] at hlt
        simp only [List.length_cons, List.length_append, List.length_take, List.length_drop]
          at this ⊢
        omega
      · cases h
        simp only [List.length_cons, List.length_take]
        omega

/-- The first byte that the encoder writes is the distance to the first dot. -/
theorem head_encodeLoop {bufLen fuel : Nat} {s bs : List Byte}
    (h : encodeLoop bufLen fuel s = .ok bs) :
    bs.head? = some (UInt8.ofNat ((s.takeWhile (· ≠ dot)).length % 256)) := by
  cases fuel with
  | zero => cases h
  | succ fuel =>
    simp only [encodeLoop] at h
    split at h
    · cases h
    · split at h
      · obtain ⟨rest, _, he⟩ := Except.bind_ok.mp h
        cases he
        rfl
      · cases h
        rfl

theorem text_cons (l : Label) (ls : List Label) : ∃ rest, text (l :: ls) = l ++ rest := by
  cases ls with
  | nil => exact ⟨[], (List.append_nil l).symm⟩
  | cons k ks => exact ⟨_, rfl⟩

/-- A label that the encoder gives its length again has no dot. -/
theorem not_mem_of_head {l : Label} (ok : LabelOk l) {s bs : List Byte} {bufLen fuel : Nat}
    (hs : ∃ rest, s = l ++ rest) (h : encodeLoop bufLen fuel s = .ok bs)
    (head : bs.head? = some (UInt8.ofNat l.length)) : dot ∉ l := by
  intro hdot
  obtain ⟨rest, rfl⟩ := hs
  have hlt := length_takeWhile_lt hdot rest
  have hle := ok.2
  have he := Option.some.inj ((head_encodeLoop h).symm.trans head)
  rw [Nat.mod_eq_of_lt (by omega)] at he
  have hn := congrArg UInt8.toNat he
  rw [toNat_ofNat_mod, toNat_ofNat_mod] at hn
  omega

theorem not_dot_of_encodeLoop {ls : List Label} (hne : ls ≠ []) (hok : ∀ l ∈ ls, LabelOk l)
    {bufLen fuel : Nat} {bs : List Byte} (h : encodeLoop bufLen fuel (text ls) = .ok bs)
    (hw : bs ++ [0] = wire ls) : ∀ l ∈ ls, dot ∉ l := by
  induction ls generalizing fuel bs with
  | nil => exact absurd rfl hne
  | cons l ls ih =>
    have ok := hok l List.mem_cons_self
    have head : bs.head? = some (UInt8.ofNat l.length) := by
      cases bs with
      | nil =>
        have hz := (List.cons.inj hw).1
        exact absurd hz.symm ok.ofNat_ne_zero
      | cons b bs => rw [List.head?_cons, (List.cons.inj hw).1]
    have hdot := not_mem_of_head ok (text_cons l ls) h head
    refine List.forall_mem_cons.mpr ⟨hdot, ?_⟩
    cases ls with
    | nil => simp
    | cons k ks =>
      cases fuel with
      | zero => cases h
      | succ fuel =>
        have hle := ok.2
        have hm : l.length % 256 = l.length := Nat.mod_eq_of_lt (by omega)
        have hdrop : (l ++ dot :: text (k :: ks)).drop (l.length + 1) = text (k :: ks) := by
          rw [List.drop_append]
          simp
        rw [text_cons_cons] at h
        simp only [encodeLoop, takeWhile_label hdot, hm, List.mem_append, List.mem_cons, true_or,
          or_true, if_true, hdrop, List.take_left] at h
        split at h
        · cases h
        · obtain ⟨rest, hr, he⟩ := Except.bind_ok.mp h
          cases he
          refine ih (List.cons_ne_nil k ks) (fun j hj => hok j (List.mem_cons_of_mem l hj)) hr ?_
          rw [wire, List.cons_append, List.append_assoc] at hw
          exact List.append_cancel_left (List.cons.inj hw).2

theorem zero_not_mem_of_cstr {s : List Byte} (h : s.length ≤ (cstr s).length) :
    (0 : Byte) ∉ s := by
  have he : cstr s = s := (List.takeWhile_prefix _).eq_of_length_le h
  have := List.takeWhile_eq_self_iff.mp he
  intro hz
  exact absurd (this 0 hz) (by decide)

theorem mem_text {ls : List Label} {l : Label} {b : Byte} (hl : l ∈ ls) (hb : b ∈ l) :
    b ∈ text ls := by
  induction ls with
  | nil => cases hl
  | cons k ls ih =>
    cases ls with
    | nil => rwa [List.mem_singleton.mp hl] at hb
    | cons j js =>
      rw [text_cons_cons]
      rcases List.mem_cons.mp hl with rfl | hl
      · exact List.mem_append_left _ hb
      · exact List.mem_append_right _ (List.mem_cons_of_mem _ (ih hl))

theorem encodeName_of_plain {ls : List Label} (hne : ls ≠ []) (hok : ∀ l ∈ ls, LabelOk l)
    (hp : PlainLabels ls) {bufLen : Nat} (room : (wire ls).length ≤ bufLen) :
    encodeName (cstr (text ls)) bufLen = .ok (wire ls) := by
  obtain ⟨bs, hw, he⟩ := encodeLoop_text hne hok (fun l hl => (hp l hl).1) bufLen _
    (length_le_text hne)
  have fits : ∀ l ∈ ls, l.length ≤ bufLen :=
    fun l hl => Nat.le_trans (Nat.le_of_add_right_le (length_label_le_wire hl)) room
  have hz : (0 : Byte) ∉ text ls := not_mem_text (by decide) fun l hl => (hp l hl).2
  unfold encodeName
  rw [cstr_eq_self hz, he, if_pos fits, ← hw]
  rfl

theorem plain_of_encodeName {ls : List Label} (hne : ls ≠ []) (hok : ∀ l ∈ ls, LabelOk l)
    {bufLen : Nat} (h : encodeName (cstr (text ls)) bufLen = .ok (wire ls)) :
    PlainLabels ls := by
  obtain ⟨bs, hloop, he⟩ := Except.bind_ok.mp h
  have hw : bs ++ [0] = wire ls := Except.ok.inj he
  have hz : (0 : Byte) ∉ text ls := by
    apply zero_not_mem_of_cstr
    have hlen := congrArg List.length hw
    have := length_encodeLoop hloop
    rw [length_wire hne, List.length_append, List.length_singleton] at hlen
    omega
  rw [cstr_eq_self hz] at hloop
  intro l hl
  exact ⟨not_dot_of_encodeLoop hne hok hloop hw l hl, fun h0 => hz (mem_text hl h0)⟩

/-- What `decodeName` makes of a spelled-out name is encoded to the same bytes exactly when
no label holds a dot or a NUL, and among such names no two have the same text. -/
theorem reencoded_iff {ls : List Label} (nonempty : ls ≠ []) (ok : ∀ l ∈ ls, LabelOk l)
    {packet rest t : List Byte} {bufLen outLen n : Nat}
    (accepted : decodeName (wire ls ++ rest) packet bufLen = .ok (t, n))
    (room : (wire ls).length ≤ outLen) :
    (encodeName t outLen = .ok (wire ls) ↔ PlainLabels ls) ∧
      ∀ ks packet' rest' bufLen' n', ks ≠ [] → (∀ l ∈ ks, LabelOk l) →
        decodeName (wire ks ++ rest') packet' bufLen' = .ok (t, n') →
        PlainLabels ls → PlainLabels ks → wire ks = wire ls := by
  have decoded : ∀ ks packet rest bufLen n, (∀ l ∈ ks, LabelOk l) →
      decodeName (wire ks ++ rest) packet bufLen = .ok (t, n) → t = cstr (text ks) := by
    intro ks packet rest bufLen n hok h
    obtain ⟨_, js, reads, _, ht, _⟩ := decodeName_ok_iff.mp h
    rwa [reads.unique (readAs_wire hok packet rest)] at ht
  have ht := decoded ls packet rest bufLen n ok accepted
  refine ⟨?_, fun ks packet' rest' bufLen' n' hne hok h hp hq => ?_⟩
  · rw [ht]
    exact ⟨plain_of_encodeName nonempty ok, fun hp => encodeName_of_plain nonempty ok hp room⟩
  · have hk := decoded ks packet' rest' bufLen' n' hok h
    -- both names are what the encoder makes of the one text
    have one := encodeName_of_plain nonempty ok hp
      (Nat.le_max_left (wire ls).length (wire ks).length)
    have other := encodeName_of_plain hne hok hq
      (Nat.le_max_right (wire ls).length (wire ks).length)
    rw [← ht] at one
    rw [← hk, one] at other
    exact (Except.ok.inj other).symm

theorem reencoded_iff_short :
    decodeName (shortName.wire ++ []) [] 256 = .ok (shortName.text, 7) ∧
      encodeName shortName.text 7 = .ok shortName.wire := by
  have accepted := shortName.decodeName_wire [] []
  exact ⟨accepted, (reencoded_iff shortName.nonempty shortName.ok accepted (by decide)).1.mpr
    shortName.plain⟩

/-- One label `a.b`, the two labels `a` and `b`, and two names with a NUL are read as the
texts `a.b` and `a`. -/
theorem dot_label_not_reencoded :
    decodeName (wire [[97, dot, 98]]) [] 256 = .ok ([97, dot, 98], 5) ∧
      decodeName (wire [[97], [98]]) [] 256 = .ok ([97, dot, 98], 5) ∧
      wire [[97, dot, 98]] ≠ wire [[97], [98]] ∧
      encodeName [97, dot, 98] 256 = .ok (wire [[97], [98]]) ∧
      decodeName (wire [[97, 0]]) [] 256 = .ok ([97], 4) ∧
      encodeName [97] 256 = .ok (wire [[97]]) ∧ wire [[97, 0]] ≠ wire [[97]] := by
  decide +kernel

end OdbcDns
