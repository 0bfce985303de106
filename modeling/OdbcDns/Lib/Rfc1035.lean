import OdbcDns.Lib.Slice

/-! The wire format of domain names and resource records, read off a message by
position. Octets are unsigned and a compression pointer counts from the first
octet of the message. -/

namespace Rfc1035
open Slice

abbrev Message := List UInt8

abbrev Label := List UInt8

/-- A sixteen-bit number in network order. -/
def be16 (v : UInt16) : List UInt8 :=
  [UInt8.ofNat (v.toNat / 256), UInt8.ofNat (v.toNat % 256)]

/-- A thirty-two-bit number in network order. -/
def be32 (v : UInt32) : List UInt8 :=
  [UInt8.ofNat (v.toNat / 16777216), UInt8.ofNat (v.toNat / 65536 % 256),
    UInt8.ofNat (v.toNat / 256 % 256), UInt8.ofNat (v.toNat % 256)]

@[simp] theorem length_be16 (v : UInt16) : (be16 v).length = 2 := rfl

theorem toNat_ofNat_mod (n : Nat) : (UInt8.ofNat n).toNat = n % 256 := UInt8.toNat_ofNat'

theorem be16_injective {v w : UInt16} (h : be16 v = be16 w) : v = w := by
  simp only [be16, List.cons.injEq, and_true] at h
  have h1 := congrArg UInt8.toNat h.1
  have h2 := congrArg UInt8.toNat h.2
  rw [toNat_ofNat_mod, toNat_ofNat_mod] at h1 h2
  have hv := v.toNat_lt
  have hw := w.toNat_lt
  apply UInt16.toNat_inj.mp
  omega

theorem be32_injective {v w : UInt32} (h : be32 v = be32 w) : v = w := by
  simp only [be32, List.cons.injEq, and_true] at h
  obtain ⟨h1, h2, h3, h4⟩ := h
  have h1 := congrArg UInt8.toNat h1
  have h2 := congrArg UInt8.toNat h2
  have h3 := congrArg UInt8.toNat h3
  have h4 := congrArg UInt8.toNat h4
  rw [toNat_ofNat_mod, toNat_ofNat_mod] at h1 h2 h3 h4
  have hv := v.toNat_lt
  have hw := w.toNat_lt
  apply UInt32.toNat_inj.mp
  omega

/-- The uncompressed spelling of a name: length-prefixed labels and the root. -/
def wire : List Label → List UInt8
  | [] => [0]
  | l :: ls => UInt8.ofNat l.length :: (l ++ wire ls)

def LabelOk (l : Label) : Prop := 1 ≤ l.length ∧ l.length ≤ 63

instance (l : Label) : Decidable (LabelOk l) := inferInstanceAs (Decidable (_ ∧ _))

/-- Where a compression pointer with these two octets leads. -/
def pointerTarget (b0 b1 : UInt8) : Nat := b0.toNat % 64 * 256 + b1.toNat

/-- `NameAt msg off labels next`: the name that starts at `off` expands to
`labels`, and the octets it occupies in place end before `next`. A derivation is
finite, so a chain of pointers that never ends denotes no name. -/
inductive NameAt (msg : Message) : Nat → List Label → Nat → Prop
  | root {off : Nat} (h : msg[off]? = some 0) : NameAt msg off [] (off + 1)
  | label {off next : Nat} {l : Label} {ls : List Label} (ok : LabelOk l)
      (head : At msg off (UInt8.ofNat l.length :: l))
      (tail : NameAt msg (off + 1 + l.length) ls next) : NameAt msg off (l :: ls) next
  | pointer {off next : Nat} {b0 b1 : UInt8} {ls : List Label} (high : 192 ≤ b0.toNat)
      (head : At msg off [b0, b1]) (tail : NameAt msg (pointerTarget b0 b1) ls next) :
      NameAt msg off ls (off + 2)

theorem At.head_eq {msg : Message} {off : Nat} {b : UInt8} {l : List UInt8}
    (h : At msg off (b :: l)) : msg[off]? = some b := (at_cons.mp h).1

theorem LabelOk.toNat_length {l : Label} (h : LabelOk l) :
    (UInt8.ofNat l.length).toNat = l.length := by
  have := h.2
  rw [toNat_ofNat_mod]
  omega

/-- The length octet of a label is not that of the root. -/
theorem LabelOk.ofNat_ne_zero {l : Label} (h : LabelOk l) : UInt8.ofNat l.length ≠ 0 := by
  intro he
  have := congrArg UInt8.toNat he
  rw [h.toNat_length] at this
  exact absurd h.1 (by rw [this]; decide)

/-- A label in front of other bytes is told by its length. -/
theorem LabelOk.cons_inj {l k : Label} (ok : LabelOk l) (ok' : LabelOk k) {rest rest' : List UInt8}
    (h : UInt8.ofNat l.length :: (l ++ rest) = UInt8.ofNat k.length :: (k ++ rest')) :
    l = k ∧ rest = rest' := by
  obtain ⟨hb, happ⟩ := List.cons.inj h
  have hlen := congrArg UInt8.toNat hb
  rw [ok.toNat_length, ok'.toNat_length] at hlen
  exact List.append_inj happ hlen

/-- Two labels of one length at one place are one label. -/
theorem at_unique {msg : Message} {off : Nat} {xs ys : List UInt8} (hx : At msg off xs)
    (hy : At msg off ys) (hl : xs.length = ys.length) : xs = ys := by
  apply List.ext_getElem?
  intro i
  by_cases hi : i < xs.length
  · rw [← hx.getElem? hi, hy.getElem? (hl ▸ hi)]
  · rw [List.getElem?_eq_none (by omega), List.getElem?_eq_none (by omega)]

/-- A position determines at most one name and one end of it. -/
theorem NameAt.unique {msg : Message} {off n m : Nat} {ls ks : List Label}
    (h : NameAt msg off ls n) (k : NameAt msg off ks m) : ls = ks ∧ n = m := by
  induction h generalizing ks m with
  | root h0 =>
    cases k with
    | root _ => exact ⟨rfl, rfl⟩
    | label ok head tail =>
      exact absurd (Option.some.inj ((At.head_eq head).symm.trans h0)) ok.ofNat_ne_zero
    | pointer high head tail =>
      have hb := Option.some.inj (h0.symm.trans (At.head_eq head))
      rw [← hb] at high
      simp at high
  | @label off next l ls ok head tail ih =>
    have hh := At.head_eq head
    cases k with
    | root h0 =>
      exact absurd (Option.some.inj (hh.symm.trans h0)) ok.ofNat_ne_zero
    | @label _ _ l' ls' ok' head' tail' =>
      have hb := congrArg UInt8.toNat (Option.some.inj (hh.symm.trans (At.head_eq head')))
      rw [ok.toNat_length, ok'.toNat_length] at hb
      have hl : l = l' := at_unique (at_cons.mp head).2 (at_cons.mp head').2 hb
      subst hl
      obtain ⟨he, hn⟩ := ih tail'
      exact ⟨congrArg _ he, hn⟩
    | pointer high head' tail' =>
      have hb := congrArg UInt8.toNat (Option.some.inj (hh.symm.trans (At.head_eq head')))
      rw [ok.toNat_length] at hb
      have := ok.2
      omega
  | @pointer off next b0 b1 ls high head tail ih =>
    have hh := At.head_eq head
    cases k with
    | root h0 =>
      have hb := Option.some.inj (hh.symm.trans h0)
      rw [hb] at high
      simp at high
    | label ok head' tail' =>
      have hb := congrArg UInt8.toNat (Option.some.inj (hh.symm.trans (At.head_eq head')))
      rw [ok.toNat_length] at hb
      have := ok.2
      omega
    | pointer high' head' tail' =>
      have he := at_unique head head' rfl
      simp only [List.cons.injEq, and_true] at he
      obtain ⟨rfl, rfl⟩ := he
      exact ⟨(ih tail').1, rfl⟩

/-- A name that starts with a pointer takes two octets, wherever it leads. -/
theorem NameAt.next_of_high {msg : Message} {off next : Nat} {ls : List Label} {b : UInt8}
    (h : NameAt msg off ls next) (hb : msg[off]? = some b) (high : 192 ≤ b.toNat) :
    next = off + 2 := by
  cases h with
  | root h0 =>
    rw [h0] at hb
    rw [← Option.some.inj hb] at high
    simp at high
  | label ok head _ =>
    rw [← Option.some.inj ((At.head_eq head).symm.trans hb), ok.toNat_length] at high
    have := ok.2
    omega
  | pointer _ _ _ => rfl

/-- A name spelled out in the message is read as that name. -/
theorem nameAt_of_wire {msg : Message} {off : Nat} {ls : List Label}
    (hok : ∀ l ∈ ls, LabelOk l) (h : At msg off (wire ls)) :
    NameAt msg off ls (off + (wire ls).length) := by
  induction ls generalizing off with
  | nil => exact .root (At.head_eq h)
  | cons l ls ih =>
    have hs : At msg off ((UInt8.ofNat l.length :: l) ++ wire ls) := by simpa [wire] using h
    rw [at_append] at hs
    rw [List.length_cons, Nat.add_comm l.length, ← Nat.add_assoc] at hs
    have ht := ih (fun k hk => hok k (by simp [hk])) hs.2
    have he : off + (wire (l :: ls)).length = off + 1 + l.length + (wire ls).length := by
      simp only [wire, List.length_cons, List.length_append]
      omega
    rw [he]
    exact .label (hok l (by simp)) hs.1 ht

theorem length_wire_pos (ls : List Label) : 0 < (wire ls).length := by
  cases ls <;> simp [wire]

inductive RData where
  | address (octets : List UInt8)
  | name (labels : List Label)
  | other (octets : List UInt8)
  deriving DecidableEq

structure ResourceRecord where
  name : List Label
  type : UInt16
  rclass : UInt16
  ttl : UInt32
  rdata : RData
  deriving DecidableEq

/-- The ten octets between the owner name and the data of a record. -/
def fixedPart (type rclass : UInt16) (ttl : UInt32) (rdlength : UInt16) : List UInt8 :=
  be16 type ++ be16 rclass ++ be32 ttl ++ be16 rdlength

@[simp] theorem length_fixedPart (type rclass : UInt16) (ttl : UInt32) (rdlength : UInt16) :
    (fixedPart type rclass ttl rdlength).length = 10 := rfl

/-- Address records (type 1) hold four octets, alias records (type 5) a name
that ends with the data; any other type is left uninterpreted. -/
inductive RDataAt (msg : Message) (off : Nat) : UInt16 → Nat → RData → Prop
  | address {octets : List UInt8} (len : octets.length = 4) (h : At msg off octets) :
      RDataAt msg off 1 4 (.address octets)
  | name {labels : List Label} {n : Nat} (h : NameAt msg off labels (off + n)) :
      RDataAt msg off 5 n (.name labels)
  | other {type : UInt16} {octets : List UInt8} {n : Nat} (ha : type ≠ 1) (hc : type ≠ 5)
      (len : octets.length = n) (h : At msg off octets) : RDataAt msg off type n (.other octets)

/-- `RecordAt msg off r next`: the record that starts at `off` is `r`, and it
ends before `next`. -/
inductive RecordAt (msg : Message) : Nat → ResourceRecord → Nat → Prop
  | mk {off mid : Nat} {r : ResourceRecord} {rdlength : UInt16}
      (name : NameAt msg off r.name mid)
      (fixed : At msg mid (fixedPart r.type r.rclass r.ttl rdlength))
      (rdata : RDataAt msg (mid + 10) r.type rdlength.toNat r.rdata) :
      RecordAt msg off r (mid + 10 + rdlength.toNat)

/-- A run of records, one directly behind the other. -/
inductive RecordsAt (msg : Message) : Nat → List ResourceRecord → Nat → Prop
  | nil {off : Nat} : RecordsAt msg off [] off
  | cons {off mid next : Nat} {r : ResourceRecord} {rs : List ResourceRecord}
      (head : RecordAt msg off r mid) (tail : RecordsAt msg mid rs next) :
      RecordsAt msg off (r :: rs) next

theorem fixedPart_injective {t t' c c' : UInt16} {l l' : UInt32} {n n' : UInt16}
    (h : fixedPart t c l n = fixedPart t' c' l' n') : t = t' ∧ c = c' ∧ l = l' ∧ n = n' := by
  unfold fixedPart at h
  obtain ⟨h, hn⟩ := List.append_inj h rfl
  obtain ⟨h, hl⟩ := List.append_inj h rfl
  obtain ⟨ht, hc⟩ := List.append_inj h rfl
  exact ⟨be16_injective ht, be16_injective hc, be32_injective hl, be16_injective hn⟩

theorem RDataAt.unique {msg : Message} {off n : Nat} {t : UInt16} {d d' : RData}
    (h : RDataAt msg off t n d) (h' : RDataAt msg off t n d') : d = d' := by
  cases h with
  | address len h =>
    cases h' with
    | address len' h' => exact congrArg _ (at_unique h h' (len.trans len'.symm))
    | other ha => exact absurd rfl ha
  | name h =>
    cases h' with
    | name h' => exact congrArg _ (h.unique h').1
    | other _ hc => exact absurd rfl hc
  | other ha hc len h =>
    cases h' with
    | address => exact absurd rfl ha
    | name => exact absurd rfl hc
    | other _ _ len' h' => exact congrArg _ (at_unique h h' (len.trans len'.symm))

theorem RecordAt.unique {msg : Message} {off n m : Nat} {r r' : ResourceRecord}
    (h : RecordAt msg off r n) (h' : RecordAt msg off r' m) : r = r' ∧ n = m := by
  obtain ⟨name, fixed, rdata⟩ := h
  obtain ⟨name', fixed', rdata'⟩ := h'
  obtain ⟨hname, rfl⟩ := name.unique name'
  obtain ⟨ht, hc, hl, rfl⟩ := fixedPart_injective (at_unique fixed fixed' rfl)
  rw [ht] at rdata
  have hd := rdata.unique rdata'
  obtain ⟨n1, t1, c1, l1, d1⟩ := r
  obtain ⟨n2, t2, c2, l2, d2⟩ := r'
  simp only at hname ht hc hl hd
  subst hname ht hc hl hd
  exact ⟨rfl, rfl⟩

/-- A position and a number of records determine the records and their end. -/
theorem RecordsAt.unique {msg : Message} {off n m : Nat} {rs rs' : List ResourceRecord}
    (h : RecordsAt msg off rs n) (h' : RecordsAt msg off rs' m) (hl : rs.length = rs'.length) :
    rs = rs' ∧ n = m := by
  induction h generalizing rs' m with
  | nil =>
    cases h' with
    | nil => exact ⟨rfl, rfl⟩
    | cons => simp at hl
  | cons head tail ih =>
    cases h' with
    | nil => simp at hl
    | cons head' tail' =>
      obtain ⟨rfl, rfl⟩ := head.unique head'
      obtain ⟨rfl, rfl⟩ := ih tail' (by simpa using hl)
      exact ⟨rfl, rfl⟩

/-- Every record takes room, so a run of records never ends before its start. -/
theorem RecordAt.lt {msg : Message} {off next : Nat} {r : ResourceRecord}
    (h : RecordAt msg off r next) : off + 10 < next := by
  obtain ⟨name, _, _⟩ := h
  have hn : ∀ {o n : Nat} {ls : List Label}, NameAt msg o ls n → o < n := by
    intro o n ls h
    induction h with
    | root => omega
    | label => omega
    | pointer => omega
  have := hn name
  omega

theorem RecordsAt.le {msg : Message} {off next : Nat} {rs : List ResourceRecord}
    (h : RecordsAt msg off rs next) : off ≤ next := by
  induction h with
  | nil => exact Nat.le_refl _
  | cons head tail ih =>
    have := head.lt
    omega

/-- Records that take no room are none. -/
theorem RecordsAt.eq_nil {msg : Message} {off next : Nat} {rs : List ResourceRecord}
    (h : RecordsAt msg off rs next) (he : next ≤ off) : rs = [] := by
  cases h with
  | nil => rfl
  | cons head tail =>
    have := head.lt
    have := tail.le
    omega

/-- `QuestionsAt msg off n next`: from `off` up to `next` there are `n` questions,
each of them a name, a type and a class. -/
inductive QuestionsAt (msg : Message) : Nat → Nat → Nat → Prop
  | nil {off : Nat} : QuestionsAt msg off 0 off
  | cons {off mid next n : Nat} {labels : List Label} (name : NameAt msg off labels mid)
      (fixed : mid + 4 ≤ msg.length) (tail : QuestionsAt msg (mid + 4) n next) :
      QuestionsAt msg off (n + 1) next

/-- A position and a number of questions determine where they end. -/
theorem QuestionsAt.unique {msg : Message} {off n a b : Nat} (h : QuestionsAt msg off n a)
    (h' : QuestionsAt msg off n b) : a = b := by
  induction h with
  | nil =>
    cases h' with
    | nil => rfl
  | cons name _ _ ih =>
    cases h' with
    | cons name' _ tail' =>
      rw [← (name.unique name').2] at tail'
      exact ih tail'

/-- From `off` up to the end of the message there are so many records in the answer,
the authority and the additional section. -/
def SectionsAt (msg : Message) (off answers authorities additionals : Nat) : Prop :=
  ∃ as bs cs o p, RecordsAt msg off as o ∧ RecordsAt msg o bs p ∧
    RecordsAt msg p cs msg.length ∧
    as.length = answers ∧ bs.length = authorities ∧ cs.length = additionals

/-- Sections are empty exactly when there is nothing left for them. -/
theorem SectionsAt.end_iff {msg : Message} {off an ns ar : Nat} (h : SectionsAt msg off an ns ar) :
    off = msg.length ↔ an = 0 ∧ ns = 0 ∧ ar = 0 := by
  obtain ⟨as, bs, cs, o, p, ha, hb, hc, rfl, rfl, rfl⟩ := h
  have hao := ha.le
  have hop := hb.le
  have hpm := hc.le
  constructor
  · rintro rfl
    rw [ha.eq_nil (by omega), hb.eq_nil (by omega), hc.eq_nil (by omega)]
    exact ⟨rfl, rfl, rfl⟩
  · simp only [List.length_eq_zero_iff]
    rintro ⟨rfl, rfl, rfl⟩
    cases ha
    cases hb
    cases hc
    rfl

theorem sectionsAt_end (msg : Message) : SectionsAt msg msg.length 0 0 0 :=
  ⟨[], [], [], _, _, .nil, .nil, .nil, rfl, rfl, rfl⟩

/-- The number of octets that a name takes in place. Every label uses up one
unit of fuel. -/
def nameLength : Nat → List UInt8 → Option Nat
  | 0, _ => none
  | _, [] => none
  | fuel + 1, b :: rest =>
    if b = 0 then some 1
    else if 192 ≤ b.toNat then if rest = [] then none else some 2
    else if b.toNat ≤ 63 ∧ b.toNat ≤ rest.length then
      (nameLength fuel (rest.drop b.toNat)).map (fun n => 1 + b.toNat + n)
    else none

/-- The number of octets that `n` questions take: a name, a type and a class
each. -/
def questionsLength : Nat → List UInt8 → Option Nat
  | 0, _ => some 0
  | n + 1, bs => do
    let k ← nameLength (bs.length + 1) bs
    if k + 4 ≤ bs.length then (questionsLength n (bs.drop (k + 4))).map (fun r => k + 4 + r)
    else none

end Rfc1035
