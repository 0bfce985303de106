import OdbcDns.Util
import OdbcDns.Proofs.Bytes

namespace OdbcDns
open Rfc1035 Slice

/-- Labels joined by dots. -/
def text : List Label → List Byte
  | [] => []
  | [l] => l
  | l :: ls => l ++ dot :: text ls

/-- A name whose text and wire form the program can tell apart from others: no
label holds a separator or a terminator, and the text fits the name buffers. -/
structure DomainName where
  labels : List Label
  nonempty : labels ≠ []
  ok : ∀ l ∈ labels, LabelOk l
  plain : ∀ l ∈ labels, dot ∉ l ∧ (0 : Byte) ∉ l
  short : (text labels).length ≤ 254

namespace DomainName

def text (n : DomainName) : List Byte := OdbcDns.text n.labels

def wire (n : DomainName) : List Byte := Rfc1035.wire n.labels

end DomainName

theorem text_cons_cons (l k : Label) (ls : List Label) :
    text (l :: k :: ls) = l ++ dot :: text (k :: ls) := rfl

/-- The wire form of a name is two bytes longer than its text. -/
theorem length_wire {ls : List Label} (h : ls ≠ []) :
    (wire ls).length = (text ls).length + 2 := by
  induction ls with
  | nil => exact absurd rfl h
  | cons l ls ih =>
    cases ls with
    | nil => simp [wire, text]
    | cons k ks =>
      have hi := ih (List.cons_ne_nil k ks)
      rw [text_cons_cons]
      simp only [wire, List.length_cons, List.length_append] at hi ⊢
      omega

theorem DomainName.length_wire (n : DomainName) : n.wire.length = n.text.length + 2 :=
  OdbcDns.length_wire n.nonempty

theorem not_mem_text {ls : List Label} {b : Byte} (hb : b ≠ dot) (h : ∀ l ∈ ls, b ∉ l) :
    b ∉ text ls := by
  induction ls with
  | nil => simp [text]
  | cons l ls ih =>
    have hl := h l (by simp)
    have ht := ih (fun k hk => h k (by simp [hk]))
    cases ls with
    | nil => exact hl
    | cons k ks =>
      rw [text_cons_cons]
      simp only [List.mem_append, List.mem_cons, not_or]
      exact ⟨hl, hb, ht⟩

theorem DomainName.zero_not_mem (n : DomainName) : (0 : Byte) ∉ n.text :=
  not_mem_text (by decide) (fun l hl => (n.plain l hl).2)

theorem length_label_le_wire {ls : List Label} {l : Label} (h : l ∈ ls) :
    l.length + 2 ≤ (wire ls).length := by
  induction ls with
  | nil => simp at h
  | cons k ks ih =>
    simp only [wire, List.length_cons, List.length_append]
    rcases List.mem_cons.mp h with rfl | hk
    · have := length_wire_pos ks
      omega
    · have := ih hk
      omega

theorem length_takeWhile_lt {l : Label} (h : dot ∈ l) (rest : List Byte) :
    ((l ++ rest).takeWhile (· ≠ dot)).length < l.length := by
  induction l with
  | nil => cases h
  | cons b l ih =>
    by_cases hb : b = dot
    · simp [hb]
    · have := ih ((List.mem_cons.mp h).resolve_left fun he => hb he.symm)
      simpa [hb] using this

theorem takeWhile_label {l : Label} (hl : dot ∉ l) (rest : List Byte) :
    (l ++ dot :: rest).takeWhile (· ≠ dot) = l := by
  rw [List.takeWhile_append_of_pos]
  · simp
  · intro b hb
    have : b ≠ dot := fun he => hl (he ▸ hb)
    simpa using this

theorem takeWhile_last {l : Label} (hl : dot ∉ l) : l.takeWhile (· ≠ dot) = l := by
  rw [List.takeWhile_eq_self_iff]
  intro b hb
  have : b ≠ dot := fun he => hl (he ▸ hb)
  simpa using this

/-- The encoder writes the labels as they are split at the dots, unless one of
them is longer than the buffer. -/
theorem encodeLoop_text {ls : List Label} (hne : ls ≠ []) (hok : ∀ l ∈ ls, LabelOk l)
    (hp : ∀ l ∈ ls, dot ∉ l) (bufLen fuel : Nat) (hf : ls.length ≤ fuel) :
    ∃ bs, bs ++ [0] = wire ls ∧ encodeLoop bufLen fuel (text ls) =
      if ∀ l ∈ ls, l.length ≤ bufLen then .ok bs else .error (.fault .invalidParameter) := by
  induction ls generalizing fuel with
  | nil => exact absurd rfl hne
  | cons l ls ih =>
    have hl := (hok l (by simp)).2
    have hm : l.length % 256 = l.length := Nat.mod_eq_of_lt (by omega)
    have hd := hp l (by simp)
    cases fuel with
    | zero => simp at hf
    | succ fuel =>
      cases ls with
      | nil =>
        refine ⟨UInt8.ofNat l.length :: l, by simp [wire], ?_⟩
        simp only [encodeLoop, text, takeWhile_last hd, hm, hd, if_false, List.take_length,
          List.mem_singleton, forall_eq]
        by_cases hb : l.length ≤ bufLen
        · rw [if_neg (Nat.not_lt.mpr hb), if_pos hb]
        · rw [if_pos (Nat.lt_of_not_le hb), if_neg hb]
      | cons k ks =>
        obtain ⟨bs, hw, he⟩ := ih (List.cons_ne_nil k ks) (fun j hj => hok j (by simp [hj]))
          (fun j hj => hp j (by simp [hj])) fuel (by simpa using hf)
        refine ⟨UInt8.ofNat l.length :: (l ++ bs), by rw [wire, ← hw]; simp, ?_⟩
        have hdrop : (l ++ dot :: text (k :: ks)).drop (l.length + 1) = text (k :: ks) := by
          rw [List.drop_append]
          simp
        rw [text_cons_cons]
        simp only [encodeLoop, takeWhile_label hd, hm, List.mem_append, List.mem_cons, true_or,
          or_true, if_true, hdrop, he, List.take_left]
        by_cases hb : l.length ≤ bufLen
        · rw [if_neg (Nat.not_lt.mpr hb)]
          by_cases hr : ∀ j ∈ k :: ks, j.length ≤ bufLen
          · have hall : ∀ j ∈ l :: k :: ks, j.length ≤ bufLen := List.forall_mem_cons.mpr ⟨hb, hr⟩
            rw [if_pos hr, if_pos hall]
            rfl
          · have hall : ¬ ∀ j ∈ l :: k :: ks, j.length ≤ bufLen :=
              fun h => hr (List.forall_mem_cons.mp h).2
            rw [if_neg hr, if_neg hall]
            rfl
        · rw [if_pos (Nat.lt_of_not_le hb), if_neg (fun h => hb (h l (by simp)))]

theorem length_le_text {ls : List Label} (h : ls ≠ []) : ls.length ≤ (text ls).length + 1 := by
  induction ls with
  | nil => simp
  | cons l ls ih =>
    cases ls with
    | nil => simp
    | cons k ks =>
      have := ih (List.cons_ne_nil k ks)
      rw [text_cons_cons]
      simp only [List.length_cons, List.length_append] at this ⊢
      omega

/-- `encodeName` writes the wire form when every label fits the buffer. -/
theorem DomainName.encodeName_text (n : DomainName) (bufLen : Nat) :
    encodeName n.text bufLen = if ∀ l ∈ n.labels, l.length ≤ bufLen then .ok n.wire
      else .error (.fault .invalidParameter) := by
  obtain ⟨bs, hw, he⟩ := encodeLoop_text n.nonempty n.ok (fun l hl => (n.plain l hl).1) bufLen
    _ (length_le_text n.nonempty)
  unfold encodeName DomainName.text DomainName.wire
  rw [he, ← hw]
  split <;> rfl

theorem copyLabel_append {bufLen : Nat} (l rest out : List Byte)
    (h : out.length + l.length ≤ bufLen) :
    copyLabel bufLen l.length (l ++ rest) out = .ok (out ++ l) := by
  induction l generalizing out with
  | nil => simp [copyLabel]
  | cons b l ih =>
    simp only [List.length_cons] at h
    have hn : ¬ out.length + 1 > bufLen := by omega
    simp only [List.length_cons, List.cons_append, copyLabel, hn, if_false]
    rw [ih (out ++ [b]) (by simp; omega)]
    simp

/-- A turn of the decoder over a label that finds room. -/
theorem decodeLoop_label {l : Label} (ok : LabelOk l) (packet : List Byte) {bufLen : Nat}
    {out : List Byte} (room : out.length + l.length + 1 ≤ bufLen) (fuel : Nat)
    (rest : List Byte) :
    decodeLoop packet bufLen (fuel + 1) (UInt8.ofNat l.length :: (l ++ rest)) out =
      decodeLoop packet bufLen fuel rest (out ++ l ++ [dot]) := by
  have hn := ok.toNat_length
  have h0 : ¬ charToUnsigned (UInt8.ofNat l.length) &&& 0xC0 = 0xC0 := by
    rw [charToUnsigned_pointer, hn]
    have := ok.2
    omega
  have h1 : ¬ charToUnsigned (UInt8.ofNat l.length) > 63 := by
    rw [charToUnsigned_long, hn]
    exact Nat.not_lt.mpr ok.2
  have h2 : ¬ (out ++ l).length + 1 > bufLen := by
    rw [List.length_append]
    omega
  simp only [decodeLoop, h0, h1, if_false, hn]
  rw [copyLabel_append l _ out (by omega)]
  simp only [bind, Except.bind, h2, if_false, ok.ofNat_ne_zero, List.drop_left]

/-- The bytes that the decoder leaves for a name: a dot behind every label and
one for the root. -/
def dotted : List Label → List Byte
  | [] => [dot]
  | l :: ls => l ++ dot :: dotted ls

theorem decodeLoop_wire {ls : List Label} (hok : ∀ l ∈ ls, LabelOk l) (packet rest : List Byte)
    (bufLen fuel : Nat) (out : List Byte) (hb : out.length + (dotted ls).length ≤ bufLen)
    (hf : ls.length < fuel) :
    decodeLoop packet bufLen fuel (wire ls ++ rest) out = .ok (out ++ dotted ls) := by
  induction ls generalizing fuel out with
  | nil =>
    cases fuel with
    | zero => omega
    | succ fuel =>
      have h0 : ¬ charToUnsigned 0 &&& 0xC0 = 0xC0 := by decide
      have h1 : ¬ charToUnsigned 0 > 63 := by decide
      have h2 : ¬ out.length + 1 > bufLen := by simp [dotted] at hb; omega
      simp only [wire, List.cons_append, decodeLoop, h0, h1, if_false]
      simp [copyLabel, h2, dotted, bind, Except.bind]
  | cons l ls ih =>
    cases fuel with
    | zero => omega
    | succ fuel =>
      have hlen : (dotted (l :: ls)).length = l.length + 1 + (dotted ls).length := by
        simp only [dotted, List.length_append, List.length_cons]
        omega
      simp only [wire, List.cons_append, List.append_assoc]
      rw [decodeLoop_label (hok l (by simp)) packet (by omega),
        ih (fun k hk => hok k (by simp [hk])) fuel (out ++ l ++ [dot])
          (by simp only [List.length_append, List.length_singleton]; omega)
          (by simpa using hf)]
      simp [dotted]

theorem dotted_eq {ls : List Label} (h : ls ≠ []) : dotted ls = text ls ++ [dot, dot] := by
  induction ls with
  | nil => exact absurd rfl h
  | cons l ls ih =>
    cases ls with
    | nil => simp [dotted, text]
    | cons k ks =>
      rw [dotted, ih (List.cons_ne_nil k ks), text_cons_cons]
      simp

theorem wire_eq_cons {ls : List Label} (ok : ∀ l ∈ ls, LabelOk l) :
    ∃ b bs, wire ls = b :: bs ∧ b.toNat ≤ 63 := by
  cases ls with
  | nil => exact ⟨0, [], rfl, by decide⟩
  | cons l ls =>
    have hl := ok l (by simp)
    exact ⟨_, _, rfl, by rw [hl.toNat_length]; exact hl.2⟩

theorem wire_concat (ls : List Label) : ∃ bs, wire ls = bs ++ [0] := by
  induction ls with
  | nil => exact ⟨[], rfl⟩
  | cons l ls ih =>
    obtain ⟨bs, he⟩ := ih
    exact ⟨UInt8.ofNat l.length :: (l ++ bs), by simp [wire, he]⟩

/-- The root ends a wire name for `strlen`, if no NUL of a label does. -/
theorem strlen_wire (ls : List Label) (rest : List Byte) :
    ∃ n, strlen (wire ls ++ rest) = .ok n ∧ n < (wire ls).length := by
  obtain ⟨bs, he⟩ := wire_concat ls
  refine ⟨(cstr bs).length, ?_, ?_⟩
  · rw [he, List.append_assoc, List.singleton_append, strlen, if_pos (by simp),
      cstr_append_zero]
  · rw [he, List.length_append, List.length_singleton]
    exact Nat.lt_succ_of_le (length_cstr_le bs)

/-- `decodeName` on a spelled-out name, whatever its labels hold and whatever the
packet is. -/
theorem decodeName_labels {ls : List Label} (hne : ls ≠ []) (hok : ∀ l ∈ ls, LabelOk l)
    (hshort : (text ls).length ≤ 254) (packet rest : List Byte) :
    decodeName (wire ls ++ rest) packet 256 = .ok (cstr (text ls), (text ls).length + 2) := by
  have hd := dotted_eq hne
  have hw := length_wire hne
  have hlen : (dotted ls).length = (text ls).length + 2 := by simp [hd]
  have hlabels := length_le_text hne
  obtain ⟨n, hs, hn⟩ := strlen_wire ls rest
  have hloop : decodeLoop packet 256 (decodeFuel 256) (wire ls ++ rest) [] =
      .ok (text ls ++ [dot, dot]) := by
    have h := decodeLoop_wire hok packet rest 256 (decodeFuel 256) []
      (by simp; omega) (by unfold decodeFuel; omega)
    rw [hd, List.nil_append] at h
    exact h
  have hset : (text ls ++ [dot, dot]).set (text ls).length 0 = text ls ++ 0 :: [dot] := by
    rw [List.set_append_right _ _ (Nat.le_refl _), Nat.sub_self]
    rfl
  have h1 : ¬ n > 255 := by omega
  have h2 : ¬ (text ls).length + 2 < 2 := by omega
  unfold decodeName decodeNameWithin
  rw [hs]
  simp only [bind, Except.bind, h1, if_false, hloop]
  simp only [List.length_append, List.length_cons, List.length_nil, Nat.zero_add, Nat.reduceAdd,
    h2, if_false, Nat.add_sub_cancel, hset, cstr_append_zero]

/-- For the root there is no dot to write the terminator over. -/
theorem decodeName_root (packet rest : List Byte) :
    decodeName (wire [] ++ rest) packet 256 = .error (.fault .outOfBounds) := by
  obtain ⟨n, hs, hn⟩ := strlen_wire [] rest
  have hloop : decodeLoop packet 256 (decodeFuel 256) (wire [] ++ rest) [] =
      .ok ([] ++ dotted []) :=
    decodeLoop_wire (by simp) packet rest 256 _ [] (by simp [dotted]) (by unfold decodeFuel; decide)
  have h1 : ¬ n > 255 := by
    simp only [wire, List.length_singleton] at hn
    omega
  unfold decodeName decodeNameWithin
  rw [hs]
  simp only [bind, Except.bind, h1, if_false, hloop]
  rfl

/-- `decodeName` reads a spelled-out name back, whatever the packet is. -/
theorem DomainName.decodeName_wire (n : DomainName) (packet rest : List Byte) :
    decodeName (n.wire ++ rest) packet 256 = .ok (n.text, n.text.length + 2) := by
  have h : decodeName (n.wire ++ rest) packet 256 = .ok (cstr n.text, n.text.length + 2) :=
    decodeName_labels n.nonempty n.ok n.short packet rest
  rwa [cstr_eq_self n.zero_not_mem] at h

end OdbcDns
