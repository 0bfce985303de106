import OdbcDns.Access
import OdbcDns.Proofs.Expansion

namespace OdbcDns
open Rfc1035 Slice

theorem Memory.from_add (mem : Memory) (a : Address) (n : Nat) :
    mem.from (a.add n) = (mem.from a).drop n := by
  simp [Memory.from, Address.add, List.drop_drop]

theorem load_of_cons {mem : Memory} {a : Address} {b : Byte} {rest : List Byte}
    (h : mem.from a = b :: rest) : load mem a = (.ok b, [.load a]) := by
  have hb : (mem a.region)[a.offset]? = some b := by
    rw [← List.head?_drop, ← Memory.from, h, List.head?_cons]
  simp only [load, readByte, hb]
  rfl

theorem load_of_nil {mem : Memory} {a : Address} (h : mem.from a = []) :
    load mem a = (.error (.fault .outOfBounds), [.load a]) := by
  have hb : (mem a.region)[a.offset]? = none := by
    rw [← List.head?_drop, ← Memory.from, h, List.head?_nil]
  simp only [load, readByte, hb]
  rfl

/-- The variables of the loop when these bytes have been written. -/
def Cursor.behind (out : List Byte) : Cursor := ⟨out.length, out.length⟩

/-- The room that the loop uses of a buffer: `dstLoc` is an `int`. -/
def usable (bufLen : Nat) : Nat := min bufLen 2147483647

section Cursor

variable {out : List Byte} {bufLen : Nat}

theorem toInt_of_lt {n : Int} (h : -2147483648 ≤ n) (h' : n < 2147483648) : toInt n = n := by
  unfold toInt
  omega

theorem usable_cases (bufLen : Nat) : usable bufLen ≤ bufLen ∧
    (usable bufLen = bufLen ∨ usable bufLen = 2147483647) ∧ usable bufLen ≤ 2147483647 := by
  unfold usable
  omega

theorem Cursor.full_behind (hb : bufLen < 9223372036854775808) (h : out.length ≤ usable bufLen) :
    (Cursor.behind out).full bufLen ↔ out.length + 1 > usable bufLen := by
  obtain ⟨hle, hor, hmax⟩ := usable_cases bufLen
  show toSize (toInt ((out.length : Int) + 1)) > bufLen ↔ _
  by_cases hm : out.length = 2147483647
  · have hs : toSize (toInt ((out.length : Int) + 1)) = 18446744071562067968 := by
      rw [hm]
      rfl
    rw [hs]
    omega
  · rw [toInt_of_lt (by omega) (by omega), toSize_of_lt (by omega) (by omega)]
    omega

theorem Cursor.next_behind (h : out.length < usable bufLen) (b : Byte) :
    (Cursor.behind out).next = .behind (out ++ [b]) := by
  obtain ⟨hle, hor, hmax⟩ := usable_cases bufLen
  have hd : toInt ((out.length : Int) + 1) = ((out ++ [b]).length : Int) := by
    rw [toInt_of_lt (by omega) (by omega), List.length_append, List.length_singleton]
    rfl
  have hn : sizeAdd out.length 1 = (out ++ [b]).length := by
    rw [sizeAdd_of_lt (by omega), List.length_append, List.length_singleton]
  show Cursor.mk (toInt ((out.length : Int) + 1)) (sizeAdd out.length 1) = _
  rw [hd, hn]
  rfl

end Cursor

theorem length_apply (buffer : List Byte) (a : Access) :
    (a.apply buffer).length = buffer.length := by
  cases a with
  | load a => rfl
  | store i b =>
    show (if 0 ≤ i then buffer.set i.toNat b else buffer).length = _
    split
    · exact List.length_set
    · rfl

@[simp] theorem length_outputBuffer (buffer : List Byte) (log : List Access) :
    (outputBuffer buffer log).length = buffer.length := by
  induction log generalizing buffer with
  | nil => rfl
  | cons a log ih => exact (ih _).trans (length_apply buffer a)

theorem outputBuffer_append (buffer : List Byte) (log log' : List Access) :
    outputBuffer buffer (log ++ log') = outputBuffer (outputBuffer buffer log) log' :=
  List.foldl_append

/-- A byte stored behind a prefix extends it. -/
theorem prefix_set {out buffer : List Byte} (h : out <+: buffer) (hl : out.length < buffer.length)
    (b : Byte) : out ++ [b] <+: buffer.set out.length b := by
  obtain ⟨rest, rfl⟩ := h
  cases rest with
  | nil => simp at hl
  | cons c rest =>
    rw [List.set_append_right _ _ (Nat.le_refl _), Nat.sub_self, List.set_cons_zero]
    exact ⟨rest, by simp⟩

/-- A traced computation of cursors does what one on the written bytes does: it ends the
same way, stores inside the buffer only, and leaves what is written at its start. -/
structure Writes (room : Nat) (x : Traced Cursor) (out : List Byte)
    (r : Except Stop (List Byte)) : Prop where
  result : x.1 = r.map Cursor.behind
  inside : Logged.All (Access.Inside room) x
  buffer : ∀ o buf, r = .ok o → room ≤ buf.length → out <+: buf → o <+: outputBuffer buf x.2

namespace Writes

variable {room : Nat} {out : List Byte}

theorem pure (out : List Byte) : Writes room (pure (.behind out)) out (.ok out) :=
  ⟨rfl, .pure _, by rintro o buf ⟨⟩ _ h; exact h⟩

theorem stop (e : Stop) : Writes room (Logged.stop e) out (.error e) :=
  ⟨rfl, .stop e, by rintro o buf ⟨⟩⟩

theorem bind {x : Traced Cursor} {f : Cursor → Traced Cursor} {r : Except Stop (List Byte)}
    {g : List Byte → Except Stop (List Byte)} (hx : Writes room x out r)
    (hf : ∀ o, r = .ok o → Writes room (f (.behind o)) o (g o)) :
    Writes room (x >>= f) out (r >>= g) := by
  cases hr : r with
  | error e =>
    have he : x.1 = .error e := by simp [hx.result, hr, Except.map]
    rw [Logged.bind_of_error f he]
    exact ⟨rfl, hx.inside, by rintro o buf ⟨⟩⟩
  | ok o =>
    have ho : x.1 = .ok (.behind o) := by simp [hx.result, hr, Except.map]
    have hg := hf o hr
    refine ⟨?_, .bind hx.inside fun c hc => ?_, fun o' buf ho' hl hp => ?_⟩
    · rw [Logged.bind_of_ok f ho]
      exact hg.result
    · cases ho.symm.trans hc
      exact hg.inside
    · rw [Logged.bind_of_ok f ho, outputBuffer_append]
      exact hg.buffer o' _ ho' (by rwa [length_outputBuffer]) (hx.buffer o buf hr hl hp)

theorem logged {w : Access} {f : Unit → Traced Cursor} {r : Except Stop (List Byte)}
    {out' : List Byte} (hw : w.Inside room) (hf : Writes room (f ()) out' r)
    (hb : ∀ buf, room ≤ buf.length → out <+: buf → out' <+: w.apply buf) :
    Writes room (Logged.log w >>= f) out r := by
  rw [Logged.bind_of_ok f (Logged.fst_log w)]
  refine ⟨hf.result, ?_, fun o buf ho hl hp => ?_⟩
  · intro v hv
    rcases List.mem_cons.mp hv with rfl | hv
    · exact hw
    · exact hf.inside v hv
  · exact hf.buffer o _ ho (by rwa [length_apply]) (hb buf hl hp)

/-- A load does not change what has been written. -/
theorem load {mem : Memory} {a : Address} {f : Byte → Traced Cursor} {b : Byte}
    {rest : List Byte} {r : Except Stop (List Byte)} (hm : mem.from a = b :: rest)
    (hf : Writes room (f b) out r) : Writes room (OdbcDns.load mem a >>= f) out r := by
  rw [load_of_cons hm]
  exact logged (f := fun _ => f b) trivial hf fun _ _ h => h

theorem load_nil {mem : Memory} {a : Address} {f : Byte → Traced Cursor} (hm : mem.from a = []) :
    Writes room (OdbcDns.load mem a >>= f) out (.error (.fault .outOfBounds)) := by
  rw [load_of_nil hm]
  exact logged (f := fun _ => Logged.stop _) trivial (.stop _) fun _ _ h => h

/-- The next byte is stored behind those that have been written. -/
theorem store {b : Byte} {f : Unit → Traced Cursor} {r : Except Stop (List Byte)}
    (hl : out.length < room) (hf : Writes room (f ()) (out ++ [b]) r) :
    Writes room (Logged.log (.store (Cursor.behind out).dstLoc b) >>= f) out r := by
  refine logged ⟨?_, ?_⟩ hf fun buf hbuf hp => ?_
  · exact Int.natCast_nonneg _
  · exact Int.ofNat_lt.mpr hl
  · exact prefix_set hp (by omega) b

end Writes

section Trace

variable {mem : Memory} {bufLen : Nat}

theorem copyLabelAt_writes (hb : bufLen < 9223372036854775808) (n : Nat) (src : Address)
    {out : List Byte} (h : out.length ≤ usable bufLen) :
    Writes (usable bufLen) (copyLabelAt mem bufLen n src (.behind out)) out
      (copyLabel (usable bufLen) n (mem.from src) out) := by
  induction n generalizing src out with
  | zero => exact .pure out
  | succ n ih =>
    unfold copyLabelAt copyLabel
    rw [if_congr (Cursor.full_behind hb h) rfl rfl]
    split
    · exact .stop _
    · cases hm : mem.from src with
      | nil => exact .load_nil hm
      | cons b rest =>
        have hlt : out.length < usable bufLen := by omega
        refine .load hm (.store hlt ?_)
        rw [Cursor.next_behind hlt b]
        have := @ih (src.add 1) (out ++ [b]) (by rw [List.length_append]; exact hlt)
        rwa [Memory.from_add, hm] at this

theorem decodeLoopAt_writes (hb : bufLen < 9223372036854775808) (message : Region) (fuel : Nat)
    (src : Address) {out : List Byte} (h : out.length ≤ usable bufLen) :
    Writes (usable bufLen) (decodeLoopAt mem message bufLen fuel src (.behind out)) out
      (decodeLoop (mem message) (usable bufLen) fuel (mem.from src) out) := by
  induction fuel generalizing src out with
  | zero => exact .stop _
  | succ fuel ih =>
    unfold decodeLoopAt decodeLoop
    cases hm : mem.from src with
    | nil => exact .load_nil hm
    | cons b0 rest =>
      refine .load hm ?_
      have hrest : ∀ n, mem.from (src.add (n + 1)) = rest.drop n := by
        intro n
        rw [Memory.from_add, hm, List.drop_succ_cons]
      by_cases hp : charToUnsigned b0 &&& 0xC0 = 0xC0
      · rw [if_pos hp]
        simp only [hp, if_true]
        cases rest with
        | nil => exact .load_nil (hrest 0)
        | cons b1 rest => exact .load (hrest 0) (ih ⟨message, pointerOffset b0 b1⟩ h)
      · rw [if_neg hp]
        simp only [hp, if_false]
        split
        · exact .stop _
        · have copied := @copyLabelAt_writes mem bufLen hb b0.toNat (src.add 1) _ h
          rw [hrest 0] at copied
          refine copied.bind fun o ho => ?_
          have hlen : o.length ≤ usable bufLen := copyLabel_length ho h
          rw [if_congr (Cursor.full_behind hb hlen) rfl rfl]
          split
          · exact .stop _
          · have hlt : o.length < usable bufLen := by omega
            refine .store hlt ?_
            rw [Cursor.next_behind hlt dot]
            split
            · exact .pure _
            · rw [← hrest]
              exact ih _ (by rw [List.length_append]; exact hlt)

/-- The loop as `decodeName` enters it. -/
theorem decodeLoopAt_start (hb : bufLen < 9223372036854775808) (message : Region)
    (name : Address) :
    Writes (usable bufLen) (decodeLoopAt mem message bufLen (decodeFuel bufLen) name ⟨0, 0⟩) []
      (decodeLoop (mem message) (usable bufLen) (decodeFuel bufLen) (mem.from name) []) := by
  have start : (⟨0, 0⟩ : Cursor) = .behind [] := rfl
  rw [start]
  exact decodeLoopAt_writes hb message (decodeFuel bufLen) name (Nat.zero_le _)

theorem strlenAt_result (a : Address) (bytes : List Byte) (n : Nat) :
    (strlenAt a bytes n).1 = (strlen bytes).map (n + ·) := by
  induction bytes generalizing a n with
  | nil => rfl
  | cons b rest ih =>
    unfold strlenAt
    rw [Logged.bind_of_ok _ (Logged.fst_log _)]
    by_cases hz : b = 0
    · simp [hz, strlen, cstr, Except.map]
    · have hz' : ¬ 0 = b := fun h => hz h.symm
      simp only [hz, if_false, ih, strlen, List.mem_cons, hz', false_or]
      split
      · have : cstr (b :: rest) = b :: cstr rest := by simp [cstr, hz]
        simp only [this, Except.map, List.length_cons, Except.ok.injEq]
        omega
      · rfl

theorem strlenAt_inside (room : Nat) (a : Address) (bytes : List Byte) (n : Nat) :
    Logged.All (Access.Inside room) (strlenAt a bytes n) := by
  induction bytes generalizing a n with
  | nil => exact .bind (.log trivial) fun _ _ => .stop _
  | cons b rest ih =>
    refine .bind (.log trivial) fun _ _ => ?_
    split
    · exact .pure n
    · exact ih _ _

variable {message : Region} {name : Address}

/-- The part of `decodeName` behind the check of the length. -/
theorem decodeNameAt_of_entered (message : Region) (bufLen : Nat) (h : Entered (mem.from name)) :
    ∃ log, (∀ room, ∀ a ∈ log, a.Inside room) ∧ decodeNameAt mem name message bufLen =
      match decodeLoopAt mem message bufLen (decodeFuel bufLen) name ⟨0, 0⟩ with
      | (.ok c, l) => (.ok c.bytesRead, log ++ l ++ [.store (toInt (c.dstLoc - 2)) 0])
      | (.error e, l) => (.error e, log ++ l) := by
  obtain ⟨k, hk, hle⟩ := h
  have hs : (strlenAt name (mem.from name) 0).1 = .ok k := by
    rw [strlenAt_result, hk]
    simp [Except.map]
  refine ⟨_, fun room => strlenAt_inside room name (mem.from name) 0, ?_⟩
  unfold decodeNameAt
  rw [Logged.bind_of_ok _ hs, if_neg (Nat.not_lt.mpr hle)]
  rcases decodeLoopAt mem message bufLen (decodeFuel bufLen) name ⟨0, 0⟩ with ⟨e | c, l⟩
  · rfl
  · simp only [List.append_assoc]
    rfl

theorem decodeNameAt_of_not_entered (message : Region) (bufLen : Nat)
    (h : ¬ Entered (mem.from name)) :
    (∃ e, (decodeNameAt mem name message bufLen).1 = .error e) ∧
      ∀ room, Logged.All (Access.Inside room) (decodeNameAt mem name message bufLen) := by
  have hs := strlenAt_result name (mem.from name) 0
  have inside : ∀ room, _ := fun room => strlenAt_inside room name (mem.from name) 0
  unfold decodeNameAt
  cases hk : strlen (mem.from name) with
  | error e =>
    rw [hk] at hs
    rw [Logged.bind_of_error _ hs]
    exact ⟨⟨e, rfl⟩, inside⟩
  | ok k =>
    have long : k > 255 := Nat.lt_of_not_le fun hle => h ⟨k, hk, hle⟩
    rw [hk] at hs
    rw [Logged.bind_of_ok _ hs]
    simp only [Nat.zero_add, long, if_true, Logged.snd_stop, List.append_nil]
    exact ⟨⟨_, rfl⟩, inside⟩

/-- What `decodeName` has done when it returns: all stores but the last one are inside
the buffer and leave the labels there. The last one goes to two bytes before the end. -/
structure Returned (mem : Memory) (name : Address) (message : Region) (bufLen : Nat)
    (ls : List Label) : Prop where
  entered : Entered (mem.from name)
  reads : ReadAs (mem message) (mem.from name) ls
  room : (wire ls).length ≤ usable bufLen
  trace : ∃ log, decodeNameAt mem name message bufLen =
      (.ok (wire ls).length, log ++ [.store (((wire ls).length : Int) - 2) 0]) ∧
    (∀ a ∈ log, a.Inside (usable bufLen)) ∧
    ∀ buf, usable bufLen ≤ buf.length → dotted ls <+: outputBuffer buf log

theorem returned_iff (hb : bufLen < 9223372036854775808) {ls : List Label} :
    Returned mem name message bufLen ls ↔ Entered (mem.from name) ∧
      ReadAs (mem message) (mem.from name) ls ∧ (wire ls).length ≤ usable bufLen := by
  refine ⟨fun h => ⟨h.entered, h.reads, h.room⟩, fun ⟨he, hr, room⟩ => ⟨he, hr, room, ?_⟩⟩
  obtain ⟨hle, _, hmax⟩ := usable_cases bufLen
  have writes := @decodeLoopAt_start mem bufLen hb message name
  have loop : decodeLoop (mem message) (usable bufLen) (decodeFuel bufLen) (mem.from name) [] =
      .ok (dotted ls) :=
    hr.decodeLoop (by rwa [length_dotted]) (Nat.mul_le_mul_right _ (by omega))
  rw [loop] at writes
  obtain ⟨log, hlog, heq⟩ := decodeNameAt_of_entered message bufLen he
  rcases hx : decodeLoopAt mem message bufLen (decodeFuel bufLen) name ⟨0, 0⟩ with ⟨r, l⟩
  rw [hx] at writes heq
  obtain rfl : r = .ok (.behind (dotted ls)) := writes.result
  refine ⟨log ++ l, ?_, ?_, ?_⟩
  · rw [heq]
    have hpos := length_wire_pos ls
    simp only [Cursor.behind, length_dotted, toInt_of_lt (n := ((wire ls).length : Int) - 2)
      (by omega) (by omega)]
    rfl
  · intro a ha
    rcases List.mem_append.mp ha with ha | ha
    · exact hlog _ a ha
    · exact writes.inside a ha
  · intro buf hbuf
    rw [outputBuffer_append]
    exact writes.buffer _ _ rfl (by rwa [length_outputBuffer]) (List.nil_prefix)

/-- Otherwise it does not return, and every store is inside the buffer. -/
theorem not_returned (hb : bufLen < 9223372036854775808)
    (h : ∀ ls, ¬ Returned mem name message bufLen ls) :
    (∃ e, (decodeNameAt mem name message bufLen).1 = .error e) ∧
      Logged.All (Access.Inside (usable bufLen)) (decodeNameAt mem name message bufLen) := by
  by_cases he : Entered (mem.from name)
  · have writes := @decodeLoopAt_start mem bufLen hb message name
    obtain ⟨log, hlog, heq⟩ := decodeNameAt_of_entered message bufLen he
    rcases hx : decodeLoopAt mem message bufLen (decodeFuel bufLen) name ⟨0, 0⟩ with ⟨r, l⟩
    rw [hx] at writes heq
    cases hr : decodeLoop (mem message) (usable bufLen) (decodeFuel bufLen) (mem.from name) [] with
    | ok out =>
      obtain ⟨ls, reads, rfl, room⟩ := readAs_of_decodeLoop hr
      rw [List.nil_append, length_dotted] at room
      exact absurd ((returned_iff hb).mpr ⟨he, reads, room⟩) (h ls)
    | error e =>
      rw [hr] at writes
      obtain rfl : r = .error e := writes.result
      rw [heq]
      refine ⟨⟨e, rfl⟩, fun a ha => ?_⟩
      rcases List.mem_append.mp ha with ha | ha
      · exact hlog _ a ha
      · exact writes.inside a ha
  · obtain ⟨hx, inside⟩ := decodeNameAt_of_not_entered message bufLen he
    exact ⟨hx, inside _⟩

/-- `decodeName` returns exactly when it has read a name that fits. -/
theorem decodeNameAt_ok_iff (hb : bufLen < 9223372036854775808) {n : Nat} :
    (decodeNameAt mem name message bufLen).1 = .ok n ↔
      ∃ ls, Returned mem name message bufLen ls ∧ n = (wire ls).length := by
  constructor
  · intro h
    by_cases hr : ∃ ls, Returned mem name message bufLen ls
    · obtain ⟨ls, hr⟩ := hr
      obtain ⟨log, heq, _⟩ := hr.trace
      rw [heq] at h
      exact ⟨ls, hr, (Except.ok.inj h).symm⟩
    · obtain ⟨⟨e, he⟩, _⟩ := not_returned hb fun ls hls => hr ⟨ls, hls⟩
      cases he.symm.trans h
  · rintro ⟨ls, hr, rfl⟩
    obtain ⟨log, heq, _⟩ := hr.trace
    rw [heq]

/-- The buffer when `decodeName` has returned with a name that has a label. -/
theorem Returned.terminated {ls : List Label} (h : Returned mem name message bufLen ls)
    (hne : ls ≠ []) {buf : List Byte} (hl : usable bufLen ≤ buf.length) :
    text ls ++ [0, dot] <+:
      outputBuffer buf (decodeNameAt mem name message bufLen).2 := by
  obtain ⟨log, heq, _, written⟩ := h.trace
  have hw := length_wire hne
  obtain ⟨rest, hrest⟩ := written buf hl
  have hi : ((wire ls).length : Int) - 2 = ((dotted ls).length - 2 : Nat) := by
    rw [length_dotted]
    omega
  have hlt : (dotted ls).length - 2 < (dotted ls).length := by
    rw [length_dotted]
    omega
  refine ⟨rest, ?_⟩
  rw [heq, outputBuffer_append, ← hrest, hi, ← terminated_dotted hne,
    ← List.set_append_left _ _ hlt]
  rfl

/-- What a caller finds after a name of at least one label. -/
theorem Returned.leaves {ls : List Label} (h : Returned mem name message bufLen ls)
    (nonempty : ls ≠ []) :
    ∃ log, decodeNameAt mem name message bufLen = (.ok (wire ls).length, log) ∧
      ∀ buf, bufLen ≤ buf.length → text ls ++ [0] <+: outputBuffer buf log := by
  obtain ⟨log, he, _⟩ := h.trace
  refine ⟨_, he, fun buf hbuf => ?_⟩
  have buffer := h.terminated nonempty (Nat.le_trans (usable_cases bufLen).1 hbuf)
  rw [he] at buffer
  have front : text ls ++ [0] <+: text ls ++ [0, dot] := ⟨[dot], by simp⟩
  exact front.trans buffer

end Trace

/-- The output buffer is used as it should be: every store is inside it, and when the
call returns, it holds a terminator. -/
def OutputSafe (mem : Memory) (name : Address) (message : Region) (bufLen : Nat) : Prop :=
  (∀ a ∈ (decodeNameAt mem name message bufLen).2, a.Inside bufLen) ∧
    ∀ n, (decodeNameAt mem name message bufLen).1 = .ok n → ∀ buf : List Byte,
      buf.length = bufLen → 0 ∈ outputBuffer buf (decodeNameAt mem name message bufLen).2

theorem Access.Inside.mono {room bufLen : Nat} {a : Access} (h : a.Inside room)
    (hle : room ≤ bufLen) : a.Inside bufLen := by
  cases a with
  | load a => trivial
  | store i b => exact ⟨h.1, Int.lt_of_lt_of_le h.2 (Int.ofNat_le.mpr hle)⟩

/-- `decodeName` writes inside its buffer and leaves a string there, unless the name it
reads is the root. -/
theorem outputSafe_iff (mem : Memory) (name : Address) (message : Region) {bufLen : Nat}
    (nonempty : 1 ≤ bufLen) (object : bufLen < 9223372036854775808) :
    OutputSafe mem name message bufLen ↔
      ¬ (Entered (mem.from name) ∧ ReadAs (mem message) (mem.from name) []) := by
  obtain ⟨hle, hor, _⟩ := usable_cases bufLen
  constructor
  · rintro ⟨inside, _⟩ ⟨he, hr⟩
    have root : Returned mem name message bufLen [] := (returned_iff object).mpr
      ⟨he, hr, by rw [wire, List.length_singleton]; omega⟩
    obtain ⟨log, heq, _⟩ := root.trace
    rw [heq] at inside
    -- the dot for the root is the only byte written, and there is none before it
    have := (inside (.store (-1) 0) (by simp [wire])).1
    omega
  · intro hroot
    by_cases hret : ∃ ls, Returned mem name message bufLen ls
    · obtain ⟨ls, hr⟩ := hret
      have hne : ls ≠ [] := by
        rintro rfl
        exact hroot ⟨hr.entered, hr.reads⟩
      refine ⟨?_, fun n _ buf hbuf => ?_⟩
      · have hw := length_wire hne
        have room := hr.room
        obtain ⟨log, heq, inside, _⟩ := hr.trace
        rw [heq]
        intro a ha
        rcases List.mem_append.mp ha with ha | ha
        · exact (inside a ha).mono hle
        · rw [List.mem_singleton.mp ha]
          exact ⟨by omega, by omega⟩
      · exact (hr.terminated hne (by omega)).subset (by simp)
    · obtain ⟨⟨e, he⟩, inside⟩ := not_returned object fun ls hls => hret ⟨ls, hls⟩
      refine ⟨fun a ha => (inside a ha).mono hle, fun n hn => ?_⟩
      cases he.symm.trans hn

/-- A header, and a question for the name `a`. -/
def plainRequest : List Byte := [0, 7, 1, 0, 0, 1, 0, 0, 0, 0, 0, 0] ++ [1, 97, 0, 0, 1, 0, 1]

theorem outputSafe_iff_plain :
    OutputSafe (fun _ => plainRequest) ⟨.packet, 12⟩ .packet 256 := by
  refine (outputSafe_iff _ _ _ (by decide) (by decide)).mpr ?_
  rintro ⟨_, root⟩
  have reads := @readAs_wire [[97]] (by decide) plainRequest [0, 1, 0, 1]
  exact absurd (root.unique reads) (by decide)

/-- A request for the root: its name is a single zero byte. -/
def rootRequest : List Byte := [0, 7, 1, 0, 0, 1, 0, 0, 0, 0, 0, 0] ++ [0, 0, 2, 0, 1]

/-- The terminator of the root is written one byte in front of the buffer. -/
theorem rootRequest_unsafe :
    (decodeNameAt (fun _ => rootRequest) ⟨.packet, 12⟩ .packet 256).2 =
        [.load ⟨.packet, 12⟩, .load ⟨.packet, 12⟩, .store 0 dot, .store (-1) 0] ∧
      ¬ OutputSafe (fun _ => rootRequest) ⟨.packet, 12⟩ .packet 256 := by
  have trace : (decodeNameAt (fun _ => rootRequest) ⟨.packet, 12⟩ .packet 256).2 =
      [.load ⟨.packet, 12⟩, .load ⟨.packet, 12⟩, .store 0 dot, .store (-1) 0] := by
    decide +kernel
  refine ⟨trace, fun safe => ?_⟩
  have inside := safe.1 (.store (-1) 0) (by rw [trace]; simp)
  exact absurd inside.1 (by decide)

end OdbcDns
