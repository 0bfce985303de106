import OdbcDns.CommandLine
import OdbcDns.Proofs.Bytes
import Mathlib.Data.List.Forall2

/-! The language of the command line: what is accepted, and what is documented. -/

namespace OdbcDns

inductive OptionName where
  | recursiveserver
  | port
  | threads
  | logproperties
  deriving DecidableEq, Repr

namespace OptionName

def chars : OptionName → List Byte
  | recursiveserver => recursiveserverName
  | port => portName
  | threads => threadsName
  | logproperties => logpropertiesName

/-- The option that a name stands for: the first one that starts with it. -/
def select (name : List Byte) : Option OptionName :=
  [recursiveserver, port, threads, logproperties].find? (fun o => name.isPrefixOf o.chars)

/-- The documented way to write an option. -/
def written (o : OptionName) (value : List Byte) : List Byte :=
  dash :: (o.chars ++ equals :: value)

end OptionName

/-- The argument has the form `-NAME=VALUE`. -/
def CString.Documented (arg : CString) : Prop :=
  ∃ o value, arg.chars = OptionName.written o value

/-- The value passes the test that is made for the option. -/
def ValueOk (value : List Byte) : OptionName → Prop
  | .recursiveserver => value.length ≤ 15
  | .port => 0 < atoiInt value
  | _ => True

/-- The program takes the argument for the option with this value: there is a dash
somewhere, and an equals sign behind any first character and the start of the name. -/
structure Accepts (arg : CString) (o : OptionName) (value : List Byte) : Prop where
  dashed : dash ∈ arg.chars
  split : ∃ first name, arg.chars = first :: (name ++ equals :: value) ∧
    equals ∉ first :: name ∧ OptionName.select name = some o
  ok : ValueOk value o

def Accepted (arg : CString) : Prop := ∃ o value, Accepts arg o value

/-- The variables once the option has been set. -/
def Arguments.assign (v : Arguments) (value : List Byte) : OptionName → Arguments
  | .recursiveserver => { v with recursiveServer := value }
  | .port => { v with port := atoiInt value }
  | .threads => { v with numThreads := atoiInt value }
  | .logproperties => { v with logPropertiesPath := some value }

theorem strchr_none {s : List Byte} {c : Byte} : strchr s c = none ↔ c ∉ s := by
  induction s with
  | nil => simp [strchr]
  | cons b s ih =>
    unfold strchr
    split
    · rename_i here
      simp [here]
    · rename_i there
      rw [Option.map_eq_none_iff, ih, List.mem_cons, not_or]
      exact ⟨fun h => ⟨fun hc => there hc.symm, h⟩, fun h => h.2⟩

theorem strchr_some {s : List Byte} {c : Byte} {i : Nat} (h : strchr s c = some i) :
    ∃ front back, s = front ++ c :: back ∧ c ∉ front ∧ i = front.length := by
  induction s generalizing i with
  | nil => cases h
  | cons b s ih =>
    unfold strchr at h
    split at h
    · rename_i here
      cases h
      exact ⟨[], s, by rw [here]; rfl, by simp, rfl⟩
    · rename_i there
      obtain ⟨j, hj, rfl⟩ := Option.map_eq_some_iff.mp h
      obtain ⟨front, back, rfl, out, rfl⟩ := ih hj
      refine ⟨b :: front, back, rfl, ?_, rfl⟩
      rw [List.mem_cons, not_or]
      exact ⟨fun hc => there hc.symm, out⟩

theorem strchr_append {front : List Byte} {c : Byte} (h : c ∉ front) (back : List Byte) :
    strchr (front ++ c :: back) c = some front.length := by
  induction front with
  | nil => simp [strchr]
  | cons b front ih =>
    rw [List.mem_cons, not_or] at h
    have there : b ≠ c := fun hb => h.1 hb.symm
    rw [List.cons_append, strchr, if_neg there, ih h.2]
    rfl

theorem strncmp_zero (s t : List Byte) : strncmp s t 0 = 0 := by
  unfold strncmp
  split <;> simp

/-- With the length of the name, an option is compared with the start of the name only. -/
theorem strncmp_eq_zero_iff {name : List Byte} (h : (0 : Byte) ∉ name) (s rest : List Byte) :
    strncmp s (name ++ rest) name.length = 0 ↔ name <+: s := by
  induction name generalizing s with
  | nil => simp [strncmp_zero]
  | cons b name ih =>
    rw [List.mem_cons, not_or] at h
    cases s with
    | nil =>
      have nonzero : b.toNat ≠ 0 := fun hb => h.1 (UInt8.toNat_inj.mp hb).symm
      simp [strncmp, nonzero]
    | cons a s =>
      simp only [List.cons_append, strncmp, List.length_cons, Nat.add_one_ne_zero, if_false,
        Nat.add_sub_cancel, List.cons_prefix_cons]
      split
      · rename_i same
        rw [ih h.2]
        exact ⟨fun hp => ⟨same.symm, hp⟩, fun hp => hp.2⟩
      · rename_i differ
        constructor
        · intro he
          exact absurd (UInt8.toNat_inj.mp (by omega)) differ
        · rintro ⟨hb, _⟩
          exact absurd hb.symm differ

/-- With a length beyond the ends, the strings are compared as a whole. -/
theorem eq_of_strncmp {s t : List Byte} {n : Nat} (hs : (0 : Byte) ∉ s) (ht : (0 : Byte) ∉ t)
    (hn : s.length < n) (h : strncmp s t n = 0) : s = t := by
  induction s generalizing t n with
  | nil =>
    cases t with
    | nil => rfl
    | cons b t =>
      rw [List.mem_cons, not_or] at ht
      have nonzero : b.toNat ≠ 0 := fun hb => ht.1 (UInt8.toNat_inj.mp hb).symm
      simp only [strncmp] at h
      omega
  | cons a s ih =>
    rw [List.mem_cons, not_or] at hs
    rw [List.length_cons] at hn
    cases t with
    | nil =>
      have nonzero : a.toNat ≠ 0 := fun ha => hs.1 (UInt8.toNat_inj.mp ha).symm
      simp only [strncmp, show n ≠ 0 by omega, if_false] at h
      omega
    | cons b t =>
      rw [List.mem_cons, not_or] at ht
      simp only [strncmp, show n ≠ 0 by omega, if_false] at h
      split at h
      · rename_i same
        rw [same, ih hs.2 ht.2 (by omega) h]
      · rename_i differ
        exact absurd (UInt8.toNat_inj.mp (by omega)) differ

/-- What a branch with a test does. -/
theorem fst_tested {p : Prop} [Decidable p] {x : Printing Arguments} {e : Exit}
    (h : x.1 = .error e) {v v' : Arguments} :
    (if p then x else pure v : Printing Arguments).1 = .ok v' ↔ ¬ p ∧ v' = v := by
  split
  · rename_i hp
    rw [h]
    simp [hp]
  · rename_i hp
    simp only [Logged.fst_pure, Except.ok.injEq, hp, not_false_iff, true_and]
    exact eq_comm

section Turn

variable {appName name value : List Byte} {v v' : Arguments}

theorem parseOption_ok_iff (plain : (0 : Byte) ∉ name)
    (size : name.length < 9223372036854775808) (hv : 0 < v.port) :
    (parseOption appName (name ++ equals :: value) name.length value v).1 = .ok v' ↔
      ∃ o, OptionName.select name = some o ∧ ValueOk value o ∧ v' = v.assign value o := by
  have length : toSize (name.length : Int) = name.length := by
    rw [toSize_of_lt (by omega) (by omega), Int.toNat_natCast]
  have compared : ∀ s, strncmp s (name ++ equals :: value) (toSize name.length) = 0 ↔
      name.isPrefixOf s = true := by
    intro s
    rw [length, strncmp_eq_zero_iff plain, List.isPrefixOf_iff_prefix]
  unfold parseOption OptionName.select
  simp only [compared, List.find?_cons, OptionName.chars]
  cases name.isPrefixOf recursiveserverName with
  | true =>
    simp only [if_true, Option.some.injEq, exists_eq_left', ValueOk, Arguments.assign]
    rw [fst_tested rfl]
    exact and_congr_left fun _ => by omega
  | false =>
    cases name.isPrefixOf portName with
    | true =>
      simp only [if_true, Bool.false_eq_true, if_false, Option.some.injEq, exists_eq_left',
        ValueOk, Arguments.assign]
      rw [fst_tested rfl]
      exact and_congr_left fun _ => Int.not_le
    | false =>
      cases name.isPrefixOf threadsName with
      | true =>
        simp only [if_true, Bool.false_eq_true, if_false, Option.some.injEq, exists_eq_left',
          ValueOk, Arguments.assign]
        rw [fst_tested rfl]
        exact and_congr_left fun _ => ⟨fun _ => trivial, fun _ => Int.not_le.mpr hv⟩
      | false =>
        cases name.isPrefixOf logpropertiesName with
        | true =>
          simp only [if_true, Bool.false_eq_true, if_false, Option.some.injEq, exists_eq_left',
            ValueOk, Arguments.assign, true_and, Logged.fst_pure, Except.ok.injEq]
          exact eq_comm
        | false =>
          simp only [Bool.false_eq_true, if_false, List.find?_nil, reduceCtorEq, false_and,
            exists_false, iff_false]
          intro h
          cases h

/-- An equals sign at the start makes the length negative, and nothing is found. -/
theorem parseOption_negative (plain : (0 : Byte) ∉ name) (dashed : dash ∈ name) :
    (parseOption appName name (-1) value v).1 ≠ .ok v' := by
  have differs : ∀ s : List Byte, s.length < 18446744073709551615 → (0 : Byte) ∉ s → dash ∉ s →
      ¬ strncmp s name (toSize (-1)) = 0 := by
    intro s short hz hd h
    have same := eq_of_strncmp hz plain short h
    exact hd (same ▸ dashed)
  unfold parseOption
  rw [if_neg (differs _ (by decide) (by decide) (by decide)),
    if_neg (differs _ (by decide) (by decide) (by decide)),
    if_neg (differs _ (by decide) (by decide) (by decide)),
    if_neg (differs _ (by decide) (by decide) (by decide))]
  intro h
  cases h

theorem split_unique {c : Byte} {front front' back back' : List Byte} (h : c ∉ front)
    (h' : c ∉ front') (he : front ++ c :: back = front' ++ c :: back') :
    front = front' ∧ back = back' := by
  have place := strchr_append h back
  rw [he, strchr_append h' back', Option.some.injEq] at place
  obtain ⟨rfl, rest⟩ := List.append_inj he place.symm
  exact ⟨rfl, (List.cons.inj rest).2⟩

theorem parseArg_of_split {arg : CString} {first : Byte} (dashed : dash ∈ arg.chars)
    (hs : arg.chars = first :: (name ++ equals :: value)) (out : equals ∉ first :: name) :
    parseArg appName arg v = parseOption appName (name ++ equals :: value) name.length value v := by
  have sign : strchr arg.chars equals = some (name.length + 1) := by
    rw [hs]
    exact strchr_append out value
  have behind : arg.chars.drop (name.length + 1 + 1) = value := by
    rw [hs]
    simp
  have option : arg.chars.drop 1 = name ++ equals :: value := by
    rw [hs, List.drop_one, List.tail_cons]
  have length : ((name.length + 1 : Nat) : Int) - 1 = name.length := by omega
  cases hd : strchr arg.chars dash with
  | none => exact absurd dashed (strchr_none.mp hd)
  | some j =>
    rw [parseArg, hd, sign]
    simp only [behind, option, length]

/-- An argument that does not stop the program has a dash, and an equals sign that is not
its first character. -/
theorem split_of_parseArg {arg : CString} (h : (parseArg appName arg v).1 = .ok v') :
    dash ∈ arg.chars ∧ ∃ first name value, arg.chars = first :: (name ++ equals :: value) ∧
      equals ∉ first :: name := by
  cases hd : strchr arg.chars dash with
  | none =>
    rw [parseArg, hd] at h
    cases h
  | some j =>
    have dashed : dash ∈ arg.chars := by
      obtain ⟨front, back, he, _⟩ := strchr_some hd
      rw [he]
      simp
    cases he : strchr arg.chars equals with
    | none =>
      rw [parseArg, hd, he] at h
      cases h
    | some i =>
      obtain ⟨front, back, hs, out, rfl⟩ := strchr_some he
      cases front with
      | cons first name => exact ⟨dashed, first, name, back, hs, out⟩
      | nil =>
        have plain := arg.unterminated
        rw [hs] at plain dashed
        rw [parseArg, hd, he, hs] at h
        refine absurd h (parseOption_negative (fun hz => plain (List.mem_cons_of_mem _ hz)) ?_)
        exact (List.mem_cons.mp dashed).resolve_left (by decide)

/-- One turn of the loop goes on exactly with an argument that is accepted. -/
theorem parseArg_ok_iff {arg : CString} (hv : 0 < v.port) :
    (parseArg appName arg v).1 = .ok v' ↔
      ∃ o value, Accepts arg o value ∧ v' = v.assign value o := by
  have turn : ∀ {first name value}, dash ∈ arg.chars →
      arg.chars = first :: (name ++ equals :: value) → equals ∉ first :: name →
      ((parseArg appName arg v).1 = .ok v' ↔
        ∃ o, OptionName.select name = some o ∧ ValueOk value o ∧ v' = v.assign value o) := by
    intro first name value dashed hs out
    have plain := arg.unterminated
    have size := arg.size
    rw [hs] at plain size
    simp only [List.length_cons, List.length_append] at size
    have nul : (0 : Byte) ∉ name := fun hz => plain (by simp [hz])
    rw [parseArg_of_split dashed hs out]
    exact parseOption_ok_iff nul (by omega) hv
  constructor
  · intro h
    obtain ⟨dashed, first, name, value, hs, out⟩ := split_of_parseArg h
    obtain ⟨o, selected, ok, assigned⟩ := (turn dashed hs out).mp h
    exact ⟨o, value, ⟨dashed, ⟨first, name, hs, out, selected⟩, ok⟩, assigned⟩
  · rintro ⟨o, value, accepts, assigned⟩
    obtain ⟨first, name, hs, out, selected⟩ := accepts.split
    exact (turn accepts.dashed hs out).mpr ⟨o, selected, accepts.ok, assigned⟩

theorem Accepts.port_pos {arg : CString} {o : OptionName} (h : Accepts arg o value)
    (hv : 0 < v.port) : 0 < (v.assign value o).port := by
  cases o with
  | port => exact h.ok
  | recursiveserver => exact hv
  | threads => exact hv
  | logproperties => exact hv

/-- A turn that goes on, and the rest of the loop. -/
theorem parseLoop_cons_ok {arg : CString} {args : List CString} (hv : 0 < v.port) :
    (parseLoop appName (arg :: args) v).1 = .ok v' ↔
      ∃ o value, Accepts arg o value ∧
        (parseLoop appName args (v.assign value o)).1 = .ok v' := by
  have turn : parseLoop appName (arg :: args) v =
      (parseArg appName arg v >>= parseLoop appName args) := rfl
  rw [turn]
  cases hp : (parseArg appName arg v).1 with
  | error e =>
    rw [Logged.bind_of_error _ hp]
    constructor
    · intro h
      cases h
    · rintro ⟨o, value, accepts, _⟩
      cases hp.symm.trans ((parseArg_ok_iff hv).mpr ⟨o, value, accepts, rfl⟩)
  | ok u =>
    rw [Logged.bind_of_ok _ hp]
    obtain ⟨o, value, accepts, rfl⟩ := (parseArg_ok_iff hv).mp hp
    constructor
    · intro h
      exact ⟨o, value, accepts, h⟩
    · rintro ⟨o', value', accepts', h⟩
      have same : (parseArg appName arg v).1 = .ok (v.assign value' o') :=
        (parseArg_ok_iff hv).mpr ⟨o', value', accepts', rfl⟩
      rw [hp, Except.ok.injEq] at same
      rw [same]
      exact h

/-- `parseArgs` completes exactly when every argument is accepted. -/
theorem parseLoop_completes_iff {args : List CString} (hv : 0 < v.port) :
    (∃ v', (parseLoop appName args v).1 = .ok v') ↔ ∀ arg ∈ args, Accepted arg := by
  induction args generalizing v with
  | nil => simp [parseLoop]
  | cons arg args ih =>
    simp only [parseLoop_cons_ok hv, List.forall_mem_cons]
    constructor
    · rintro ⟨v', o, value, accepts, h⟩
      exact ⟨⟨o, value, accepts⟩, (ih (accepts.port_pos hv)).mp ⟨v', h⟩⟩
    · rintro ⟨⟨o, value, accepts⟩, rest⟩
      obtain ⟨v', h⟩ := (ih (accepts.port_pos hv)).mpr rest
      exact ⟨v', o, value, accepts, h⟩

end Turn

/-- The value of an argument that has the documented form for the option. -/
def valueFor (o : OptionName) (arg : CString) : Option (List Byte) :=
  if (o.written []).isPrefixOf arg.chars then some (arg.chars.drop (o.written []).length)
  else none

/-- The value of the last argument that names the option. -/
def lastValue (o : OptionName) : List CString → Option (List Byte)
  | [] => none
  | arg :: args => (lastValue o args).or (valueFor o arg)

theorem valueFor_written {arg : CString} {o : OptionName} {value : List Byte}
    (h : arg.chars = o.written value) (o' : OptionName) :
    valueFor o' arg = if o' = o then some value else none := by
  unfold valueFor
  rw [h]
  cases o <;> cases o' <;> rfl

theorem equals_not_mem (o : OptionName) : equals ∉ dash :: o.chars := by
  cases o <;> decide

theorem select_chars (o : OptionName) : OptionName.select o.chars = some o := by
  cases o <;> decide

theorem Accepts.of_written {arg : CString} {o o' : OptionName} {value value' : List Byte}
    (h : Accepts arg o value) (written : arg.chars = o'.written value') :
    o' = o ∧ value' = value := by
  obtain ⟨first, name, hs, out, selected⟩ := h.split
  have same : dash :: o'.chars ++ equals :: value' = first :: name ++ equals :: value :=
    written.symm.trans hs
  obtain ⟨names, rfl⟩ := split_unique (equals_not_mem o') out same
  obtain ⟨_, rfl⟩ := List.cons.inj names
  rw [select_chars, Option.some.injEq] at selected
  exact ⟨selected, rfl⟩

/-- Every variable holds the value of the last argument that names it, or what it held
before. -/
structure HoldsLast (args : List CString) (v v' : Arguments) : Prop where
  recursiveServer : v'.recursiveServer =
    (lastValue .recursiveserver args).getD v.recursiveServer
  port : v'.port = ((lastValue .port args).map atoiInt).getD v.port
  numThreads : v'.numThreads = ((lastValue .threads args).map atoiInt).getD v.numThreads
  logPropertiesPath : v'.logPropertiesPath =
    (lastValue .logproperties args).or v.logPropertiesPath

theorem HoldsLast.cons {arg : CString} {args : List CString} {v v' : Arguments}
    {o : OptionName} {value : List Byte} (written : arg.chars = o.written value)
    (h : HoldsLast args (v.assign value o) v') : HoldsLast (arg :: args) v v' := by
  have here := valueFor_written written
  obtain ⟨server, port, threads, path⟩ := h
  refine ⟨?_, ?_, ?_, ?_⟩
  · rw [server, lastValue, here]
    cases lastValue .recursiveserver args <;> cases o <;> rfl
  · rw [port, lastValue, here]
    cases lastValue .port args <;> cases o <;> rfl
  · rw [threads, lastValue, here]
    cases lastValue .threads args <;> cases o <;> rfl
  · rw [path, lastValue, here]
    cases lastValue .logproperties args <;> cases o <;> rfl

theorem parseLoop_holdsLast {appName : List Byte} {args : List CString} {v v' : Arguments}
    (hv : 0 < v.port) (documented : ∀ arg ∈ args, arg.Documented)
    (h : (parseLoop appName args v).1 = .ok v') : 0 < v'.port ∧ HoldsLast args v v' := by
  induction args generalizing v with
  | nil =>
    cases h
    exact ⟨hv, rfl, rfl, rfl, rfl⟩
  | cons arg args ih =>
    obtain ⟨o, value, accepts, h⟩ := (parseLoop_cons_ok hv).mp h
    obtain ⟨⟨o', value', written⟩, rest⟩ := List.forall_mem_cons.mp documented
    obtain ⟨rfl, rfl⟩ := accepts.of_written written
    obtain ⟨pos, last⟩ := ih (accepts.port_pos hv) rest h
    exact ⟨pos, last.cons written⟩

/-- The arguments and the variables are as the usage says. -/
structure AsDocumented (connectionString : CString) (args : List CString) (v : Arguments) :
    Prop where
  forms : ∀ arg ∈ args, arg.Documented
  port_pos : 0 < v.port
  threads_pos : 0 < v.numThreads
  last : HoldsLast args (.start connectionString) v

/-- The command line is handled as documented exactly when it is refused, or it is in the
documented form and the number of threads that it gives is positive. -/
theorem command_line_iff (appName connectionString : CString) (args : List CString) :
    (∀ v, (parseArgs (appName :: connectionString :: args)).1 = .ok v →
        AsDocumented connectionString args v) ↔
      ((∀ arg ∈ args, Accepted arg) → (∀ arg ∈ args, arg.Documented) ∧
        ∀ value, lastValue .threads args = some value → 0 < atoiInt value) := by
  have hv : 0 < (Arguments.start connectionString).port := Int.ofNat_succ_pos 52
  have completes := @parseLoop_completes_iff appName.chars _ args hv
  constructor
  · intro documented accepted
    obtain ⟨v, hr⟩ := completes.mpr accepted
    obtain ⟨forms, _, threads, last⟩ := documented v hr
    refine ⟨forms, fun value hl => ?_⟩
    rw [last.numThreads, hl] at threads
    exact threads
  · intro condition v hr
    obtain ⟨forms, threads⟩ := condition (completes.mp ⟨v, hr⟩)
    obtain ⟨pos, last⟩ := parseLoop_holdsLast hv forms hr
    refine ⟨forms, pos, ?_, last⟩
    rw [last.numThreads]
    cases hl : lastValue .threads args with
    | none => exact Int.ofNat_succ_pos 63
    | some value => exact threads value hl

def odbcdns : CString := ⟨charBytes ['O', 'D', 'B', 'C', 'D', 'N', 'S'], by decide, by decide⟩

def dsnDns : CString := ⟨charBytes ['D', 'S', 'N', '=', 'd', 'n', 's'], by decide, by decide⟩

/-- `-threads=0` -/
def noThreads : CString :=
  ⟨charBytes ['-', 't', 'h', 'r', 'e', 'a', 'd', 's', '=', '0'], by decide, by decide⟩

/-- `-p=5` -/
def abbreviated : CString := ⟨charBytes ['-', 'p', '=', '5'], by decide, by decide⟩

/-- `x=a-b` -/
def noName : CString := ⟨charBytes ['x', '=', 'a', '-', 'b'], by decide, by decide⟩

theorem not_documented {arg : CString} (h : ∀ o, valueFor o arg = none) :
    ¬ arg.Documented := by
  rintro ⟨o, value, written⟩
  have here := valueFor_written written o
  rw [h o, if_pos rfl] at here
  cases here

/-- No thread at all is accepted, so is the start of a name, and so is a text with no name
in front of the equals sign and no dash in front of that. -/
theorem command_line_lenient :
    (parseArgs [odbcdns, dsnDns, noThreads]).1 =
        .ok { Arguments.start dsnDns with numThreads := 0 } ∧
      ¬ abbreviated.Documented ∧
      (parseArgs [odbcdns, dsnDns, abbreviated]).1 =
        .ok { Arguments.start dsnDns with port := 5 } ∧
      ¬ noName.Documented ∧
      (parseArgs [odbcdns, dsnDns, noName]).1 =
        .ok { Arguments.start dsnDns with recursiveServer := charBytes ['a', '-', 'b'] } := by
  refine ⟨by decide +kernel, not_documented ?_, by decide +kernel, not_documented ?_,
    by decide +kernel⟩
  · intro o
    cases o <;> decide
  · intro o
    cases o <;> decide

end OdbcDns
