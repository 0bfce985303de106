import OdbcDns.Odbc
import OdbcDns.Lib.Refines
import OdbcDns.Proofs.Bytes

/-! Calls of the driver and what becomes of its answers. A group of calls that only prepare or
read something is one `driverCall`. -/

namespace OdbcDns

/-- An exception with this text can come from the answer, if `msg` is what the buffer of
`getSqlMessage` held before: the last diagnostic record, as far as the buffer takes it, or a
handle that is invalid. If the records are on another handle, it is what the buffer holds. -/
def DriverAnswer.Reports (msg : List Byte) (message : String) : DriverAnswer → Prop
  | .done _ => False
  | .error first more old =>
    message = screenText (cstr ((more.getLastD first).take (sqlMaxMessageLength - 1))) ∨
      message = screenText (cstr (SQLMessageHandler.getSqlMessage old msg))
  | .invalidHandle => message = "A handle needed by the statement is invalid" ∨
      message = "A handle needed by the result set is invalid"

theorem getSqlMessage_last (first : List Byte) (more : List (List Byte)) (msg : List Byte) :
    ∃ rest, SQLMessageHandler.getSqlMessage (first :: more) msg =
      (more.getLastD first).take (sqlMaxMessageLength - 1) ++ 0 :: rest := by
  induction more generalizing first msg with
  | nil => exact ⟨_, by simp [SQLMessageHandler.getSqlMessage, Slice.overwrite]; rfl⟩
  | cons next more ih =>
    obtain ⟨rest, h⟩ := ih next (Slice.overwrite msg 0 (first.take (sqlMaxMessageLength - 1) ++ [0]))
    refine ⟨rest, ?_⟩
    rw [List.getLastD_cons]
    exact h

theorem cstr_getSqlMessage (first : List Byte) (more : List (List Byte)) (msg : List Byte) :
    cstr (SQLMessageHandler.getSqlMessage (first :: more) msg) =
      cstr ((more.getLastD first).take (sqlMaxMessageLength - 1)) := by
  obtain ⟨rest, h⟩ := getSqlMessage_last first more msg
  rw [h, cstr_append_zero]

/-- The message ends within the buffer, if there is a record or the buffer had a NUL. -/
theorem zero_mem_getSqlMessage (diag : List (List Byte)) {msg : List Byte}
    (zero : (0 : Byte) ∈ msg) : (0 : Byte) ∈ SQLMessageHandler.getSqlMessage diag msg := by
  cases diag with
  | nil => exact zero
  | cons first more =>
    obtain ⟨rest, h⟩ := getSqlMessage_last first more msg
    simp [h]

namespace OdbcCalls

/-- The buffer of `getSqlMessage` happens to hold a NUL. -/
def Terminated (d : OdbcSession) : Prop := (0 : Byte) ∈ d.msg

/-- The classes whose `handleErrors` is called. -/
def Handled (handleErrors : SQLReturn → OdbcCall Unit) : Prop :=
  handleErrors = SQLStatement.handleErrors ∨ handleErrors = SQLResultSet.handleErrors

section Checked

variable {α : Type} {handle : SQLReturn → OdbcCall Unit} {d : OdbcSession}

theorem Handled.error (h : Handled handle) (zero : Terminated d) : handle .error d =
    (.error (.exception (screenText (cstr (SQLMessageHandler.getSqlMessage d.diag d.msg)))), d) := by
  have ends := zero_mem_getSqlMessage d.diag zero
  rcases h with rfl | rfl
  all_goals
    simp only [SQLStatement.handleErrors, SQLResultSet.handleErrors, handleErrors, Act.get_bind]
    simp [Act.bind_apply, strlen, ends]

theorem Handled.invalid (h : Handled handle) : ∃ message,
    DriverAnswer.Reports d.msg message .invalidHandle ∧
      handle .invalidHandle d = (.error (.exception message), d) := by
  rcases h with rfl | rfl
  · exact ⟨_, .inl rfl, rfl⟩
  · exact ⟨_, .inr rfl, rfl⟩

theorem Handled.fine (h : Handled handle) {retval : SQLReturn} (error : retval ≠ .error)
    (invalid : retval ≠ .invalidHandle) : handle retval d = (.ok (), d) := by
  rcases h with rfl | rfl <;> cases retval <;> first | rfl | contradiction

/-- A function of the driver that does not fail by itself. -/
def Fine (effect : OdbcCall (α × SQLReturn)) : Prop :=
  ∀ d a retval t, effect d = (.ok (a, retval), t) → retval ≠ .error ∧ retval ≠ .invalidHandle

/-- Either the driver reports a failure and that is thrown, or the function has its effect. -/
theorem checked_cases (h : Handled handle) {effect : OdbcCall (α × SQLReturn)}
    (fine : Fine effect) (own : Bool) (unchanged : α) (zero : Terminated d) :
    (∃ message diag, (∃ a ∈ d.answers, a.Reports d.msg message) ∧
      checked handle (driverFunction own unchanged effect) d =
        (.error (.exception message), { d with answers := d.answers.tail, diag })) ∨
    checked handle (driverFunction own unchanged effect) d =
      (effect >>= fun p => pure p.1) { d with answers := d.answers.tail } := by
  let d' : OdbcSession := { d with answers := d.answers.tail }
  have carried : ∀ info : Bool, d.answers.headD (.done false) = .done info →
      checked handle (driverFunction own unchanged effect) d =
        (effect >>= fun p => pure p.1) d' := by
    intro info hhead
    simp only [checked, driverFunction, Act.bind_apply, Act.get_apply, Act.set_apply, hhead]
    rcases he : effect d' with ⟨r, t⟩
    cases r with
    | error e => rfl
    | ok p =>
      obtain ⟨a, retval⟩ := p
      obtain ⟨error, invalid⟩ := fine d' a retval t he
      have hr : handle (if info ∧ retval = .success then .successWithInfo else retval) t =
          (.ok (), t) := h.fine (by split <;> simp_all) (by split <;> simp_all)
      simp [hr]
  cases ha : d.answers with
  | nil => exact .inr (ha ▸ carried false (by simp [ha]))
  | cons answer rest =>
    cases answer with
    | done info => exact .inr (by simpa [d', ha] using carried info (by simp [ha]))
    | error first more old =>
      let diag := if own then first :: more else old
      have hstop := h.error (d := { d with answers := rest, diag }) zero
      refine .inl ⟨screenText (cstr (SQLMessageHandler.getSqlMessage diag d.msg)), diag,
        ⟨_, List.mem_cons_self, ?_⟩, ?_⟩
      · cases own with
        | true => exact .inl (congrArg screenText (cstr_getSqlMessage first more d.msg))
        | false => exact .inr rfl
      · simp only [diag] at hstop ⊢
        simp [checked, driverFunction, Act.bind_apply, ha, hstop]
    | invalidHandle =>
      obtain ⟨message, reports, hstop⟩ := h.invalid (d := d')
      refine .inl ⟨message, d.diag, ⟨_, List.mem_cons_self, reports⟩, ?_⟩
      simp only [d', ha, List.tail_cons] at hstop
      simp [checked, driverFunction, Act.bind_apply, ha, hstop]

/-- How a part ends that only asks the driver: with `Q`, with an exception for a failure that
the driver reports, or for another reason, with `F`. -/
def EndsWith (F : Stop → Prop) (Q : α → Prop) (d : OdbcSession) : Except Stop α → Prop
  | .ok a => Q a
  | .error e => F e ∨ ∃ message, e = .exception message ∧ ∃ a ∈ d.answers, a.Reports d.msg message

/-- What a call of the driver leaves as it is. -/
structure Keeps (d t : OdbcSession) : Prop where
  session : t.session = d.session
  answers : t.answers ⊆ d.answers
  msg : t.msg = d.msg

theorem keeps_tail (d : OdbcSession) (diag : List (List Byte)) :
    Keeps d { d with answers := d.answers.tail, diag } :=
  ⟨rfl, (List.tail_sublist _).subset, rfl⟩

theorem Keeps.trans {t u : OdbcSession} (h : Keeps d t) (h' : Keeps t u) : Keeps d u :=
  ⟨h'.session.trans h.session, fun _ ha => h.answers (h'.answers ha), h'.msg.trans h.msg⟩

theorem Keeps.terminated {t : OdbcSession} (h : Keeps d t) (zero : Terminated d) : Terminated t := by
  rw [Terminated, h.msg]
  exact zero

theorem Keeps.reports {t : OdbcSession} (h : Keeps d t) {message : String}
    (ht : ∃ a ∈ t.answers, a.Reports t.msg message) :
    ∃ a ∈ d.answers, a.Reports d.msg message := by
  obtain ⟨a, ha, reports⟩ := ht
  exact ⟨a, h.answers ha, h.msg ▸ reports⟩

/-- A part that only asks the driver, and changes nothing that the resolver has. -/
def Consults (F : Stop → Prop) (Q : α → Prop) (x : OdbcCall α) : Prop :=
  ∀ d, Terminated d → Keeps d (x d).2 ∧ EndsWith F Q d (x d).1

end Checked

section Consults

variable {α β : Type} {F G : Stop → Prop} {Q : α → Prop} {P : β → Prop}

theorem Consults.pure {a : α} (h : Q a) : Consults F Q (pure a) :=
  fun _ _ => ⟨⟨rfl, List.Subset.refl _, rfl⟩, h⟩

theorem Consults.mono {x : OdbcCall α} (h : Consults F Q x) (weaker : ∀ e, F e → G e) :
    Consults G Q x := by
  intro d zero
  obtain ⟨keeps, ends⟩ := h d zero
  refine ⟨keeps, ?_⟩
  rcases hd : x d with ⟨r, t⟩
  rw [hd] at ends
  cases r with
  | ok a => exact ends
  | error e => exact ends.imp_left (weaker e)

theorem Consults.bind {x : OdbcCall α} {f : α → OdbcCall β} (hx : Consults F Q x)
    (hf : ∀ a, Q a → Consults F P (f a)) : Consults F P (x >>= f) := by
  intro d zero
  obtain ⟨keeps, ends⟩ := hx d zero
  rcases hd : x d with ⟨r, t⟩
  rw [hd] at keeps ends
  cases r with
  | error e =>
    rw [Act.bind_of_error hd]
    exact ⟨keeps, ends⟩
  | ok a =>
    rw [Act.bind_of_ok hd]
    obtain ⟨keeps', ends'⟩ := hf a ends t (keeps.terminated zero)
    refine ⟨keeps.trans keeps', ?_⟩
    rcases hr : f a t with ⟨r', u⟩
    rw [hr] at ends'
    cases r' with
    | ok b => exact ends'
    | error e =>
      refine ends'.imp_right ?_
      intro ⟨message, he, reports⟩
      exact ⟨message, he, keeps.reports reports⟩

/-- A checked call whose effect is on the statement or on a buffer only. -/
theorem Consults.checked {handle : SQLReturn → OdbcCall Unit} (h : Handled handle)
    {effect : OdbcCall (α × SQLReturn)} {z : Except Stop (α × SQLReturn)}
    (hz : ∀ d, effect d = (z, d)) (own : Bool) (unchanged : α)
    (returns : ∀ p, z = .ok p → Q p.1 ∧ p.2 ≠ .error ∧ p.2 ≠ .invalidHandle)
    (stops : ∀ e, z = .error e → F e) :
    Consults F Q (checked handle (driverFunction own unchanged effect)) := by
  have fine : Fine effect := by
    intro d a retval t he
    rw [hz] at he
    exact (returns (a, retval) (congrArg Prod.fst he)).2
  intro d zero
  rcases checked_cases h fine own unchanged zero with ⟨message, diag, reports, hx⟩ | hx
  · rw [hx]
    exact ⟨keeps_tail d diag, .inr ⟨message, rfl, reports⟩⟩
  · rw [hx, Act.bind_apply, hz]
    cases z with
    | ok p => exact ⟨keeps_tail d d.diag, (returns p rfl).1⟩
    | error e => exact ⟨keeps_tail d d.diag, .inl (stops e rfl)⟩

theorem Consults.checked_ok {handle : SQLReturn → OdbcCall Unit} (h : Handled handle)
    {effect : OdbcCall (α × SQLReturn)} {a : α} {retval : SQLReturn}
    (he : ∀ d, effect d = (.ok (a, retval), d)) (error : retval ≠ .error)
    (invalid : retval ≠ .invalidHandle) (own : Bool) (unchanged : α) :
    Consults F (· = a) (OdbcDns.checked handle (driverFunction own unchanged effect)) := by
  refine .checked h he own unchanged ?_ ?_
  · intro p hp
    cases hp
    exact ⟨rfl, error, invalid⟩
  · intro e he
    cases he

end Consults

/-- The session of the resolver with these outcomes of the calls to come. -/
def view (d : OdbcSession) (outcomes : List (Option String)) : Session :=
  { d.session with driver := outcomes }

/-- An outcome that the answers to come can give: a failure is one that is reported. -/
def Possible (d : OdbcSession) (outcome : Option String) : Prop :=
  ∀ message, outcome = some message → ∃ a ∈ d.answers, a.Reports d.msg message

/-- A part over the driver does what a part over outcomes does. -/
abbrev RefinedBy {α β : Type} (V : α → β → Prop) (x : OdbcCall α) (y : Call β) : Prop :=
  Act.Refines view Possible Terminated V x y

section Refined

variable {α β γ : Type} {V : β → γ → Prop}

theorem Keeps.possible {d t : OdbcSession} (h : Keeps d t) (o : Option String)
    (ho : Possible t o) : Possible d o :=
  fun message hm => h.reports (ho message hm)

theorem possible_none (d : OdbcSession) : Possible d none := fun _ h => by cases h

theorem possible_some {d : OdbcSession} {message : String}
    (h : ∃ a ∈ d.answers, a.Reports d.msg message) : ∀ o ∈ [some message], Possible d o := by
  simpa [Possible] using h

theorem Keeps.view {d t : OdbcSession} (h : Keeps d t) (outcomes : List (Option String)) :
    view t outcomes = view d outcomes := by
  rw [OdbcCalls.view, h.session, OdbcCalls.view]

theorem driverCall_none (d : OdbcSession) (rest : List (Option String)) :
    driverCall (view d (none :: rest)) = (.ok (), view d rest) := rfl

theorem driverCall_some (d : OdbcSession) (message : String) (rest : List (Option String)) :
    driverCall (view d (some message :: rest)) = (.error (.exception message), view d rest) := rfl

/-- However often the driver is asked, it is one call with one outcome. -/
theorem Consults.refined {F : Stop → Prop} {Q : α → Prop} {x : OdbcCall α}
    {f : α → OdbcCall β} {y : Call γ} (hx : Consults F Q x)
    (stops : ∀ e, F e → ∀ s, y s = (.error e, s)) (hf : ∀ a, Q a → RefinedBy V (f a) y) :
    RefinedBy V (x >>= f) (driverCall >>= fun _ => y) := by
  intro d zero
  obtain ⟨keeps, ends⟩ := hx d zero
  rcases hd : x d with ⟨r, t⟩
  rw [hd] at keeps ends
  have zero' := keeps.terminated zero
  cases r with
  | error e =>
    rw [Act.bind_of_error hd]
    refine ⟨zero', keeps.possible, ?_⟩
    rcases ends with hF | ⟨message, rfl, reports⟩
    · refine ⟨[none], .error e, by simp [possible_none], rfl, fun rest => ?_⟩
      show (driverCall >>= fun _ => y) (view d (none :: rest)) = _
      rw [Act.bind_of_ok (driverCall_none d rest), stops e hF, keeps.view]
    · refine ⟨[some message], .error (.exception message), possible_some reports, rfl,
        fun rest => ?_⟩
      rw [keeps.view]
      exact Act.bind_of_error (driverCall_some d message rest)
  | ok a =>
    rw [Act.bind_of_ok hd]
    obtain ⟨zero'', shrinks, used, r, hused, same, hrun⟩ := hf a ends t zero'
    refine ⟨zero'', fun o ho => keeps.possible o (shrinks o ho), none :: used, r, ?_, same,
      fun rest => ?_⟩
    · intro o ho
      rcases List.mem_cons.mp ho with rfl | ho
      · exact possible_none d
      · exact keeps.possible o (hused o ho)
    · show (driverCall >>= fun _ => y) (view d (none :: (used ++ rest))) = _
      rw [Act.bind_of_ok (driverCall_none d _), ← keeps.view]
      exact hrun rest

/-- Asking the driver before a call is part of the call. -/
theorem Consults.absorbed {Q : α → Prop} {x : OdbcCall α} {f : α → OdbcCall β} {y : Call γ}
    (hx : Consults (fun _ => False) Q x)
    (hf : ∀ a, Q a → RefinedBy V (f a) (driverCall >>= fun _ => y)) :
    RefinedBy V (x >>= f) (driverCall >>= fun _ => y) := by
  intro d zero
  obtain ⟨keeps, ends⟩ := hx d zero
  rcases hd : x d with ⟨r, t⟩
  rw [hd] at keeps ends
  have zero' := keeps.terminated zero
  cases r with
  | error e =>
    obtain ⟨message, rfl, reports⟩ := ends.resolve_left id
    rw [Act.bind_of_error hd]
    refine ⟨zero', keeps.possible, [some message], .error (.exception message),
      possible_some reports, rfl, fun rest => ?_⟩
    rw [keeps.view]
    exact Act.bind_of_error (driverCall_some d message rest)
  | ok a =>
    rw [Act.bind_of_ok hd]
    obtain ⟨zero'', shrinks, used, r, hused, same, hrun⟩ := hf a ends t zero'
    refine ⟨zero'', fun o ho => keeps.possible o (shrinks o ho), used, r,
      fun o ho => keeps.possible o (hused o ho), same, fun rest => ?_⟩
    rw [← keeps.view]
    exact hrun rest

/-- A checked call with an effect on what the resolver has. -/
theorem refined_checked {handle : SQLReturn → OdbcCall Unit} (h : Handled handle)
    {effect : OdbcCall (β × SQLReturn)} (fine : Fine effect) (own : Bool) (unchanged : β)
    {y : Call γ} (hy : RefinedBy V (effect >>= fun p => pure p.1) y) :
    RefinedBy V (checked handle (driverFunction own unchanged effect))
      (driverCall >>= fun _ => y) := by
  intro d zero
  rcases checked_cases h fine own unchanged zero with ⟨message, diag, reports, hx⟩ | hx
  · rw [hx]
    have keeps := keeps_tail d diag
    exact ⟨keeps.terminated zero, keeps.possible, [some message], .error (.exception message),
      possible_some reports, rfl, fun rest => Act.bind_of_error (driverCall_some d message rest)⟩
  · rw [hx]
    have keeps := keeps_tail d d.diag
    obtain ⟨zero', shrinks, used, r, hused, same, hrun⟩ := hy _ (keeps.terminated zero)
    refine ⟨zero', fun o ho => keeps.possible o (shrinks o ho), none :: used, r, ?_, same,
      fun rest => ?_⟩
    · intro o ho
      rcases List.mem_cons.mp ho with rfl | ho
      · exact possible_none d
      · exact keeps.possible o (hused o ho)
    · exact (Act.bind_of_ok (driverCall_none d (used ++ rest))).trans (hrun rest)

end Refined

/-- The statement is prepared, and these are the addresses of its parameters. -/
structure Ready {ν : Type} (text : SQLText) (params : List (ParameterType × ν))
    (st : SQLStatement ν) : Prop where
  prepared : st.text = some text
  binds : ∀ n < text.markers, st.params (n + 1) = params[n]?

section Statements

variable {ν : Type} {F : Stop → Prop} {text : SQLText} {params : List (ParameterType × ν)}
  {st : SQLStatement ν} {mem : ν → Cell} {vs : List SQLValue}

theorem consults_new : Consults F (· = (⟨none, fun _ => none, 0, []⟩ : SQLStatement ν))
    SQLStatement.new :=
  .checked_ok (.inl rfl) (fun _ => rfl) (by simp) (by simp) false _

theorem consults_update (f : SQLStatement ν → SQLStatement ν) (st : SQLStatement ν) :
    Consults F (· = f st) (st.update f) :=
  .checked_ok (.inl rfl) (fun _ => rfl) (by simp) (by simp) true st

/-- What stands at the addresses when the statement is executed. -/
def bound (text : SQLText) (params : List (ParameterType × ν)) (mem : ν → Cell) :
    Option (List SQLValue) :=
  (List.range text.markers).mapM fun n => (params[n]?).bind fun p => p.1.read (mem p.2)

theorem Ready.values (h : Ready text params st) (mem : ν → Cell) :
    st.values mem text = bound text params mem := by
  have same : ∀ l : List Nat, (∀ n ∈ l, n < text.markers) →
      (l.mapM fun n => (st.params (n + 1)).bind fun p => p.1.read (mem p.2)) =
        l.mapM fun n => (params[n]?).bind fun p => p.1.read (mem p.2) := by
    intro l hl
    induction l with
    | nil => rfl
    | cons n l ih =>
      rw [List.mapM_cons, List.mapM_cons, h.binds n (hl n List.mem_cons_self),
        ih fun m hm => hl m (List.mem_cons_of_mem _ hm)]
  exact same _ fun n => List.mem_range.mp

/-- The effect of `SQLExecute`. -/
theorem Ready.sqlExecute (h : Ready text params st) (hv : bound text params mem = some vs)
    {run : SQLText → List SQLValue → Connection → Option Executed} {out : Connection → Executed}
    (hrun : ∀ c, run text vs c = some (out c)) :
    ∃ effect : OdbcCall (SQLStatement ν × SQLReturn),
      st.sqlExecute run mem = driverFunction true st effect ∧
      ∀ d, effect d = (.ok ({ st with
          rowCount := (out d.session.connection).rowCount
          cursor := (out d.session.connection).cursor }, (out d.session.connection).retval),
        { d with session := { d.session with
          connection := (out d.session.connection).connection } }) := by
  have outcome : ∀ c, (st.text.bind fun text => (st.values mem text).bind fun values =>
      run text values c) = some (out c) := by
    intro c
    rw [h.prepared, Option.bind_some, h.values, hv, Option.bind_some, hrun]
  refine ⟨_, rfl, fun d => ?_⟩
  simp only [Act.get_bind, outcome]
  rfl

/-- A change of the connection, with the row count. -/
def change (f : Connection → Connection) (count : Int) : Call Int := fun s =>
  (.ok count, { s with connection := f s.connection })

theorem executeUpdate_eq (f : Connection → Connection) (count : Int) :
    executeUpdate f count = (driverCall >>= fun _ => change f count) >>= fun n =>
      driverCall >>= fun _ => pure n := by
  rw [Act.bind_assoc]
  rfl

theorem Ready.executeUpdate {e : Execution} (h : Ready text params st)
    (hv : bound text params mem = some vs) {f : Connection → Connection}
    {retval : Connection → SQLReturn} {count : Int}
    (hf : ∀ c, SQLText.update e text vs c = some ⟨f c, retval c, count, []⟩)
    (hr : ∀ c, retval c ≠ .error ∧ retval c ≠ .invalidHandle) :
    RefinedBy (fun p n => p.2 = n ∧ Ready text params p.1) (st.executeUpdate e mem)
      (executeUpdate f count) := by
  obtain ⟨effect, he, hrun⟩ := h.sqlExecute hv hf
  have fine : Fine effect := by
    intro d a r t hd
    rw [hrun d] at hd
    cases hd
    exact hr _
  rw [executeUpdate_eq]
  unfold SQLStatement.executeUpdate
  rw [he]
  refine .bind (refined_checked (.inl rfl) fine true st (V := fun st n => st.rowCount = n ∧
    Ready text params st) ?_) ?_
  · refine .of_silent ?_ ?_ ?_
    · intro d zero
      rw [Act.bind_of_ok (hrun d)]
      exact zero
    · intro d o ho
      rw [Act.bind_of_ok (hrun d)] at ho
      exact ho
    · intro d
      rw [Act.bind_of_ok (hrun d)]
      exact ⟨.ok count, ⟨rfl, h.prepared, h.binds⟩, fun _ => rfl⟩
  · intro st n hn
    refine Consults.refined (F := fun _ => False)
      (.checked_ok (.inl rfl) (fun _ => rfl) (by simp) (by simp) true 0) (fun _ he => he.elim) ?_
    intro len hl
    exact .pure ⟨hl.trans hn.1, hn.2⟩

theorem refined_commit : RefinedBy Eq SQLStatement.commit OdbcDns.commit := by
  refine refined_checked (.inl rfl) ?_ false () ?_
  · intro d a retval t h
    cases h
    simp
  · exact .of_silent (fun _ h => h) (fun _ _ h => h) fun _ => ⟨.ok (), rfl, fun _ => rfl⟩

end Statements

end OdbcCalls

end OdbcDns
