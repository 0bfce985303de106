import OdbcDns.Server
import Mathlib.Data.List.Forall2

namespace OdbcDns

namespace Worker

/-- Caching changes the connection only. -/
theorem cache_ok {cfg : Config} {t : Turn} {w w' : Worker} (h : w.cache cfg t = .ok w') :
    ∃ connection, w' = { w with connection } := by
  rw [cache_eq] at h
  dsimp only at h
  split at h
  · split at h
    · cases h
    · split at h
      · cases h
      · cases h
        exact ⟨_, rfl⟩
  · cases h
    exact ⟨_, rfl⟩

/-- The connection on which a turn starts. -/
def shared (w : Worker) (t : Turn) : Connection :=
  { w.connection with record := t.interference w.connection.record }

/-- The session in which a packet is cached. -/
def cachingSession (w : Worker) (t : Turn) (p : Packet) : Session :=
  ({ w with connection := w.shared t } : Worker).session p [] t.cacheDriver

theorem cache_idle (cfg : Config) (t : Turn) {w : Worker} (idle : w.due = false) :
    w.cache cfg t = .ok { w with connection := w.shared t } := by
  rw [cache_eq]
  exact if_neg (Bool.eq_false_iff.mp idle)

theorem cache_of_due (cfg : Config) {t : Turn} {w : Worker} {p : Packet} (due : w.due = true)
    (packet : w.packet = some p) :
    w.cache cfg t = match cacheResponse cfg t.executions t.heap
        (sizeAdd headerLength w.queryBytes) (ancount p.bytes) (w.cachingSession t p) with
      | (.error (.fault f), _) => .error f
      | (_, s) => .ok { w with connection := s.connection } := by
  rw [cache_eq]
  refine (if_pos due).trans ?_
  dsimp only
  rw [packet]
  rfl

theorem extract_inv {cfg : Config} {t : Turn} {w : Worker} {g : Stage}
    (h : w.extract cfg t = .ok g) :
    (∃ e s, extractQueries cfg t.locals.stack
        (w.session (.ofDatagram t.datagram t.buffer) t.exchanges t.driver) = (.error e, s) ∧
      (∀ f, e ≠ .fault f) ∧
      g = ⟨{ s with packet := s.packet.setRcode Rcode.formatError.byte }, true,
        w.totalBytes, w.queryBytes⟩) ∨
    ∃ n s, extractQueries cfg t.locals.stack
        (w.session (.ofDatagram t.datagram t.buffer) t.exchanges t.driver) = (.ok n, s) ∧
      g = ⟨s, false, n, n⟩ := by
  unfold extract at h
  split at h
  · cases h
  · rename_i e s hne hx
    cases h
    exact .inl ⟨e, s, hx, hne, rfl⟩
  · rename_i n s hx
    cases h
    exact .inr ⟨n, s, hx, rfl⟩

/-- The handlers all do the same, or the process ends. -/
theorem failed_ok {g g' : Stage} {s : Session} {e : Stop} (h : failed g s e = .ok g') :
    g' = { g with
      session := { s with packet := s.packet.setRcode Rcode.serverFailure.byte }
      error := true } := by
  unfold failed at h
  cases e with
  | fault f => cases h
  | code n =>
    dsimp only at h
    split at h
    · cases h
      rfl
    · cases h
  | exception m =>
    cases h
    rfl

theorem respond_ok {cfg : Config} {t : Turn} {old info : ResponseInfo} {g g' : Stage}
    (h : respond cfg t old g = .ok (g', info)) :
    (∃ e s, resolve cfg t.locals t.lookup (sizeAdd headerLength g.totalBytes)
        (sizeAdd headerLength g.totalBytes) g.session = (.error e, s) ∧
      failed g s e = .ok g' ∧ info = old) ∨
    ∃ s, resolve cfg t.locals t.lookup (sizeAdd headerLength g.totalBytes)
        (sizeAdd headerLength g.totalBytes) g.session = (.ok info, s) ∧
      g' = answered cfg g s info := by
  rw [respond_eq] at h
  split at h
  · rename_i e s hx
    cases hf : failed g s e with
    | error f =>
      rw [hf] at h
      cases h
    | ok g'' =>
      rw [hf] at h
      cases h
      exact .inl ⟨e, s, hx, hf, rfl⟩
  · rename_i info' s hx
    cases h
    exact .inr ⟨s, hx, rfl⟩

/-- The worker after a request. -/
def served (w : Worker) (t : Turn) (g : Stage) (info : ResponseInfo) : Worker :=
  { w with
    packet := some g.session.packet
    queries := g.session.queries
    pointerLocations := g.session.pointerLocations
    connection := g.session.connection
    socket := g.session.socket
    responseInfo := info
    error := g.error || t.sendFails
    totalBytes := g.totalBytes
    queryBytes := g.queryBytes }

theorem serve_ok {cfg : Config} {t : Turn} {w w' : Worker} {reply : List Byte}
    (h : w.serve cfg t = .ok (w', reply)) :
    ∃ g g' info, w.extract cfg t = .ok g ∧ respond cfg t w.responseInfo g = .ok (g', info) ∧
      w' = w.served t g' info ∧ reply = g'.reply := by
  simp only [serve_eq, bind, Except.bind] at h
  split at h
  · cases h
  · rename_i g hg
    split at h
    · cases h
    · rename_i r hr
      obtain ⟨g', info⟩ := r
      cases h
      exact ⟨g, g', info, hg, hr, rfl, rfl⟩

/-- A turn serves its request with the worker as the turn before has left it, but
for the connection. -/
theorem turn_ok {cfg : Config} {t : Turn} {w w' : Worker} {reply : List Byte}
    (h : w.turn cfg t = .ok (w', reply)) :
    ∃ connection, w.cache cfg t = .ok { w with connection } ∧
      ({ w with connection } : Worker).clean.serve cfg t = .ok (w', reply) := by
  simp only [turn_eq, bind, Except.bind] at h
  split at h
  · cases h
  · rename_i w₁ hw
    obtain ⟨connection, rfl⟩ := cache_ok hw
    exact ⟨connection, hw, h⟩

theorem run_cons {cfg : Config} {t : Turn} {ts : List Turn} {w w' : Worker}
    {replies : List (List Byte)} (h : w.run cfg (t :: ts) = .ok (w', replies)) :
    ∃ w₁ reply rest, w.turn cfg t = .ok (w₁, reply) ∧ w₁.run cfg ts = .ok (w', rest) ∧
      replies = reply :: rest := by
  simp only [run_cons_eq, bind, Except.bind] at h
  split at h
  · cases h
  · rename_i r hr
    obtain ⟨w₁, reply⟩ := r
    dsimp only at h
    split at h
    · cases h
    · rename_i r' hr'
      obtain ⟨w₂, rest⟩ := r'
      cases h
      exact ⟨w₁, reply, rest, hr, hr', rfl⟩

/-- The last turn of a run. -/
theorem run_concat {cfg : Config} {t : Turn} {ts : List Turn} {w w' : Worker}
    {replies : List (List Byte)} (h : w.run cfg (ts ++ [t]) = .ok (w', replies)) :
    ∃ w₁ rest reply, w.run cfg ts = .ok (w₁, rest) ∧ w₁.turn cfg t = .ok (w', reply) ∧
      replies = rest ++ [reply] := by
  induction ts generalizing w replies with
  | nil =>
    obtain ⟨w₁, reply, rest, ht, hr, rfl⟩ := run_cons h
    cases hr
    exact ⟨w, [], reply, rfl, ht, rfl⟩
  | cons t₀ ts ih =>
    obtain ⟨w₁, reply₀, replies₀, ht, hr, rfl⟩ := run_cons h
    obtain ⟨w₂, rest, reply, hrun, hlast, rfl⟩ := ih hr
    refine ⟨w₂, reply₀ :: rest, reply, ?_, hlast, rfl⟩
    simp only [run_cons_eq, bind, Except.bind, ht, hrun]

/-- A run is known by the replies it makes. -/
theorem run_of_replies {cfg : Config} {ts : List Turn} {w : Worker} {replies : List (List Byte)}
    (h : (w.run cfg ts).toOption.map Prod.snd = some replies) :
    ∃ w', w.run cfg ts = .ok (w', replies) := by
  cases hr : w.run cfg ts with
  | error f =>
    rw [hr] at h
    cases h
  | ok r =>
    rw [hr] at h
    cases h
    exact ⟨r.1, rfl⟩

/-- A condition holds at every turn of a run, for the worker as it is then. -/
def Along (P : Worker → Turn → Prop) (cfg : Config) : List Turn → Worker → Prop
  | [], _ => True
  | t :: ts, w => P w t ∧ ∀ w' reply, w.turn cfg t = .ok (w', reply) → Along P cfg ts w'

theorem Along.and {P Q : Worker → Turn → Prop} {cfg : Config} {ts : List Turn} {w : Worker}
    (hp : Along P cfg ts w) (hq : Along Q cfg ts w) :
    Along (fun w t => P w t ∧ Q w t) cfg ts w := by
  induction ts generalizing w with
  | nil => exact trivial
  | cons t ts ih =>
    exact ⟨⟨hp.1, hq.1⟩, fun w' reply ht => ih (hp.2 w' reply ht) (hq.2 w' reply ht)⟩

/-- What every turn makes of its reply holds of all replies of a run. -/
theorem Along.replies {cfg : Config} {P : Worker → Turn → Prop} {Q : Turn → List Byte → Prop}
    (turn : ∀ {w t w' reply}, P w t → w.turn cfg t = .ok (w', reply) → Q t reply)
    {ts : List Turn} {w w' : Worker} {replies : List (List Byte)} (h : Along P cfg ts w)
    (hr : w.run cfg ts = .ok (w', replies)) : List.Forall₂ Q ts replies := by
  induction ts generalizing w replies with
  | nil =>
    cases hr
    exact .nil
  | cons t ts ih =>
    obtain ⟨w₁, reply, rest, ht, hrest, rfl⟩ := run_cons hr
    exact .cons (turn h.1 ht) (ih (h.2 w₁ reply ht) hrest)

end Worker

end OdbcDns
