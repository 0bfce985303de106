import OdbcDns.Proofs.Provenance

namespace OdbcDns
open Slice Rfc1035

/-- The difference that `recursiveResolve` returns may wrap; it is added back to the length
of the request before the sum is bounded. -/
theorem sizeAdd_relayed (n : Nat) {r : Nat} (h : r ≤ 512) :
    sizeAdd headerLength (sizeAdd n (sizeSub r (sizeAdd headerLength n))) = r := by
  rw [← sizeAdd_assoc]
  exact sizeAdd_sizeSub (by omega)

/-- A relayed reply is sent on with the length it was received with. -/
theorem relayed_length_exact {cfg : Config} {t : Turn} {w : Worker} {g : Worker.Stage}
    {query : DNSQuery} {info : ResponseInfo} {s : Session} (server : cfg.noServer = false)
    (extracted : w.clean.extract cfg t = .ok g) (accepted : g.error = false)
    (single : g.session.queries = [query])
    (resolved : resolve cfg t.locals t.lookup (sizeAdd headerLength g.totalBytes)
      (sizeAdd headerLength g.totalBytes) g.session = (.ok info, s))
    (forwarded : info.recursionOccurred = true) :
    ∃ d rest w' reply, (w.clean.opening t).available = d :: rest ∧ d.length ≤ 512 ∧
      w.clean.serve cfg t = .ok (w', reply) ∧ reply.length = d.length := by
  have opened := Worker.opened extracted
  have far : 12 ≤ sizeAdd headerLength g.totalBytes := by
    obtain ⟨_, stage⟩ := Worker.extract_ok extracted accepted
    have total : g.totalBytes = (t.parsed.1.map DNSQuery.length).sum := by rw [stage]
    rw [total, t.sizeAdd_parsed]
    exact Nat.le_add_right 12 _
  obtain ⟨_, u, stays, returned⟩ := resolve_relayed single far resolved forwarded
  obtain ⟨_, _, d, rest, available, short, _, _, length⟩ := recursiveResolve_ok server returned
  refine ⟨d, rest, _, _, ?_, short, Worker.serve_of_ok extracted resolved, ?_⟩
  · rw [← available, stays.available, Session.available, Session.available, Session.exchange,
      Session.exchange, opened.socket, opened.exchanges]
    rfl
  · have sent : sizeAdd headerLength (Worker.answered cfg g s info).totalBytes = d.length := by
      rw [Worker.answered, length]
      exact sizeAdd_relayed g.totalBytes short
    rw [Worker.Stage.reply, sent, maxDnsPacketLength, Nat.min_eq_left short, List.length_take,
      Packet.size]
    exact Nat.min_eq_left (Nat.le_trans short (by decide))

/-- A question of type MX for `a`. -/
def questionMX : Question := ⟨nameA, 0, 15, 0, 1⟩

theorem requestMX_short : (request 0 7 1 [questionMX]).length ≤ 512 := by decide

/-- Requests of nineteen bytes, and replies of two bytes and of none. -/
def twoBytes : Turn := .asking 7 questionA requestA_short [[0, 7]]

def noBytes : Turn := .asking 7 questionMX requestMX_short [[]]

theorem relayed_length_exact_short :
    (∃ w' reply, Worker.idle.clean.serve resolver twoBytes = .ok (w', reply) ∧
        reply.length = 2) ∧
      ∃ w' reply, Worker.idle.clean.serve resolver noBytes = .ok (w', reply) ∧
        reply.length = 0 := by
  constructor
  · have extracted : Worker.idle.clean.extract resolver twoBytes =
        .ok ⟨Worker.idle.clean.asked twoBytes [questionA], false, 7, 7⟩ :=
      Worker.extract_asks resolver twoBytes _ (asks_request 0 7 1 (by decide) (by decide))
    have returned : (resolve resolver twoBytes.locals twoBytes.lookup 19 19
        (Worker.idle.clean.asked twoBytes [questionA])).1 =
          .ok ⟨0, 0, 0, .noError, sizeSub 2 19, true, false⟩ := by
      decide +kernel
    have resolved : resolve resolver twoBytes.locals twoBytes.lookup
        (sizeAdd headerLength 7) (sizeAdd headerLength 7)
        (Worker.idle.clean.asked twoBytes [questionA]) = _ := Act.eq_of_fst returned
    obtain ⟨d, rest, w', reply, available, _, served, length⟩ :=
      @relayed_length_exact resolver twoBytes Worker.idle _ questionA.query _ _ rfl extracted rfl
        rfl resolved rfl
    cases available
    exact ⟨w', reply, served, length⟩
  · have extracted : Worker.idle.clean.extract resolver noBytes =
        .ok ⟨Worker.idle.clean.asked noBytes [questionMX], false, 7, 7⟩ :=
      Worker.extract_asks resolver noBytes _ (asks_request 0 7 1 (by decide) (by decide))
    have returned : (resolve resolver noBytes.locals noBytes.lookup 19 19
        (Worker.idle.clean.asked noBytes [questionMX])).1 =
          .ok ⟨0, 0, 0, .noError, sizeSub 0 19, true, false⟩ := by
      decide +kernel
    have resolved : resolve resolver noBytes.locals noBytes.lookup
        (sizeAdd headerLength 7) (sizeAdd headerLength 7)
        (Worker.idle.clean.asked noBytes [questionMX]) = _ := Act.eq_of_fst returned
    obtain ⟨d, rest, w', reply, available, _, served, length⟩ :=
      @relayed_length_exact resolver noBytes Worker.idle _ questionMX.query _ _ rfl extracted rfl
        rfl resolved rfl
    cases available
    exact ⟨w', reply, served, length⟩

end OdbcDns
