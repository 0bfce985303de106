import OdbcDns.Proofs.ServerSteps
import OdbcDns.Proofs.Questions
import OdbcDns.Lib.Threads

namespace OdbcDns

/-- The request that the receiver has not pushed yet. -/
def ReceiverPlace.inHand {Request : Type} : ReceiverPlace Request → List Request
  | .received r => [r]
  | _ => []

namespace Thread

/-- The request whose packet the thread has taken and not freed. A thread that leaves
at the head of its loop never frees it. -/
def owned (th : Thread) : List DNSRequest :=
  match th.place with
  | .waiting | .checking | .taking | .broke => []
  | _ => th.request.toList

/-- The request that the thread has taken and not answered. -/
def inService (th : Thread) : List DNSRequest :=
  match th.place with
  | .serving | .hung true => th.request.toList
  | _ => []

variable {th : Thread}

theorem owned_of_inCall (h : th.InCall) : th.owned = th.request.toList := by
  unfold owned
  rcases h with ⟨here, _⟩ | here <;> rw [here]

theorem owned_of_cleans (h : th.Cleans) : th.owned = th.request.toList := by
  unfold owned
  rcases h with ⟨here, _⟩ | here <;> rw [here]

theorem inService_of_cleans (h : th.Cleans) : th.inService = [] := by
  unfold inService
  rcases h with ⟨here, _⟩ | here <;> rw [here]

end Thread

namespace DNSServer

theorem Goes.owned {cfg : Config} {s : DNSServer} {a : ServerAction} {th th' : Thread}
    (h : Goes cfg s th a th') :
    th'.owned = th.owned := by
  cases h <;> simp_all [Thread.owned]

theorem Goes.inService {cfg : Config} {s : DNSServer} {a : ServerAction} {th th' : Thread}
    (h : Goes cfg s th a th') :
    th'.inService = th.inService := by
  cases h <;> simp_all [Thread.inService]

/-- The requests whose packets somebody has still to free: the receiver, whoever takes
it from the queue, or the thread that has taken it. -/
def holders (s : DNSServer) : List DNSRequest :=
  s.receiver.inHand ++ s.requestQueue ++ s.threads.flatMap Thread.owned

/-- The requests that are not answered yet, apart from the one in the receiver's hand. -/
def unanswered (s : DNSServer) : List DNSRequest :=
  s.requestQueue ++ s.threads.flatMap Thread.inService

/-- Every allocated packet is held by exactly one party, and no packet has been used or
freed after it was freed. -/
structure Owned (s : DNSServer) : Prop where
  nodup : s.allocated.Nodup
  packets : ∀ f : Nat → Nat, total f s.allocated = total (fun r => f r.address) s.holders
  useAfterFree : s.ended ≠ some .useAfterFree
  doubleFree : s.ended ≠ some .doubleFree

/-- What has been pushed is answered, in the queue, or in the hands of one thread. -/
def Accounted (s : DNSServer) : Prop :=
  ∀ f : DNSRequest → Nat,
    total f s.pushed = total f (s.replies.map Reply.request) + total f s.unanswered

section Steps

variable {cfg : Config} {s t : DNSServer} {a : ServerAction} {i : Nat} {th : Thread}

/-- The packet of a request that a thread owns is allocated. -/
theorem Owned.mem {r : DNSRequest} (h : s.Owned) (hi : s.threads[i]? = some th)
    (own : th.owned = th.request.toList) (hr : th.request = some r) : r.address ∈ s.allocated := by
  have hall := h.packets fun x => if x = r.address then 1 else 0
  rw [total_indicator, ← total_map (fun x => if x = r.address then 1 else 0) DNSRequest.address,
    total_indicator] at hall
  rw [← List.count_pos_iff, hall, List.count_pos_iff]
  refine List.mem_map_of_mem (List.mem_append_right _ ?_)
  refine List.mem_flatMap_of_mem (List.mem_of_getElem? hi) ?_
  rw [own, hr]
  exact List.mem_singleton_self r

theorem Owned.ends {m : Mishap} (h : s.Owned) (he : Ends cfg s a m) :
    ({ s with ended := some m } : DNSServer).Owned := by
  refine ⟨h.nodup, h.packets, ?_, ?_⟩
  · intro hm
    cases he with
    | useAfterFree hi call hr freed => exact freed (h.mem hi (Thread.owned_of_inCall call) hr)
    | emptyQueue | doubleFree | fault => cases hm
  · intro hm
    cases he with
    | doubleFree hi cleans hr freed => exact freed (h.mem hi (Thread.owned_of_cleans cleans) hr)
    | emptyQueue | useAfterFree | fault => cases hm

section Put

variable {l l' : List DNSRequest}

theorem total_holders_put (f : DNSRequest → Nat) (hi : s.threads[i]? = some th) (th' : Thread)
    (before : th.owned = l) (after : th'.owned = l') :
    total f (s.put i th').holders + total f l = total f s.holders + total f l' := by
  have := total_flatMap_set f (g := Thread.owned) hi th'
  rw [before, after] at this
  simp only [holders, put, total_append]
  omega

theorem total_unanswered_put (f : DNSRequest → Nat) (hi : s.threads[i]? = some th) (th' : Thread)
    (before : th.inService = l) (after : th'.inService = l') :
    total f (s.put i th').unanswered + total f l = total f s.unanswered + total f l' := by
  have := total_flatMap_set f (g := Thread.inService) hi th'
  rw [before, after] at this
  simp only [unanswered, put, total_append]
  omega

end Put

/-- Packets that stay allocated may change hands. -/
theorem Owned.handed (h : s.Owned) (allocated : t.allocated = s.allocated)
    (ended : t.ended = s.ended) (holders : ∀ f, total f t.holders = total f s.holders) :
    t.Owned where
  nodup := allocated ▸ h.nodup
  packets f := by rw [allocated, holders]; exact h.packets f
  useAfterFree := ended ▸ h.useAfterFree
  doubleFree := ended ▸ h.doubleFree

theorem Owned.moves (h : s.Owned) (hm : Moves cfg s a t) : t.Owned := by
  cases hm with
  | @receive datagram client address buffer short here running fresh =>
    refine ⟨List.nodup_cons.mpr ⟨fresh, h.nodup⟩, fun f => ?_, h.useAfterFree, h.doubleFree⟩
    have := h.packets f
    simp only [holders, here, ReceiverPlace.inHand, total_append, total_cons, total_nil] at this ⊢
    omega
  | nothing outside => exact h
  | push here =>
    refine h.handed rfl rfl fun f => ?_
    simp only [holders, here, ReceiverPlace.inHand, total_append, total_nil]
    omega
  | release here =>
    refine h.handed rfl rfl fun f => ?_
    simp only [holders, here, ReceiverPlace.inHand]
  | leave here stopped =>
    refine h.handed rfl rfl fun f => ?_
    simp only [holders, here, ReceiverPlace.inHand]
  | stopRunning => exact h.handed rfl rfl fun _ => rfl
  | setQuit stopped => exact h.handed rfl rfl fun _ => rfl
  | goes hi own goes =>
    exact h.handed rfl rfl fun f =>
      Nat.add_right_cancel (total_holders_put f hi _ goes.owned.symm rfl)
  | @freed i th r hi cleans hr live =>
    refine ⟨h.nodup.erase _, fun f => ?_, h.useAfterFree, h.doubleFree⟩
    have before : th.owned = [r] := by rw [Thread.owned_of_cleans cleans, hr, Option.toList_some]
    have hput := total_holders_put (fun r => f r.address) hi
      { th with place := .waiting, worker := th.worker.clean } before rfl
    exact Nat.add_right_cancel ((total_erase f live).trans ((h.packets f).trans hput.symm))
  | cleaned hi cleans hr =>
    refine h.handed rfl rfl fun f => ?_
    exact total_holders_put f hi _ (by rw [Thread.owned_of_cleans cleans, hr, Option.toList_none])
      rfl
  | waited hi here unit =>
    refine h.handed rfl rfl fun f => ?_
    exact total_holders_put f hi _ (by rw [Thread.owned, here]) rfl
  | @took i th r rest hi here first =>
    refine h.handed rfl rfl fun f => ?_
    have before : th.owned = [] := by rw [Thread.owned, here]
    have after : ({ th with place := .serving, request := some r } : Thread).owned = [r] := rfl
    have hput := total_holders_put f hi _ before after
    simp only [holders, put, first, total_append, total_cons, total_nil] at hput ⊢
    omega
  | @served i th r turn w bytes hi here hr datagram buffer serve =>
    refine h.handed rfl rfl fun f => ?_
    have before : th.owned = th.request.toList := Thread.owned_of_inCall (.inr here)
    exact Nat.add_right_cancel (total_holders_put f hi _ before rfl)
  | ends inside he => exact h.ends he

theorem Accounted.moves (h : s.Accounted) (hm : Moves cfg s a t) : t.Accounted := by
  intro f
  have hf := h f
  cases hm with
  | receive | nothing | release | leave | stopRunning | setQuit | ends => exact hf
  | push here =>
    simp only [unanswered, total_append] at hf ⊢
    omega
  | @goes i th th' _ hi own goes =>
    have hput := total_unanswered_put f hi th' goes.inService.symm rfl
    exact hf.trans (congrArg _ (Nat.add_right_cancel hput).symm)
  | @freed i th r hi cleans hr live =>
    have hput := total_unanswered_put f hi { th with place := .waiting, worker := th.worker.clean }
      (Thread.inService_of_cleans cleans) rfl
    exact hf.trans (congrArg _ hput.symm)
  | @cleaned i th hi cleans hr =>
    have hput := total_unanswered_put f hi { th with place := .waiting, worker := th.worker.clean }
      (Thread.inService_of_cleans cleans) rfl
    exact hf.trans (congrArg _ hput.symm)
  | @waited i th hi here unit =>
    have before : th.inService = [] := by rw [Thread.inService, here]
    have hput := total_unanswered_put f hi { th with place := .checking } before rfl
    exact hf.trans (congrArg _ hput.symm)
  | @took i th r rest hi here first =>
    have before : th.inService = [] := by rw [Thread.inService, here]
    have after : ({ th with place := .serving, request := some r } : Thread).inService = [r] := rfl
    have hput := total_unanswered_put f hi _ before after
    simp only [unanswered, put, first, total_append, total_cons, total_nil] at hput hf ⊢
    omega
  | @served i th r turn w bytes hi here hr datagram buffer serve =>
    have before : th.inService = [r] := by rw [Thread.inService, here, hr, Option.toList_some]
    have after : ({ th with place := .head, worker := w } : Thread).inService = [] := rfl
    have hput := total_unanswered_put f hi _ before after
    show total f s.pushed = total f ((s.replies ++ [Reply.mk i r bytes]).map Reply.request) +
      total f (s.put i { th with place := .head, worker := w }).unanswered
    simp only [List.map_append, List.map_cons, List.map_nil, total_append, total_cons, total_nil]
      at hput ⊢
    omega

end Steps

variable {cfg : Config} {C : DNSServer → ServerAction → Prop} {startups : List Startup}
  {actions : List ServerAction} {s : DNSServer}

theorem start_total (f : DNSRequest → Nat) (g : Thread → List DNSRequest)
    (h : ∀ w, g ⟨.head, none, w⟩ = []) : total f ((start startups).threads.flatMap g) = 0 := by
  rw [total_flatMap]
  refine total_eq_zero fun th hth => ?_
  obtain ⟨u, _, rfl⟩ := List.mem_map.mp hth
  exact congrArg (total f) (h u.worker)

theorem owned_of_run (run : Steps (step cfg) C (start startups) actions s) : s.Owned := by
  refine run.invariant (fun _ _ _ h _ hs => h.moves (moves_of_step hs).2) ?_
  refine ⟨List.nodup_nil, fun f => ?_, nofun, nofun⟩
  exact (start_total _ Thread.owned fun _ => rfl).symm

/-- In every run the allocated packets are exactly those that the receiver, the queue and
the threads hold, each held by one of them; no packet is used or freed after it was freed. -/
theorem packets_owned (run : Steps (step cfg) C (start startups) actions s) :
    s.allocated.Nodup ∧ s.allocated.Perm (s.holders.map DNSRequest.address) ∧
      s.ended ≠ some .useAfterFree ∧ s.ended ≠ some .doubleFree := by
  have owned := owned_of_run run
  refine ⟨owned.nodup, perm_of_total fun f => ?_, owned.useAfterFree, owned.doubleFree⟩
  rw [total_map]
  exact owned.packets f

/-- Two threads, and one request: it is received, the first thread answers it, and frees its
packet at its next iteration. -/
def twoThreads : List Startup := List.replicate 2 ⟨⟨[], [], []⟩, ⟨[], []⟩, 0, 0, 0⟩

def oneRequest : List ServerAction :=
  [.loop 0, .clean 0, .loop 1, .clean 1,
    .receive (request 0 7 1 [questionA]) ⟨2130706433, 5353⟩ 4096 .zeroed, .push, .release,
    .wait 0, .check 0, .take 0,
    .serve 0 (.quiet (request 0 7 1 [questionA]) requestA_short
      fun _ => [⟨60, [97], [49, 46, 50, 46, 51, 46, 52], typeA, 1⟩]),
    .loop 0, .clean 0]

/-- The state that actions of the two threads lead to, without a condition on them. -/
def after (actions : List ServerAction) : Option DNSServer :=
  follow (step ⟨0, false⟩) (fun _ _ => True) (start twoThreads) actions

/-- A state is known by what can be computed of it. -/
theorem exists_after {α : Type} {actions : List ServerAction} {f : DNSServer → α} {x : α}
    (h : (after actions).map f = some x) :
    ∃ s, Steps (step ⟨0, false⟩) (fun _ _ => True) (start twoThreads) actions s ∧ f s = x := by
  obtain ⟨s, hs, hx⟩ := Option.map_eq_some_iff.mp h
  exact ⟨s, steps_of_follow hs, hx⟩

theorem packets_owned_taken : ∃ s : DNSServer, s.allocated = [4096] ∧
    s.allocated.Perm (s.holders.map DNSRequest.address) := by
  have computed : (after (oneRequest.take 10)).map allocated = some [4096] := by decide +kernel
  obtain ⟨s, run, hs⟩ := exists_after computed
  exact ⟨s, hs, (packets_owned run).2.1⟩

/-- What has been pushed is accounted for in every run. -/
theorem accounted_of_run (run : Steps (step cfg) C (start startups) actions s) :
    s.pushed.Perm (s.replies.map Reply.request ++ s.unanswered) := by
  have first : (start startups).Accounted := by
    intro f
    have none := @start_total startups f Thread.inService fun _ => rfl
    rw [unanswered, total_append, none]
    rfl
  have accounted : s.Accounted :=
    run.invariant (fun _ _ _ h _ hs => h.moves (moves_of_step hs).2) first
  refine perm_of_total fun f => ?_
  rw [total_append]
  exact accounted f

/-- In every run no request is answered twice, or while it is in the queue or being served:
for every request there are as many replies, places in the queue and threads serving it
as it has been pushed. A reply goes to a request that was pushed. -/
theorem requests_accounted (run : Steps (step cfg) C (start startups) actions s) (r : DNSRequest) :
    (s.replies.map Reply.request).count r + s.requestQueue.count r +
      (s.threads.flatMap Thread.inService).count r = s.pushed.count r := by
  rw [(accounted_of_run run).count_eq, unanswered, List.count_append, List.count_append,
    Nat.add_assoc]

theorem requests_accounted_answered : ∃ s : DNSServer, s.replies.length = 1 ∧
    s.requestQueue = [] ∧ ∀ r, (s.replies.map Reply.request).count r +
      (s.threads.flatMap Thread.inService).count r = s.pushed.count r := by
  have computed : (after oneRequest).map (fun s => (s.replies.length, s.requestQueue)) =
      some (1, []) := by decide +kernel
  obtain ⟨s, run, hs⟩ := exists_after computed
  obtain ⟨one, empty⟩ := Prod.mk.inj hs
  refine ⟨s, one, empty, fun r => ?_⟩
  have := requests_accounted run r
  rw [empty] at this
  exact this

end DNSServer

end OdbcDns
