import OdbcDns.Shutdown

namespace OdbcDns

namespace ShutdownEvent

def isWait : ShutdownEvent → Bool
  | .wait _ _ => true
  | _ => false

/-- The handle `threads[i]` is one of those that the call waits for. -/
def waitsFor (i : Nat) : ShutdownEvent → Bool
  | .wait numWait index => index ≤ i && (i : Int) < index + numWait
  | _ => false

/-- A call waits for handles of the array only, and for no more than the system allows. -/
def InArray (numThreads : Nat) : ShutdownEvent → Prop
  | .wait numWait index => 0 ≤ index ∧ index + numWait ≤ numThreads ∧ numWait ≤ 64
  | _ => True

end ShutdownEvent

/-- Every thread is waited for once, before anything is released. -/
structure WaitsForAll (numThreads : Nat) (log : List ShutdownEvent) : Prop where
  inside : ∀ e ∈ log, e.InArray numThreads
  once : ∀ i < numThreads, log.countP (ShutdownEvent.waitsFor i) = 1
  first : ∃ waits releases, log = waits ++ releases ∧ (∀ e ∈ waits, e.isWait = true) ∧
    ∀ e ∈ releases, e.isWait = false

namespace DNSServer

theorem waitLoop_zero (numThreads : Nat) : waitLoop numThreads 0 = (.ok (), []) := by
  rw [waitLoop]
  rfl

theorem waitLoop_pos (numThreads : Nat) {k : Nat} (h : 0 < k) :
    waitLoop numThreads k = ((waitLoop numThreads (k - min k 64)).1,
      .wait (min k 64) ((k : Int) - numThreads) :: (waitLoop numThreads (k - min k 64)).2) := by
  have size : (if k > maximumWaitObjects then maximumWaitObjects else k) = min k 64 := by
    unfold maximumWaitObjects
    split <;> omega
  rw [waitLoop, if_pos h]
  simp only [size]
  rfl

/-- The loop always comes to its end. -/
theorem waitLoop_returns (numThreads k : Nat) : (waitLoop numThreads k).1 = .ok () := by
  induction k using Nat.strongRecOn with
  | ind k ih =>
    rcases Nat.eq_zero_or_pos k with rfl | pos
    · rw [waitLoop_zero]
    · rw [waitLoop_pos numThreads pos]
      exact ih _ (by omega)

theorem waitLoop_waits (numThreads k : Nat) :
    ∀ e ∈ (waitLoop numThreads k).2, e.isWait = true := by
  induction k using Nat.strongRecOn with
  | ind k ih =>
    rcases Nat.eq_zero_or_pos k with rfl | pos
    · simp [waitLoop_zero]
    · rw [waitLoop_pos numThreads pos]
      exact List.forall_mem_cons.mpr ⟨rfl, ih _ (by omega)⟩

def releases : List ShutdownEvent := [.deleteThreads, .deleteRecvBuf, .closeSocket]

theorem destructor_log (numThreads : Nat) (closeFails : Bool) :
    (destructor numThreads closeFails).2 = (waitLoop numThreads numThreads).2 ++ releases := by
  unfold destructor
  rw [Logged.bind_of_ok _ (waitLoop_returns numThreads numThreads)]
  cases closeFails with
  | true => rfl
  | false => rfl

/-- Up to 64 threads one call is made, for all of them. -/
theorem waitLoop_few {numThreads : Nat} (pos : 0 < numThreads) (few : numThreads ≤ 64) :
    (waitLoop numThreads numThreads).2 = [.wait numThreads 0] := by
  rw [waitLoop_pos numThreads pos, Nat.min_eq_left few, Nat.sub_self, waitLoop_zero, Int.sub_self]

/-- With more than 64 threads the second call starts before the array. -/
theorem waitLoop_many {numThreads : Nat} (many : 64 < numThreads) :
    .wait (min (numThreads - 64) 64) (-64) ∈ (waitLoop numThreads numThreads).2 := by
  rw [waitLoop_pos numThreads (by omega), Nat.min_eq_right (Nat.le_of_lt many),
    waitLoop_pos numThreads (Nat.sub_pos_of_lt many)]
  refine List.mem_cons_of_mem _ (List.mem_cons.mpr (.inl ?_))
  have index : ((numThreads - 64 : Nat) : Int) - numThreads = -64 := by omega
  rw [index]

theorem countP_releases (i : Nat) : releases.countP (ShutdownEvent.waitsFor i) = 0 := rfl

/-- The destructor waits for every thread exactly when one call is enough for all. -/
theorem waits_for_all_iff (numThreads : Nat) (closeFails : Bool) :
    WaitsForAll numThreads (destructor numThreads closeFails).2 ↔ numThreads ≤ 64 := by
  rw [destructor_log]
  constructor
  · intro all
    refine Nat.le_of_not_lt fun many => ?_
    have inside := (all.inside _ (List.mem_append_left _ (waitLoop_many many))).1
    omega
  · intro few
    have first := waitLoop_waits numThreads numThreads
    rcases Nat.eq_zero_or_pos numThreads with rfl | pos
    · rw [waitLoop_zero] at first ⊢
      exact ⟨by simp [releases, ShutdownEvent.InArray], by simp,
        [], releases, rfl, first, by decide⟩
    · rw [waitLoop_few pos few] at first ⊢
      refine ⟨?_, fun i hi => ?_, _, releases, rfl, first, by decide⟩
      · simp only [releases, ShutdownEvent.InArray, List.singleton_append, List.forall_mem_cons]
        exact ⟨⟨by omega, by omega, few⟩, trivial, trivial, trivial, by simp⟩
      · rw [List.countP_append, countP_releases]
        have here : ShutdownEvent.waitsFor i (.wait numThreads 0) = true := by
          simp [ShutdownEvent.waitsFor, hi]
        simp [here]

/-- Of 65 threads the last one is never waited for, and a handle before the array is. -/
theorem waits_for_all_not_sixtyFive :
    (destructor 65 false).2 = .wait 64 0 :: .wait 1 (-64) :: releases ∧
      ¬ WaitsForAll 65 (destructor 65 false).2 := by
  have log : (destructor 65 false).2 = .wait 64 0 :: .wait 1 (-64) :: releases := by
    have first : waitLoop 65 65 = ((waitLoop 65 1).1, .wait 64 0 :: (waitLoop 65 1).2) :=
      waitLoop_pos 65 (by decide)
    have second : waitLoop 65 1 = ((waitLoop 65 0).1, .wait 1 (-64) :: (waitLoop 65 0).2) :=
      waitLoop_pos 65 (by decide)
    rw [destructor_log, first, second, waitLoop_zero]
    rfl
  refine ⟨log, fun all => ?_⟩
  have once := all.once 64 (by decide)
  rw [log] at once
  cases once

end DNSServer

end OdbcDns
