import OdbcDns.Runtime
import OdbcDns.Lib.Logged

namespace OdbcDns

/-- What the destructor of `DNSServer` does that others can see. -/
inductive ShutdownEvent where
  /-- `WaitForMultipleObjects(numWait, &threads[index], true, INFINITE)` -/
  | wait (numWait : Nat) (index : Int)
  | deleteThreads
  | deleteRecvBuf
  | closeSocket
  deriving DecidableEq, Repr

def maximumWaitObjects : Nat := 64

def errSocketClose : Int := 9

namespace DNSServer

/-- The loop of the destructor over the threads that are left to wait for. -/
def waitLoop (numThreads threadsWaiting : Nat) : Logged ShutdownEvent Stop Unit :=
  if threadsWaiting > 0 then do
    let numWait :=
      if threadsWaiting > maximumWaitObjects then maximumWaitObjects else threadsWaiting
    Logged.log (.wait numWait ((threadsWaiting : Int) - numThreads))
    waitLoop numThreads (threadsWaiting - numWait)
  else pure ()
termination_by threadsWaiting
decreasing_by
  unfold maximumWaitObjects
  split <;> omega

/-- `DNSServer::~DNSServer`, which throws when the socket cannot be closed. -/
def destructor (numThreads : Nat) (closeFails : Bool) : Logged ShutdownEvent Stop Unit := do
  waitLoop numThreads numThreads
  Logged.log .deleteThreads
  Logged.log .deleteRecvBuf
  Logged.log .closeSocket
  if closeFails then Logged.stop (.code errSocketClose) else pure ()

end DNSServer

end OdbcDns
