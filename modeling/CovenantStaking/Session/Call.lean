import CovenantStaking.Session.Basic

/-!
# Runs of a session

What a host can do with a session, what it is answered, and where a session stands after a list of
calls.
-/

namespace CovenantStaking

inductive Call
  | load (blob : Bytes)
  | verify (tx : Transaction) (host : HostKeys)
  | finish

inductive Answer
  | loaded (result : Except Failure Unit)
  | verified (result : Except Failure Approval)
  | finished

namespace Session

variable [Crypto]

def step (s : Session) : Call → Answer × Session
  | .load blob =>
    let (result, next) := s.load blob
    (.loaded result, next)
  | .verify tx host =>
    let (result, next) := s.verify tx host
    (.verified result, next)
  | .finish => (.finished, s.finish)

def run (s : Session) (calls : List Call) : Session :=
  calls.foldl (fun s call => (s.step call).2) s

/-- Every answer, with the session as it stands after it. -/
def trace (s : Session) : List Call → List (Answer × Session)
  | [] => []
  | call :: calls => s.step call :: trace (s.step call).2 calls

/-- Whether calls can lead from a new session here. -/
def Reachable (s : Session) : Prop :=
  ∃ policy calls, s = (start policy).run calls

@[simp] theorem run_nil (s : Session) : s.run [] = s := rfl

@[simp] theorem run_cons (s : Session) (call : Call) (calls : List Call) :
    s.run (call :: calls) = (s.step call).2.run calls := rfl

theorem run_append (s : Session) (before after : List Call) :
    s.run (before ++ after) = (s.run before).run after := by
  simp [run]

end Session

end CovenantStaking
