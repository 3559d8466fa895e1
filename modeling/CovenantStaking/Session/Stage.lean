/-!
# How far a session has come
-/

namespace CovenantStaking

/-- Where a session stands between a request and a signature. -/
inductive Stage
  /-- No request has been loaded. -/
  | unparsed
  /-- A request is loaded and waits for its transaction. -/
  | parsed
  /-- The transaction has passed every check. -/
  | verified
  /-- A step failed. -/
  | rejected
  deriving DecidableEq

def Stage.name : Stage → String
  | .unparsed => "Unparsed"
  | .parsed => "Parsed"
  | .verified => "Verified"
  | .rejected => "Rejected"

end CovenantStaking
