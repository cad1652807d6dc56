/-!
# Levels of records

Compiling and checking put on record what they do.  A level says how much a record matters.
-/

namespace ActivityNetwork

/-- How much a record matters. -/
inductive Level where
  | trace
  | debug
  deriving DecidableEq, Repr

namespace Level

def text : Level → String
  | trace => "TRACE"
  | debug => "DEBUG"

end Level

end ActivityNetwork
