/-! Records of what a computation came across. They are values that the computation returns. -/

namespace ShiftReduce

inductive Level where
  | trace
  | debug
  | warn
deriving DecidableEq, Repr

def Level.text : Level → String
  | trace => "TRACE"
  | debug => "DEBUG"
  | warn => "WARN"

structure LogRecord where
  level : Level
  message : String
deriving DecidableEq, Repr

def LogRecord.text (r : LogRecord) : String := s!"{r.level.text} {r.message}"

end ShiftReduce
