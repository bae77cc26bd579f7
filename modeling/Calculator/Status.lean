/-!
# Exit statuses

A run of the program ends in one of four ways, each with its exit code.
-/

namespace Calculator

inductive Status
  | success
  | failure
  | usage
  | badExpression
deriving DecidableEq

def Status.code : Status → UInt8
  | .success => 0
  | .failure => 1
  | .usage => 2
  | .badExpression => 65

end Calculator
