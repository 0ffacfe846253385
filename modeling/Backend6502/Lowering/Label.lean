/-!
# Labels

The labels that code generation makes up. Each carries a number that is counted within the function,
so that two uses never share one; a label of the source has a name instead.
-/

namespace Backend6502.Lowering

inductive Label where
  | forStart (n : Nat)
  | forUpdate (n : Nat)
  | forEnd (n : Nat)
  | whileStart (n : Nat)
  | whileEnd (n : Nat)
  | doStart (n : Nat)
  | doCond (n : Nat)
  | doEnd (n : Nat)
  | otherwise (n : Nat)
  | ifEnd (n : Nat)
  | switchEnd (n : Nat)
  | switchBody (n k : Nat)
  | switchNext (n k : Nat)
  /-- Behind the second half of a condition. -/
  | pastCond (n : Nat)
  /-- Behind a short piece of code. -/
  | here (n : Nat)
  | source (name : String)
  deriving DecidableEq, Repr

def Label.text : Label → String
  | .forStart n => ".for" ++ toString n
  | .forUpdate n => ".forupdate" ++ toString n
  | .forEnd n => ".forend" ++ toString n
  | .whileStart n => ".while" ++ toString n
  | .whileEnd n => ".whileend" ++ toString n
  | .doStart n => ".dowhile" ++ toString n
  | .doCond n => ".dowhilecond" ++ toString n
  | .doEnd n => ".dowhileend" ++ toString n
  | .otherwise n => ".else" ++ toString n
  | .ifEnd n => ".ifend" ++ toString n
  | .switchEnd n => ".switchend" ++ toString n
  | .switchBody n k => ".switchbody" ++ toString n ++ "_" ++ toString k
  | .switchNext n k => ".switchnext" ++ toString n ++ "_" ++ toString k
  | .pastCond n => ".cond" ++ toString n
  | .here n => ".here" ++ toString n
  | .source name => "." ++ name

end Backend6502.Lowering
