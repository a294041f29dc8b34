import Coverage.Syntax.Node

/-!
# Statements and patterns of a special form
-/

namespace Coverage.Syntax.Node

/-- An expression statement that holds a string constant. -/
def isDocstring : Node → Bool
  | .mk _ (.plain .exprStmt) _ (.child (.mk _ (.plain .constant) _ (.constant (.str _) :: _)) :: _) => true
  | _ => false

/-- An import from `__future__`. -/
def isFutureImport : Node → Bool
  | .mk _ (.plain .importFrom) _ (.text m :: _) => m == "__future__"
  | _ => false

mutual
/-- A pattern that always matches: a wildcard, a capture, or one that holds such a pattern as its own or
as an alternative. -/
def isIrrefutable : Node → Bool
  | .mk _ (.plain .matchAs) _ (.none :: _) => true
  | .mk _ (.plain .matchAs) _ (.child p :: _) => p.isIrrefutable
  | .mk _ (.plain .matchOr) _ (.many ps :: _) => anyIrrefutable ps
  | _ => false

def anyIrrefutable : List Node → Bool
  | [] => false
  | p :: ps => p.isIrrefutable || anyIrrefutable ps
end

/-- A case without a guard whose pattern always matches. -/
def isDefaultCase : Node → Bool
  | .mk _ .matchCase _ (.child p :: .none :: _) => p.isIrrefutable
  | _ => false

/-- The decorators of a class or function definition. -/
def decorators : Node → List Node
  | .mk _ .classDef _ [_, _, _, _, .many ds] => ds
  | .mk _ (.functionDef _) _ [_, _, _, .many ds, _, _] => ds
  | _ => []

end Coverage.Syntax.Node
