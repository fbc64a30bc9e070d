import SfcTsx.Script.Tolerant.Stmt

namespace SfcTsx.Script.Tolerant

/-- The parsers with `depth` levels of nesting left. -/
def level : Nat → Level
  | 0 => .bottom
  | depth + 1 =>
    let up := level depth
    { stmt := up.statement
      assign := up.assignExpr
      unary := up.unaryExpr
      primary := up.primaryExpr
      bindingPat := up.pattern }

/-- The nesting of statements, expressions and patterns beyond which code is skipped. -/
def maxDepth : Nat := 512

def stmts : Parse (List Stmt) :=
  repeatUntil (isAt .endOfText) do return [← (level maxDepth).stmt]

def parse (dialect : Dialect) (source : Text) : Program :=
  { span := ⟨0, source.size⟩
    body := (stmts (.ofText dialect source) 0).1 }

end SfcTsx.Script.Tolerant
