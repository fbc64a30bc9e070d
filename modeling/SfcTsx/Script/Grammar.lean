import SfcTsx.Script.Grammar.Element
import SfcTsx.Script.Grammar.Module

namespace SfcTsx.Script.Grammar

open Rule

/-- The rules with a number of layers below them. Without a layer every rule fails. -/
def layer : Nat → Rules
  | 0 =>
    { type := failure
      assign := failure
      unary := failure
      pattern := fun _ => failure
      stmt := fun _ => failure
      item := failure
      classExpr := failure
      element := failure }
  | n + 1 =>
    { type := fun s p => type (layer n) s p
      assign := fun s p => assign (layer n) s p
      unary := fun s p => unaryExpr (layer n) s p
      pattern := fun arrow s p => pattern (layer n) arrow s p
      stmt := fun declarations s p => stmt (layer n) declarations s p
      item := fun s p => item (layer n) s p
      classExpr := fun s p => classExpr (layer n) s p
      element := fun s p => element (layer n) s p }

def itemsFrom (r : Rules) : Nat → Rule (List Stmt)
  | 0 => failure
  | fuel + 1 => do
    if (← lexeme).kind == .endOfText then return []
    let i ← r.item
    return i.stmt :: (← itemsFrom r fuel)

/-- Reads a script, if it keeps to the grammar. Between two layers that read the same lexeme there
are less than four others. -/
def parse? (dialect : Dialect) (source : Text) : Option Program := do
  let fuel := source.length + 1
  let (body, _) ← itemsFrom (layer (4 * fuel + 16)) fuel { dialect, fuel } (Place.first source)
  return { span := ⟨0, source.size⟩, body }

end SfcTsx.Script.Grammar
