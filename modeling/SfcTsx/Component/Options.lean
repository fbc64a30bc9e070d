import SfcTsx.Script.Classify
import SfcTsx.Script.Tree

namespace SfcTsx.Component

structure Options where
  marker : String := Script.defaultMarker
  dialect : Script.Dialect := .ts
  /-- Blocks of nothing but white space count. -/
  keepEmpty : Bool := true
  /-- Scripts are read by way of their ASCII form. -/
  ascii : Bool := false
  helpersModule : String := Script.defaultHelpersModule
  hiresMaps : Bool := false
deriving DecidableEq, Repr

def Options.name (o : Options) (suffix : String) : String := o.marker ++ suffix

end SfcTsx.Component
