import SfcTsx.EditBuffer.Move
import SfcTsx.EditBuffer.Slice

namespace SfcTsx

inductive Operation where
  | insertLeft (offset : Nat) (text : Text)
  | prependLeft (offset : Nat) (text : Text)
  | insertRight (offset : Nat) (text : Text)
  | prependRight (offset : Nat) (text : Text)
  | append (text : Text)
  | prepend (text : Text)
  | remove (start stop : Nat)
  | overwrite (start stop : Nat) (text : Text)
  | update (start stop : Nat) (text : Text)
  | moveRange (start stop destination : Nat)
  | slice (start stop : Nat)
deriving DecidableEq, Repr

open EditBuffer in
def Operation.run : Operation → Editing Unit
  | .insertLeft offset text => EditBuffer.insertLeft offset text
  | .prependLeft offset text => EditBuffer.prependLeft offset text
  | .insertRight offset text => EditBuffer.insertRight offset text
  | .prependRight offset text => EditBuffer.prependRight offset text
  | .append text => EditBuffer.append text
  | .prepend text => EditBuffer.prepend text
  | .remove start stop => EditBuffer.remove start stop
  | .overwrite start stop text => EditBuffer.overwrite start stop text
  | .update start stop text => EditBuffer.update start stop text
  | .moveRange start stop destination => EditBuffer.moveRange start stop destination
  | .slice start stop => do
    let _ ← EditBuffer.slice start stop

/-- Makes calls one after the other, up to the first one that is refused. -/
def EditBuffer.perform : List Operation → Editing Unit
  | [] => pure ()
  | o :: os => do
    o.run
    perform os

end SfcTsx
