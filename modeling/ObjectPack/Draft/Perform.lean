import ObjectPack.Draft
import ObjectPack.WriteStep

/-!
# Performing write steps

Each write step is one operation on the open block of a draft; a list of them is performed in order.
-/

namespace ObjectPack.Draft

/-- Performs one write step on the open block. -/
def perform (d : Draft) : WriteStep → Except Fault Draft
  | .scalar value => d.write value
  | .aligned value => d.writeAligned value
  | .bytes value => d.append value
  | .zeros count => d.append (Bytes.zeros count)
  | .align alignment => d.align alignment
  | .nullReference => d.writeNull
  | .location container entry => d.writeLocation container entry

/-- Performs write steps in order. -/
def performAll (d : Draft) (steps : List WriteStep) : Except Fault Draft := steps.foldlM perform d

end ObjectPack.Draft
