import Sukkula.Croc.PakeKey

/-! # What the keys are bound to

Every string that is hashed is a sequence of fields, each after its length. Fields
can be read back one by one, whatever is in them, so two such strings are the same
only if all their fields are.
-/

namespace Sukkula.Croc

open BigEndian

def Context.fields (c : Context) : List Bytes :=
  [transcriptDomain, versionField, c.purpose.name, utf8 c.room, utf8 c.curve,
    (identities c.purpose c.room).1, (identities c.purpose c.room).2, c.initiator,
    c.responder, c.salt]

namespace Pake

/-- The string of which the bound key is the hash. -/
def boundInput (p : Pake) (ids : Bytes × Bytes) : Option Bytes := do
  let points ← p.points
  return frame [boundKeyDomain, p.pw, ids.1, ids.2, utf8 p.curve.name] ++
    points.flatMap fun xy => frame [shortest xy.1, shortest xy.2]

theorem boundKey_eq (H : Hashes) (p : Pake) (ids : Bytes × Bytes) :
    p.boundKey H ids = (p.boundInput ids).map H.sha256 := by
  unfold boundKey boundInput
  cases p.points <;> rfl

end Pake

end Sukkula.Croc
