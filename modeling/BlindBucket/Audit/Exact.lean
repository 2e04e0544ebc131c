import BlindBucket.Audit.Verify
import Mathlib.Data.List.Forall2

/-!
# What an accepted line says

A line of an accepted log holds the record that was checked, and the decoder has not looked at what follows it there.
Nor has the verifier looked at what lies beyond the bytes it reads. So a line says nothing else exactly if these two are
empty of text. What the texts of JSON objects are is left to a parameter, with the laws that a decoder of one value
after another keeps.
-/

namespace BlindBucket.Audit

open GoText List

variable {V : Verifier} {Object : Bytes → Decoded → Prop} {line s t : Bytes} {record : Record}

end BlindBucket.Audit
