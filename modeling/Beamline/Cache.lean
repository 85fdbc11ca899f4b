import Beamline.Document.Decode
import Beamline.Fingerprint

/-!
# Caches

A cache remembers what texts decode to, by their fingerprints, and decodes each of them once.

* `Cache.decode` : the answer for a text, with the number of the decoding that gave it;
* `Cache.clear`, `Cache.size` : forgets all answers, counts the texts remembered.
-/

namespace Beamline

/-- What a text decoded to, and which decoding that was. -/
structure Answer where
  serial : Nat
  result : Except Error Document

/-- What texts decoded to under a policy. -/
structure Cache where
  policy : Policy
  answers : List (List UInt8 × Answer)
  /-- The number of the next decoding. -/
  next : Nat

namespace Cache

def empty (policy : Policy) : Cache :=
  ⟨policy, [], 0⟩

/-- The answer for a text, and the cache that remembers it. -/
def decode (c : Cache) (text : String) : Answer × Cache :=
  let key := fingerprint text
  match c.answers.lookup key with
  | some answer => (answer, c)
  | none =>
    let answer : Answer := ⟨c.next, Document.decode c.policy text⟩
    (answer, { c with answers := (key, answer) :: c.answers, next := c.next + 1 })

/-- The number of different texts that are remembered. -/
def size (c : Cache) : Nat :=
  c.answers.length

/-- Forgets all texts. -/
def clear (c : Cache) : Cache :=
  { c with answers := [] }

end Cache

end Beamline
