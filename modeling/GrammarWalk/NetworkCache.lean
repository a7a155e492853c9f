import GrammarWalk.Load

/-!
Loaded networks under keys. A network is loaded again only when its words have changed, as their
fingerprint tells; each load has a number, so that two answers are the same shared network if and
only if their numbers agree.
-/

namespace GrammarWalk

namespace NetworkCache

/-- What is kept under a key. Fingerprints are of the type `κ`; where none is given the words are
kept themselves. -/
structure Entry (κ : Type := List Wire.Word) where
  /-- The fingerprint of the words that were loaded. -/
  mark : κ
  network : Network
  /-- The number of the load that made the network. -/
  load : Nat
deriving Repr, Inhabited

end NetworkCache

structure NetworkCache (κ : Type := List Wire.Word) where
  options : LoadOptions := {}
  entries : List (String × NetworkCache.Entry κ) := []
  /-- The number of loads so far. -/
  loads : Nat := 0
deriving Repr, Inhabited

namespace NetworkCache

variable {κ : Type}

def get? (c : NetworkCache κ) (key : String) : Option (Entry κ) := c.entries.lookup key

def erase (c : NetworkCache κ) (key : String) : NetworkCache κ :=
  { c with entries := c.entries.filter (·.1 != key) }

def insert (c : NetworkCache κ) (key : String) (mark : κ) (network : Network) :
    Entry κ × NetworkCache κ :=
  let entry := { mark, network, load := c.loads }
  (entry, { c.erase key with
    entries := (key, entry) :: (c.erase key).entries
    loads := c.loads + 1 })

/-- The network under a key if the words have the fingerprint of those it was made from, else a new
load of them. -/
def fetch [DecidableEq κ] (fingerprint : List Wire.Word → κ) (c : NetworkCache κ) (key : String)
    (words : List Wire.Word) : Except LoadError (Entry κ) × NetworkCache κ :=
  match (c.get? key).filter (·.mark = fingerprint words) with
  | some entry => (.ok entry, c)
  | none =>
    match loadWords words c.options with
    | .error e => (.error e, c)
    | .ok network =>
      let (entry, c) := c.insert key (fingerprint words) network
      (.ok entry, c)

/-- What is fetched, and the cache after that, where the words are their own fingerprint. -/
def getOrLoad (c : NetworkCache) (key : String) (words : List Wire.Word) :
    Except LoadError (Entry × NetworkCache) :=
  let (entry, c) := c.fetch id key words
  return (← entry, c)

def remove (c : NetworkCache κ) (key : String) : Bool × NetworkCache κ :=
  ((c.get? key).isSome, c.erase key)

def clear (c : NetworkCache κ) : NetworkCache κ := { c with entries := [] }

def size (c : NetworkCache κ) : Nat := c.entries.length

end NetworkCache

end GrammarWalk
