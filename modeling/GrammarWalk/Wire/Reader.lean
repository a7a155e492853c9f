import GrammarWalk.LoadError
import GrammarWalk.Wire.Version

/-!
Reading words one by one. A reader takes a prefix of the words and leaves the rest; past the end it
fails with the number of the first word that is missing.
-/

namespace GrammarWalk.Wire

structure Cursor where
  /-- The number of words read. -/
  offset : Nat
  rest : List Word
deriving DecidableEq, Repr, Inhabited

abbrev Reader := StateT Cursor (Except LoadError)

namespace Reader

def fail {α : Type} (e : FormatError) : Reader α := fun _ => .error (.format e)

def reject {α : Type} (d : Defect) : Reader α := fun _ => .error (.defect d)

def offset : Reader Nat := fun c => .ok (c.offset, c)

def word : Reader Nat := fun c =>
  match c.rest with
  | [] => .error (.format (.truncated c.offset))
  | w :: rest => .ok (w.toNat, { offset := c.offset + 1, rest })

/-- A number, or nothing for `absent`. -/
def optional : Reader (Option Nat) := do
  let w ← word
  return if w = absent then none else some w

/-- A number, or -1 for `absent`. -/
def operand : Reader Int := do
  let w ← word
  return if w = absent then -1 else w

def double : Reader Nat := do
  let low ← word
  let high ← word
  return low + 0x10000 * high

/-- Reads `n` things and lists them. -/
def times {α : Type} (read : Reader α) : Nat → Reader (List α)
  | 0 => return []
  | n + 1 => do
    let a ← read
    return a :: (← times read n)

/-- Runs a step `n` times, each on the result of the one before. -/
def iterate {α : Type} (step : α → Reader α) : Nat → α → Reader α
  | 0, a => return a
  | n + 1, a => do iterate step n (← step a)

def counted {α : Type} (read : Reader α) : Reader (List α) := do times read (← word)

def countedSteps {α : Type} (step : α → Reader α) (a : α) : Reader α := do iterate step (← word) a

/-- A word that is a tag; the error names the place of the word. -/
def tagged {α : Type} (part : Part) (ofTag? : Nat → Option α) : Reader α := do
  let offset ← offset
  let tag ← word
  match ofTag? tag with
  | some a => return a
  | none => fail (.invalidValue part tag offset)

def identifier : Reader Nat := do
  let ws ← times word identifierWords
  return ofWords (ws.map UInt16.ofNat)

end Reader

end GrammarWalk.Wire
