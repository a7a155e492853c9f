/-!
The format of a serialized network: a list of 16-bit words, of which all but the first are stored
two higher than they are meant, modulo 65536. A 128-bit identifier tells which sections follow.
-/

namespace GrammarWalk.Wire

abbrev Word := UInt16

def formatNumber : Nat := 3

/-- Stands for an absent number, and for -1 or the end of input where those are meant. -/
def absent : Nat := 0xFFFF

def shift : Word := 2

/-- What a stream means by its words. -/
def unshift : List Word → List Word
  | [] => []
  | w :: ws => w :: ws.map (· - shift)

def shiftWords : List Word → List Word
  | [] => []
  | w :: ws => w :: ws.map (· + shift)

theorem unshift_shiftWords (ws : List Word) : unshift (shiftWords ws) = ws := by
  cases ws <;> simp [unshift, shiftWords, Function.comp_def]

/-- The known formats, oldest first. -/
inductive Version
  | base | precedence | commands | wideSets
deriving DecidableEq, Repr, Inhabited

namespace Version

def identifier : Version → Nat
  | base => 0x33761B2D78BB4A438B0B4F5BEE8AACF3
  | precedence => 0x1DA0C57D6C06438A9B2710BCB3CE0F61
  | commands => 0xAADB8D7EAEEF4415AD2B8204D6CF042E
  | wideSets => 0x596277843BE5417AB9EB8131A7286974

def ofIdentifier? (id : Nat) : Option Version :=
  [base, precedence, commands, wideSets].find? (·.identifier == id)

theorem ofIdentifier?_identifier (v : Version) : ofIdentifier? v.identifier = some v := by
  cases v <;> rfl

def newest : Version := wideSets

/-- The stream lists the lexer commands; older ones have only the indices on action edges. -/
def hasCommandTable : Version → Bool
  | base | precedence => false
  | commands | wideSets => true

/-- The stream has a second table of sets, with 32-bit bounds. -/
def hasWideSets : Version → Bool
  | wideSets => true
  | base | precedence | commands => false

end Version

/-- The number written by words of 16 bits, least significant first. -/
def ofWords : List Word → Nat
  | [] => 0
  | w :: ws => w.toNat + 0x10000 * ofWords ws

/-- The `n` lowest words of a number, least significant first. -/
def toWords : Nat → Nat → List Word
  | 0, _ => []
  | n + 1, k => UInt16.ofNat k :: toWords n (k / 0x10000)

def identifierWords : Nat := 8

theorem length_toWords (n k : Nat) : (toWords n k).length = n := by
  induction n generalizing k with
  | zero => rfl
  | succ n ih => simp [toWords, ih]

theorem ofWords_toWords (n k : Nat) : ofWords (toWords n k) = k % Nat.pow 0x10000 n := by
  induction n generalizing k with
  | zero => simp [toWords, ofWords, Nat.mod_one]
  | succ n ih =>
    have low : (UInt16.ofNat k).toNat = k % 0x10000 := by simp
    have high : Nat.pow 0x10000 (n + 1) = 0x10000 * Nat.pow 0x10000 n := Nat.pow_succ'
    rw [toWords, ofWords, ih, low, high, Nat.mod_mul]

def toBytes (ws : List Word) : List UInt8 :=
  ws.flatMap fun (w : Word) => [w.toUInt8, (w >>> 8).toUInt8]

/-- Puts pairs of bytes together; nothing for a list of odd length. -/
def ofBytes? : List UInt8 → Option (List Word)
  | [] => some []
  | [_] => none
  | lo :: hi :: bytes => (ofBytes? bytes).map ((lo.toUInt16 ||| (hi.toUInt16 <<< 8)) :: ·)

end GrammarWalk.Wire
