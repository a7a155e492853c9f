import GrammarWalk.Screen.Style

/-!
Canvases: rows of cells to draw on. What would be drawn beyond the edge of a canvas is left out.
-/

namespace GrammarWalk.Screen

structure Cell where
  char : Char := ' '
  look : Look := {}
deriving DecidableEq, Repr, Inhabited

/-- A part of a canvas. -/
structure Area where
  x : Nat := 0
  y : Nat := 0
  width : Nat
  height : Nat
deriving DecidableEq, Repr, Inhabited

namespace Area

def isEmpty (a : Area) : Bool := a.width == 0 || a.height == 0

def inside (a : Area) : Area :=
  { x := a.x + 1, y := a.y + 1, width := a.width - 2, height := a.height - 2 }

/-- The rows that are shown within a border; one is always counted. -/
def shownRows (a : Area) : Nat := max (a.height - 2) 1

def takeRows (a : Area) (n : Nat) : Area := { a with height := min n a.height }

def dropRows (a : Area) (n : Nat) : Area := { a with y := a.y + n, height := a.height - n }

def takeColumns (a : Area) (n : Nat) : Area := { a with width := min n a.width }

def dropColumns (a : Area) (n : Nat) : Area := { a with x := a.x + n, width := a.width - n }

/-- A share of a length in per cent, with halves rounded up. -/
def share (percent length : Nat) : Nat := (length * percent + 50) / 100

end Area

structure Canvas where
  rows : Array (Array Cell)
deriving DecidableEq, Repr, Inhabited

namespace Canvas

def blank (width height : Nat) : Canvas := ⟨Array.replicate height (Array.replicate width {})⟩

/-- Changes the cell in column `x` of row `y`, if there is one. -/
def modify (c : Canvas) (x y : Nat) (f : Cell → Cell) : Canvas :=
  ⟨c.rows.modify y (·.modify x f)⟩

def stamp (c : Canvas) (char : Char) (style : Style) (places : List (Nat × Nat)) : Canvas :=
  places.foldl (fun c (x, y) => c.modify x y fun cell => { char, look := cell.look.apply style }) c

def fill (c : Canvas) (a : Area) (style : Style) : Canvas :=
  ((List.range a.height).flatMap fun i => (List.range a.width).map fun k =>
    (a.x + k, a.y + i)).foldl
    (fun c (x, y) => c.modify x y fun cell => { cell with look := cell.look.apply style }) c

/-- The characters of a row of runs, each with its style. Line feeds are not drawn. -/
def chars (row : List Run) : List (Char × Style) :=
  row.flatMap fun r => (r.text.toList.filter (· ≠ '\n')).map (·, r.style)

def write (c : Canvas) (x y limit : Nat) (row : List Run) : Canvas :=
  ((chars row).take limit).zipIdx.foldl
    (fun c ((char, style), i) => c.stamp char style [(x + i, y)]) c

def joined : List Cell → List (List Char × Look)
  | [] => []
  | cell :: cells =>
    match joined cells with
    | (text, look) :: rest =>
      if look = cell.look then (cell.char :: text, look) :: rest
      else ([cell.char], cell.look) :: (text, look) :: rest
    | [] => [([cell.char], cell.look)]

/-- The rows, from the top, each as texts in one look, from the left. -/
def texts (c : Canvas) : List (List (String × Look)) :=
  c.rows.toList.map fun row => (joined row.toList).map fun (text, look) =>
    (String.ofList text, look)

end Canvas

end GrammarWalk.Screen
