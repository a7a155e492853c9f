import GrammarWalk.Screen.Canvas

/-!
Boxes, texts and lists on a canvas.
-/

namespace GrammarWalk.Screen.Canvas

/--
Draws a border on the outermost cells of an area, with a title from its second column on. Where
parts of the border share a cell, edges come before corners and the first corner comes last.
-/
def box (c : Canvas) (a : Area) (title : String) (style : Style) : Canvas :=
  if a.isEmpty then c
  else
    let right := a.x + a.width - 1
    let bottom := a.y + a.height - 1
    let column (x : Nat) : List (Nat × Nat) := (List.range a.height).map fun i => (x, a.y + i)
    let row (y : Nat) : List (Nat × Nat) := (List.range a.width).map fun i => (a.x + i, y)
    let c := (c.stamp '│' style (column a.x)).stamp '─' style (row a.y)
    let c := (c.stamp '│' style (column right)).stamp '─' style (row bottom)
    let c := (c.stamp '┘' style [(right, bottom)]).stamp '┐' style [(right, a.y)]
    let c := (c.stamp '└' style [(a.x, bottom)]).stamp '┌' style [(a.x, a.y)]
    c.write (a.x + 1) a.y (a.width - 2) [{ text := title }]

/-- Writes rows below each other into an area. -/
def text (c : Canvas) (a : Area) (rows : List (List Run)) : Canvas :=
  (rows.take a.height).zipIdx.foldl (fun c (row, i) => c.write a.x (a.y + i) a.width row) c

/-- Writes a row that ends at the right edge of an area, or begins at the left one if it is too
long. -/
def textRight (c : Canvas) (a : Area) (row : List Run) : Canvas :=
  c.text (a.dropColumns (a.width - (chars row).length)) [row]

/-- An entry of a list. -/
structure Item where
  rows : List (List Run)
  /-- The style of its rows as a whole. -/
  style : Style := {}
deriving DecidableEq, Repr, Inhabited

/-- Draws the items of a list below each other, up to one that does not fit. -/
def list (c : Canvas) (a : Area) : List Item → Canvas
  | [] => c
  | item :: items =>
    let n := item.rows.length
    if n ≤ a.height then
      ((c.fill (a.takeRows n) item.style).text (a.takeRows n) item.rows).list (a.dropRows n) items
    else c

end GrammarWalk.Screen.Canvas
