import GrammarWalk.Screen.Style

/-!
The colours of the panels.
-/

namespace GrammarWalk.Theme

open Screen

def text : Color := .rgb 205 214 244
def blue : Color := .rgb 137 180 250
def orange : Color := .rgb 250 179 135
def grey : Color := .rgb 108 112 134
def green : Color := .rgb 166 227 161
def red : Color := .rgb 243 139 168
def yellow : Color := .rgb 249 226 175
/-- The colour of rules that are not the innermost one. -/
def muted : Color := .rgb 180 165 120
def cyan : Color := .rgb 148 226 213
/-- Behind the line of the current rule or token, and behind the status. -/
def currentLine : Color := .rgb 50 50 70
def cursorLine : Color := .rgb 40 40 56

/-- Borders stand out around the panel that has the focus. -/
def border (focused : Bool) : Style :=
  if focused then { foreground := some yellow, bold := true } else .colored grey

end GrammarWalk.Theme
