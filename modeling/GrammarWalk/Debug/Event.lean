import GrammarWalk.Debug.Breakpoint

/-!
What a session reports, in the order in which it happens, until it is fetched.
-/

namespace GrammarWalk

inductive Event
  /-- The parse is finished. -/
  | finished
  /-- A breakpoint was reached at a state. -/
  | hit (state : Nat)
  /-- A step came to an end at a state. -/
  | stepped (state : Nat)
  | bound (b : Breakpoint)
  /-- A message, for errors with the place in the input. -/
  | output (message : String) (source : Option String) (line column : Nat) (isError : Bool)
deriving DecidableEq, Repr, Inhabited

def Event.isStop : Event → Bool
  | finished | hit _ | stepped _ => true
  | bound _ | output .. => false

structure EventQueue where
  /-- Oldest first. -/
  events : List Event := []
deriving DecidableEq, Repr, Inhabited

namespace EventQueue

def push (q : EventQueue) (e : Event) : EventQueue := { events := q.events ++ [e] }

def error (q : EventQueue) (message : String) (source : Option String) (line column : Nat) :
    EventQueue := q.push (.output message source line column true)

/-- All events, and a queue without any. -/
def drain (q : EventQueue) : List Event × EventQueue := (q.events, {})

def size (q : EventQueue) : Nat := q.events.length

end EventQueue

end GrammarWalk
