import Statechart.Journal

-- A turn is what running some part of a machine comes to: the journal entries it wrote, what was
-- posted to the owner of the machine, and its value, unless it broke off.

namespace Statechart

-- What an actor tells its owner. A completion and a failure become events named for the actor.
inductive Post
  | send (event : Event)
  | resolve (data : Json)
  | reject (data : Json)
  deriving DecidableEq, Inhabited

def Post.toEvent (actor : String) : Post → Event
  | send e => e
  | resolve data => .doneInvoke actor data
  | reject data => .errorPlatform actor data

-- Why a turn breaks off: nodes were to be active that cannot be active together, or the bound on
-- the number of events taken from one mailbox was reached.
inductive Crash
  | illegalConfiguration
  | exhausted
  deriving DecidableEq, Inhabited

def Crash.message : Crash → String
  | illegalConfiguration => "resolver produced an illegal configuration"
  | exhausted => "too many events in one turn"

structure Turn (C α : Type) where
  entries : List (Entry C) := []
  posts : List Post := []
  outcome : Except Crash α

namespace Turn

variable {C α β γ : Type}

protected def pure (a : α) : Turn C α := { outcome := .ok a }

protected def bind (x : Turn C α) (f : α → Turn C β) : Turn C β :=
  match x.outcome with
  | .error crash => { x with outcome := .error crash }
  | .ok a =>
    let y := f a
    { entries := x.entries ++ y.entries, posts := x.posts ++ y.posts, outcome := y.outcome }

instance : Monad (Turn C) where
  pure := Turn.pure
  bind := Turn.bind

def note (e : Entry C) : Turn C Unit := { entries := [e], outcome := .ok () }

def noteAll (es : List (Entry C)) : Turn C Unit := { entries := es, outcome := .ok () }

def warn (w : Warning) : Turn C Unit := note (.warned w)

def post (p : Post) : Turn C Unit := { posts := [p], outcome := .ok () }

def postAll (ps : List Post) : Turn C Unit := { posts := ps, outcome := .ok () }

def crash (c : Crash) : Turn C α := { outcome := .error c }

-- Hands what was posted over as part of the value.
def collect (x : Turn C α) : Turn C (α × List Post) where
  entries := x.entries
  outcome := x.outcome.map fun a => (a, x.posts)

theorem map_id (x : Turn C α) : id <$> x = x := by
  obtain ⟨es, ps, o⟩ := x
  cases o <;> simp [Functor.map, Turn.bind, Turn.pure]

theorem pure_bind' (a : α) (f : α → Turn C β) : pure a >>= f = f a := by
  simp [bind, pure, Turn.bind, Turn.pure]

theorem bind_assoc' (x : Turn C α) (f : α → Turn C β) (g : β → Turn C γ) :
    x >>= f >>= g = x >>= fun a => f a >>= g := by
  obtain ⟨es, ps, o⟩ := x
  cases o with
  | error c => simp [bind, Turn.bind]
  | ok a =>
    simp only [bind, Turn.bind]
    cases (f a).outcome <;> simp

instance : LawfulMonad (Turn C) := LawfulMonad.mk' (Turn C) map_id pure_bind' bind_assoc'

end Turn

end Statechart
