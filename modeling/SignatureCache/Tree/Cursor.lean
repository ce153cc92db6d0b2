import SignatureCache.Tree.Basic

/-!
# Cursors

A cursor walks through the keys nested in one interval, in key order. As those keys are one run of
the tree, it only has to remember where it is: a step goes to the next key, a skip to the first key
past everything nested in the present one.
-/

namespace SignatureCache

/-- A place among the keys nested in `top`, or past the last of them. -/
structure Cursor where
  top : DyadicInterval
  current? : Option DyadicInterval

namespace Cursor

variable {V : Type}

/-- The cursor at `top` itself. -/
def start (top : DyadicInterval) : Cursor :=
  ⟨top, some top⟩

/-- Puts the cursor on a key nested in its top. -/
def seek (c : Cursor) (key : DyadicInterval) : Cursor :=
  { c with current? := some key }

/-- A key, if it has not left the top. -/
def within (c : Cursor) (key? : Option DyadicInterval) : Option DyadicInterval :=
  key?.filter fun key => c.top.contains key

/-- Goes to the next key. -/
def advance (c : Cursor) (t : Tree V) : Cursor :=
  { c with current? := c.current?.bind fun key => c.within (t.nextAfter? key) }

/-- Goes past the present key and all keys nested in it. -/
def skip? (c : Cursor) (t : Tree V) : Except Fault Cursor :=
  match c.current? with
  | none => .ok c
  | some key => do
    let bound ← key.following? c.top.power
    return { c with current? := c.within (t.nextFrom? bound) }

end Cursor

end SignatureCache
