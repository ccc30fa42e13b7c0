import Redeclare.FileTree.Replace

/-!
# Hosts

What the program finds besides the files: whether a call is made to fail, how deeply its calls may nest, and the letters
that are drawn for the names of new files.
-/

namespace Redeclare

/-- What a run depends on besides the files: the call that is made to fail, if one is; how many calls may be nested in
the one that makes a signature; and the numbers of the candidates that are drawn first for the names of new files, one
after another. -/
structure Host where
  fault : Option FileTree.Fault
  room : Nat
  seeds : Nat → Nat

namespace Host

/-- Two hosts that differ at most in the numbers that are drawn. -/
structure Agrees (a b : Host) : Prop where
  fault : b.fault = a.fault
  room : b.room = a.room

/-- The host when the first `n` numbers have been drawn. -/
def after (host : Host) (n : Nat) : Host := { host with seeds := fun i => host.seeds (i + n) }

/-- Hosts that agree still do when numbers have been drawn. -/
theorem Agrees.after {a b : Host} (h : a.Agrees b) (n m : Nat) : (a.after n).Agrees (b.after m) := ⟨h.fault, h.room⟩

/-- A host on which no call fails, with the room that there is when the program is run by itself. The first candidate is
drawn every time. -/
def plain : Host := ⟨none, 994, fun _ => 0⟩

/-- The same, but every time another candidate is drawn. -/
def inTurn : Host := { plain with seeds := id }

end Host

end Redeclare
