import LineShell.Files.Access

/-!
# Listings

Everything below a directory, as its owner can list it: the listing fails if a directory or a
regular file there may not be read.
-/
namespace LineShell.Tree

/-- The files below a directory with their paths, each directory before what it holds. Below more
than `depth` directories nothing is listed. -/
def listBelow (t : Tree) : (depth : Nat) → (base : Bytes) → (dir : Ino) →
    Except OsError (List (Bytes × Node))
  | 0, _, _ => .ok []
  | depth + 1, base, dir =>
    match t.node? dir with
    | some (.directory mode entries) =>
      if !mode.readable || (!entries.isEmpty && !mode.searchable) then .error .accessDenied
      else do
        let parts ← entries.mapM fun (name, i) => do
          let path := if base.isEmpty then name else base ++ Bytes.slash :: name
          match t.node? i with
          | some (.file mode data) =>
            if mode.readable then pure [(path, Node.file mode data)] else throw .accessDenied
          | some (.directory mode es) =>
            return (path, .directory mode es) :: (← t.listBelow depth path i)
          | some n => pure [(path, n)]
          | none => throw .inputOutput
        return parts.flatten
    | _ => .error .notDirectory

/-- Everything below a directory, with paths relative to it. No file is below more directories
than there are files. -/
def listing (t : Tree) (dir : Ino) : Except OsError (List (Bytes × Node)) :=
  t.listBelow (t.nodes.length + 1) [] dir

end LineShell.Tree
