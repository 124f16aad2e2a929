import PsychWard.Fat32.CdSpec
import PsychWard.Fat32.Consistency

/-!
# What a path means

`fat32_resolve_parent` reads a path token by token and finds out only behind the separators whether
a token was the last one. `resolveReference` says what a path means without a tokenizer: split it at
the slashes, drop the empty pieces, look up all of the rest but the last. The two agree on every
path whose components fit `token[64]`.
-/

namespace PsychWard.Fat32

/-- The directory that holds the target of a path, and the target's name: the components of the path
are looked up from the root or from the current directory on. -/
def resolveReference (fs : Fat32Instance) (d : Disk) (path : CString) : ℕ × CString :=
  let names := (path.splitOn slash).filter (· ≠ [])
  let start :=
    if path.head? = some slash then fs.rootCluster else orRoot fs fs.currentDirCluster
  -- one lookup; 0 stands for the root directory
  let lookUp (dir : ℕ) (name : CString) : Option ℕ :=
    let found := fat32FindInDir fs d dir name
    if found = notFound then none else some (if found = 0 then fs.rootCluster else found)
  match names.dropLast.foldlM lookUp start with
  | none => (notFound, [])
  | some dir => (dir, names.getLast?.getD [])

section
variable {fs : Fat32Instance} {d : Disk}

theorem resolveReference_eq (path : CString) : resolveReference fs d path =
    parentOf fs d (pathStart fs path) ((path.splitOn slash).filter (· ≠ [])) := by
  have hfold (c : ℕ) (ts : List CString) : ts.foldlM (enter fs d) c = follow fs d c ts := rfl
  cases hlast : ((path.splitOn slash).filter (· ≠ [])).getLast? with
  | none =>
    rw [parentOf_of_none hlast]
    simp only [resolveReference, List.getLast?_eq_none_iff.mp hlast]
    rfl
  | some last =>
    rw [parentOf_of_some hlast]
    simp only [resolveReference, hlast]
    rfl

/-- The tokenizer reads a path as the reference does when every component fits its buffer. -/
theorem fat32ResolveParent_of_fits {path : CString}
    (hfits : ∀ t ∈ path.splitOn slash, t.length ≤ 63) :
    fat32ResolveParent fs d path = resolveReference fs d path := by
  rw [fat32ResolveParent_eq, resolveReference_eq, pathComponents, components_eq_splitOn hfits]

end

/-- `fat32_resolve_parent` gives a path of at most 63 bytes the meaning of the reference. -/
theorem fat32ResolveParent_eq_resolveReference (fs : Fat32Instance) (d : Disk) (path : Path) :
    fat32ResolveParent fs d path.1 = resolveReference fs d path.1 :=
  fat32ResolveParent_of_fits fun _ ht => (length_le_of_mem_splitOn ht).trans path.2.1

end PsychWard.Fat32
