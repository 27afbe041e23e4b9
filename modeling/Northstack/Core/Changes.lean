import Northstack.Core.FileSystem

/-!
# A file system changed at some paths

What stands at the paths of a list is given anew, and can be opened; the rest is as it
was.

**Results.** `change_lstat`, `change_opens`: what is found at a path.
-/
namespace Posix

open TextFiles

namespace FileSystem

/-- What stands at a path after the change. -/
def changed (fs : FileSystem) (paths : List Path) (entry : Path → Entry) (p : Path) : Entry :=
  if p ∈ paths then entry p else fs.lstat p

/-- The names under `p` of paths in the list. -/
def namesUnder (paths : List Path) (p : Path) : List Text :=
  paths.filterMap fun q => if q.dropLast = p then q.getLast? else none

/-- The file system with `entry p` at each path `p` of the list. -/
def change (fs : FileSystem) (paths : List Path) (entry : Path → Entry) : FileSystem where
  lstat := fs.changed paths entry
  stat p :=
    if p ∈ paths then (if (entry p).isLink then .denied else entry p) else fs.stat p
  scandir p := (fs.scandir p ++ namesUnder paths p).dedup.filter fun name =>
    ProperName name ∧ (fs.changed paths entry (p ++ [name])).found
  opens p := p ∈ paths ∨ fs.opens p
  stat_eq p h := by
    unfold changed at h ⊢
    split at h
    · rename_i hp
      rw [if_pos hp, if_pos hp, h]
      rfl
    · rename_i hp
      rw [if_neg hp, if_neg hp]
      exact fs.stat_eq p h
  mem_scandir p name := by
    rw [List.mem_filter, List.mem_dedup, decide_eq_true_iff, and_iff_right_iff_imp]
    rintro ⟨hproper, hfound⟩
    unfold changed at hfound
    rw [List.mem_append]
    split at hfound
    · rename_i hp
      exact .inr (List.mem_filterMap.mpr ⟨p ++ [name], hp, by simp⟩)
    · exact .inl ((fs.mem_scandir p name).mpr ⟨hproper, hfound⟩)
  nodup_scandir p := (List.nodup_dedup _).filter _

variable {fs : FileSystem} {paths : List Path} {entry : Path → Entry} {p : Path}

theorem change_lstat :
    (fs.change paths entry).lstat p = if p ∈ paths then entry p else fs.lstat p :=
  rfl

theorem change_opens : (fs.change paths entry).opens p = true ↔ p ∈ paths ∨ fs.opens p = true := by
  simp [change]

end FileSystem

end Posix
