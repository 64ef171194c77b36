import Mathlib.Logic.Function.Basic

/-!
# Files that are opened, removed and created again

A file system without links and renames. A path that is created again after it has been removed
names a new file; whoever has the old one open goes on reading and writing that. So a file is known
by its path and by which of the files created there it is.
-/

/-- For each path the file it names, if any, the contents of the files created there, and how many
there have been. -/
structure FileSystem (π β : Type*) where
  current : π → Option Nat := fun _ => none
  data : π → Nat → List β := fun _ _ => []
  created : π → Nat := fun _ => 0

namespace FileSystem

variable {π β : Type*} {fs : FileSystem π β} {path q : π}

/-- The files created at the path are as they were, and the path names the same file or none. -/
structure Kept (path : π) (fs fs' : FileSystem π β) : Prop where
  data : fs'.data path = fs.data path
  current : fs'.current path = fs.current path ∨ fs'.current path = none

theorem Kept.refl (path : π) (fs : FileSystem π β) : Kept path fs fs := ⟨rfl, .inl rfl⟩

theorem Kept.trans {fs' fs'' : FileSystem π β} (h : Kept path fs fs') (h' : Kept path fs' fs'') :
    Kept path fs fs'' := by
  refine ⟨h'.data.trans h.data, ?_⟩
  rcases h'.current with he | he
  · rw [he]
    exact h.current
  · exact .inr he

/-- The contents of the file a path names. -/
def content (fs : FileSystem π β) (path : π) : Option (List β) :=
  (fs.current path).map (fs.data path)

theorem content_of_ne {fs' : FileSystem π β} (hk : Kept q fs fs')
    (hcurrent : fs'.current q = fs.current q) : fs'.content q = fs.content q := by
  rw [content, content, hcurrent, hk.data]

variable [DecidableEq π]

/-- The contents of an open file are replaced. -/
def setData (path : π) (n : Nat) (bytes : List β) (fs : FileSystem π β) : FileSystem π β :=
  { fs with data := Function.update fs.data path (Function.update (fs.data path) n bytes) }

/-- `open` with `O_CREAT` and `O_TRUNC`: the file that is open now, and is empty. -/
def openTrunc (path : π) (fs : FileSystem π β) : Nat × FileSystem π β :=
  match fs.current path with
  | some n => (n, setData path n [] fs)
  | none =>
    let n := fs.created path
    (n, setData path n []
      { fs with
        current := Function.update fs.current path (some n)
        created := Function.update fs.created path (n + 1) })

/-- The path is removed. The result says whether it named a file. -/
def unlink (path : π) (fs : FileSystem π β) : Bool × FileSystem π β :=
  ((fs.current path).isSome, { fs with current := Function.update fs.current path none })

theorem kept_setData (hq : q ≠ path) (n : Nat) (bytes : List β) (fs : FileSystem π β) :
    Kept q fs (setData path n bytes fs) :=
  ⟨Function.update_of_ne hq _ _, .inl rfl⟩

theorem kept_openTrunc (hq : q ≠ path) (fs : FileSystem π β) : Kept q fs (openTrunc path fs).2 := by
  rw [openTrunc]
  cases fs.current path with
  | some n => exact kept_setData hq n [] fs
  | none => exact ⟨Function.update_of_ne hq _ _, .inl (Function.update_of_ne hq _ _)⟩

theorem kept_unlink (path q : π) (fs : FileSystem π β) : Kept q fs (unlink path fs).2 := by
  refine ⟨rfl, ?_⟩
  by_cases hq : q = path
  · subst hq
    exact .inr (Function.update_self ..)
  · exact .inl (Function.update_of_ne hq _ _)

@[simp] theorem data_setData (path : π) (n : Nat) (bytes : List β) (fs : FileSystem π β) :
    (setData path n bytes fs).data path n = bytes := by
  simp [setData]

@[simp] theorem current_setData (path : π) (n : Nat) (bytes : List β) (fs : FileSystem π β) :
    (setData path n bytes fs).current = fs.current :=
  rfl

@[simp] theorem setData_setData (path : π) (n : Nat) (a b : List β) (fs : FileSystem π β) :
    setData path n b (setData path n a fs) = setData path n b fs := by
  simp [setData]

@[simp] theorem setData_self (path : π) (n : Nat) (fs : FileSystem π β) :
    setData path n (fs.data path n) fs = fs := by
  simp [setData]

/-- The path names the file that has been opened, which is empty. -/
theorem openTrunc_spec (path : π) (fs : FileSystem π β) :
    (openTrunc path fs).2.current path = some (openTrunc path fs).1 ∧
      (openTrunc path fs).2.data path (openTrunc path fs).1 = [] := by
  rw [openTrunc]
  cases h : fs.current path with
  | some n => exact ⟨h, data_setData path n [] fs⟩
  | none => exact ⟨Function.update_self .., data_setData path _ [] _⟩

/-- What is written to the file just opened is what the path names. -/
theorem content_setData_openTrunc (path : π) (bytes : List β) (fs : FileSystem π β) :
    (setData path (openTrunc path fs).1 bytes (openTrunc path fs).2).content =
      Function.update fs.content path (some bytes) := by
  funext q
  by_cases hq : q = path
  · subst hq
    rw [Function.update_self, content, current_setData, (openTrunc_spec q fs).1, Option.map_some,
      data_setData]
  · rw [Function.update_of_ne hq]
    refine content_of_ne ((kept_openTrunc hq fs).trans (kept_setData hq _ _ _)) ?_
    rw [current_setData, openTrunc]
    cases fs.current path with
    | some n => rfl
    | none => exact Function.update_of_ne hq _ _

theorem content_unlink (path : π) (fs : FileSystem π β) :
    (unlink path fs).2.content = Function.update fs.content path none := by
  funext q
  by_cases hq : q = path
  · subst hq
    simp [unlink, content]
  · simp [unlink, content, hq]

end FileSystem
