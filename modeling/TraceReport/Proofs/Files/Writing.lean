import TraceReport.Files.Checks
import TraceReport.Proofs.Outcome
import TraceReport.Proofs.Table

namespace TraceReport

instance : Table.KeyOrder Place where
  asymm := List.lt_asymm
  trans := List.lt_trans
  eq hab hba := List.le_antisymm hba hab

namespace FileTree

/-- The same entries at all places. -/
def SameFiles (tree other : FileTree) : Prop := ∀ place, tree.entry? place = other.entry? place

variable {tree emptied : FileTree} {place other : Place} {path : Path} {content : Bytes}

section Put

theorem entry?_put_self (hne : place ≠ []) (tree : FileTree) (entry : Entry) :
    entry? (tree.put place entry) place = some entry := by
  obtain ⟨name, rest, rfl⟩ := List.exists_cons_of_ne_nil hne
  exact Table.find?_insert_self _ _ _

theorem entry?_put_of_ne (hne : other ≠ place) (tree : FileTree) (entry : Entry) :
    entry? (tree.put place entry) other = tree.entry? other := by
  cases other with
  | nil => rfl
  | cons name rest => exact Table.find?_insert_of_ne hne _ _

/-- The root is a directory, whatever is put there. -/
theorem ne_nil_of_not_directory (h : tree.entry? place ≠ some .directory) : place ≠ [] := by
  rintro rfl
  exact h rfl

theorem put_put (tree : FileTree) (place : Place) (first second : Entry) :
    (tree.put place first).put place second = tree.put place second := by
  simp only [put, Table.insert_insert]

theorem entry?_put (h : tree.entry? place ≠ some .directory) (entry : Entry) (other : Place) :
    entry? (tree.put place entry) other =
      if other = place then some entry else tree.entry? other := by
  split
  case isTrue heq => rw [heq, entry?_put_self (ne_nil_of_not_directory h)]
  case isFalse hne => exact entry?_put_of_ne hne tree entry

end Put

/-- Where a report is created: at a place below the directory of its path, which is no directory
itself. A file there is emptied. -/
theorem create_eq_ok (h : tree.create path = .ok (place, emptied)) :
    tree.entry? place ≠ some .directory ∧ emptied = tree.put place (.file []) ∧
      ∃ target, tree.locate path = .ok target ∧ target.place = .ok place ∧
        path.endsInSlash = false := by
  unfold create at h
  obtain ⟨target, htarget, h⟩ := bind_eq_ok_iff.mp h
  split at h
  case isTrue => cases h
  case isFalse hname =>
    obtain ⟨found, hfound, h⟩ := bind_eq_ok_iff.mp h
    split at h
    · cases h
    · next hentry =>
      cases h
      simp only [Bool.or_eq_true, not_or, Bool.not_eq_true] at hname
      exact ⟨hentry, rfl, target, htarget, hfound, hname.2⟩

/-- A file is found where its path leads to, unless the path asks for a directory. -/
theorem lookup_file_iff :
    tree.lookup path = .ok (place, .file content) ↔
      ∃ target, tree.locate path = .ok target ∧ target.place = .ok place ∧
        tree.entry? place = some (.file content) ∧ path.endsInSlash = false := by
  unfold lookup
  simp only [bind_eq_ok_iff]
  constructor
  · rintro ⟨target, htarget, found, hfound, h⟩
    split at h
    · cases h
    · cases h
    · next hentry =>
      split at h
      · cases h
      · next hslash =>
        cases h
        exact ⟨target, htarget, hfound, hentry, by simpa using hslash⟩
  · rintro ⟨target, htarget, hplace, hentry, hslash⟩
    exact ⟨target, htarget, place, hplace, by rw [hentry]; simp [hslash]⟩

/-- A path at which a report is created named the file that was there. -/
theorem lookup_eq_of_create (h : tree.create path = .ok (place, emptied))
    (hentry : tree.entry? place = some (.file content)) :
    tree.lookup path = .ok (place, .file content) := by
  obtain ⟨-, -, target, htarget, hplace, hslash⟩ := create_eq_ok h
  exact lookup_file_iff.mpr ⟨target, htarget, hplace, hentry, hslash⟩

section Paths

variable (hfile : tree.entry? place ≠ some .directory)
include hfile

/-- No step of a path leads through a file. -/
theorem enter_put {dir next : Place} {name : Text} (h : tree.enter dir name = .ok next) :
    (tree.put place (.file content)).enter dir name = .ok next := by
  unfold enter at h ⊢
  split_ifs at h ⊢
  · exact h
  · exact h
  · split at h
    · next hentry =>
      have hne : dir ++ [name] ≠ place := by
        rintro rfl
        exact hfile hentry
      rw [entry?_put_of_ne hne, hentry]
      exact h
    · cases h
    · cases h

theorem foldlM_enter_put {dir last : Place} {names : List Text}
    (h : names.foldlM tree.enter dir = .ok last) :
    names.foldlM (tree.put place (.file content)).enter dir = .ok last := by
  induction names generalizing dir with
  | nil => exact h
  | cons name rest ih =>
    rw [List.foldlM_cons] at h ⊢
    obtain ⟨next, hnext, hrest⟩ := bind_eq_ok_iff.mp h
    exact bind_eq_ok_iff.mpr ⟨next, enter_put hfile hnext, ih hrest⟩

theorem locate_put {target : Target} (h : tree.locate path = .ok target) :
    (tree.put place (.file content)).locate path = .ok target := by
  have hhere : (tree.put place (.file content)).here = tree.here := rfl
  unfold locate at h ⊢
  rw [hhere]
  dsimp only at h ⊢
  generalize (if path.isAbsolute then [] else tree.here) = origin at h ⊢
  split_ifs at h ⊢
  split at h
  · exact h
  · obtain ⟨directory, hdirectory, h⟩ := bind_eq_ok_iff.mp h
    refine bind_eq_ok_iff.mpr ⟨directory, foldlM_enter_put hfile hdirectory, ?_⟩
    split_ifs at h ⊢
    · obtain ⟨inner, hinner, h⟩ := bind_eq_ok_iff.mp h
      exact bind_eq_ok_iff.mpr ⟨inner, enter_put hfile hinner, h⟩
    · exact h

/-- A file is found where it was, with new content if it was written. -/
theorem lookup_put {found : Place} {old : Bytes} (h : tree.lookup path = .ok (found, .file old)) :
    (tree.put place (.file content)).lookup path =
      .ok (found, .file (if found = place then content else old)) := by
  obtain ⟨target, htarget, hplace, hentry, hslash⟩ := lookup_file_iff.mp h
  refine lookup_file_iff.mpr ⟨target, locate_put hfile htarget, hplace, ?_, hslash⟩
  rw [entry?_put hfile, hentry]
  split <;> rfl

end Paths

/-- Paths that pass the checks lead to files. -/
theorem exists_file_of_requireFile {role : FileRole} (h : tree.requireFile role path = .ok ()) :
    ∃ place content, tree.lookup path = .ok (place, .file content) := by
  unfold requireFile at h
  split_ifs at h with hexists hfile
  simp only [Bool.not_eq_true, Bool.not_eq_false', isFile] at hfile
  split at hfile
  · next place content hlookup => exact ⟨place, content, hlookup⟩
  · cases hfile

theorem requirePaths_eq_ok {settings log output : Path}
    (h : tree.requirePaths settings log output = .ok ()) :
    tree.requireFile .settings settings = .ok () ∧ tree.requireFile .log log = .ok () ∧
      tree.requireOutput output = .ok () := by
  obtain ⟨⟨⟩, hsettings, h⟩ := bind_eq_ok_iff.mp h
  obtain ⟨⟨⟩, hlog, houtput⟩ := bind_eq_ok_iff.mp h
  exact ⟨hsettings, hlog, houtput⟩

end FileTree
end TraceReport
