import Mathlib.Data.List.DropRight
import Mathlib.Data.List.Infix
import SqlScript.Command.FileTree

/-!
# Files

What is relied on of the files of a system is that paths name files, that a file is read as it is
and that writing changes the one file that the path names (`System.Lawful`). A file tree is such a
system (`FileTree.system_lawful`): its walks only go through directories (`walk_cons_eq_ok`), so
that a new file cannot stand in the way of any other.
-/

namespace SqlScript.Command

/-- The files of a system, whatever stands for a file: where a path leads, be there a file yet or
not, and what is in the files. Two paths may lead to one file. -/
structure Files (F : Type) where
  file? : String → Option F
  content : F → Option ByteArray

/-- What becomes of files when bytes are written to a path. -/
structure Files.Wrote {F : Type} (before : Files F) (path : String) (bytes : ByteArray)
    (after : Files F) : Prop where
  /-- The bytes are in the file that the path names; all other files are as they were. -/
  content : ∃ f, before.file? path = some f ∧ after.content f = some bytes ∧
    ∀ g, g ≠ f → after.content g = before.content g
  /-- The paths lead where they led. -/
  file? : after.file? = before.file?

/-- What is relied on of a system in whose states there are files. -/
structure System.Lawful {σ F : Type} (system : System (StateM σ)) (files : σ → Files F) :
    Prop where
  stdin : ∀ s, files (system.stdin.run s).2 = files s
  now : ∀ s, files (system.now.run s).2 = files s
  elapsed : ∀ start s, files ((system.elapsed start).run s).2 = files s
  read : ∀ path s, files ((system.read path).run s).2 = files s
  /-- What is read is what is in the file that the path names. -/
  read_ok : ∀ path s bytes, ((system.read path).run s).1 = .ok bytes →
    ∃ f, (files s).file? path = some f ∧ (files s).content f = some bytes
  write_ok : ∀ path bytes s, ((system.write path bytes).run s).1 = .ok () →
    (files s).Wrote path bytes (files ((system.write path bytes).run s).2)
  /-- A write that fails is taken to leave everything as it was. -/
  write_error : ∀ path bytes s e, ((system.write path bytes).run s).1 = .error e →
    files ((system.write path bytes).run s).2 = files s

namespace FileTree

variable {t t' : FileTree} {place target q : List String} {bytes : ByteArray}

/-! ## Putting a file at a place -/

/-- The tree with one file put at a place. -/
def put (t : FileTree) (place : List String) (bytes : ByteArray) : FileTree :=
  { t with files := (place, bytes) :: t.files.filter fun file => file.1 != place }

theorem find?_put (t : FileTree) (place q : List String) (bytes : ByteArray) :
    (t.put place bytes).find? q = if q = place then some bytes else t.find? q := by
  by_cases hq : q = place
  · simp [find?, put, hq]
  · have hother : ∀ file : List String × ByteArray,
        (!decide (file.1 = place) && decide (file.1 = q)) = (file.1 == q) := by
      intro file
      by_cases hfile : file.1 = q <;> simp [hfile, hq]
    simp [find?, put, hq, Ne.symm hq, List.find?_filter, hother]

theorem hasDirectory_iff : t.hasDirectory q = true ↔
    (∃ place ∈ t.home :: t.directories, q <+: place) ∨
      ∃ file ∈ t.files, q <+: file.1 ∧ q ≠ file.1 := by
  simp [hasDirectory]

/-- What lies above a directory is a directory. -/
theorem hasDirectory_of_prefix (h : t.hasDirectory place = true) (hq : q <+: place) :
    t.hasDirectory q = true := by
  rw [hasDirectory_iff] at *
  rcases h with ⟨d, hd, hplace⟩ | ⟨file, hfile, hplace, hne⟩
  · exact .inl ⟨d, hd, hq.trans hplace⟩
  · refine .inr ⟨file, hfile, hq.trans hplace, ?_⟩
    rintro rfl
    exact hne (hplace.eq_of_length_le hq.length_le)

/-- Everything above a place is a directory. -/
def Reached (t : FileTree) (place : List String) : Prop :=
  ∀ q, q <+: place → q ≠ place → t.hasDirectory q = true

theorem hasDirectory_put (h : t.Reached place) (bytes : ByteArray) (q : List String) :
    (t.put place bytes).hasDirectory q = t.hasDirectory q := by
  rw [Bool.eq_iff_iff]
  constructor
  · intro hq
    rcases hasDirectory_iff.mp hq with hkept | ⟨file, hfile, hprefix, hne⟩
    · exact hasDirectory_iff.mpr (.inl hkept)
    · rcases List.mem_cons.mp hfile with rfl | hfile
      · exact h q hprefix hne
      · exact hasDirectory_iff.mpr (.inr ⟨file, (List.mem_filter.mp hfile).1, hprefix, hne⟩)
  · intro hq
    rcases hasDirectory_iff.mp hq with hkept | ⟨file, hfile, hprefix, hne⟩
    · exact hasDirectory_iff.mpr (.inl hkept)
    · refine hasDirectory_iff.mpr (.inr ?_)
      by_cases hplace : file.1 = place
      · exact ⟨(place, bytes), List.mem_cons_self, hplace ▸ hprefix, hplace ▸ hne⟩
      · have hkept : file ∈ t.files.filter fun file => file.1 != place :=
          List.mem_filter.mpr ⟨hfile, by simpa using hplace⟩
        exact ⟨file, List.mem_cons_of_mem _ hkept, hprefix, hne⟩

/-! ## Walking -/

/-- Where one part of a path leads from a directory. -/
def next? (place : List String) (part : String) : Option (List String) :=
  if part = "" ∨ part = "." then some place
  else if part = ".." then some place.dropLast
  else if 255 < part.utf8ByteSize then none
  else some (place ++ [part])

theorem walk_cons_eq_ok {part : String} {parts : List String} :
    t.walk place (part :: parts) = .ok target ↔
      t.find? place = none ∧ t.hasDirectory place = true ∧
        ∃ next, next? place part = some next ∧ t.walk next parts = .ok target := by
  rw [walk]
  by_cases hfile : t.find? place = none
  · by_cases hdir : t.hasDirectory place = true
    · simp only [next?, hfile, hdir, Option.isSome_none, Bool.not_true, Bool.false_eq_true,
        if_false, true_and]
      split
      · simp
      · split
        · simp
        · split <;> simp
    · simp [hfile, hdir]
  · simp [Option.isSome_iff_ne_none.mpr hfile, hfile]

theorem reached_next {part : String} {next : List String} (hdir : t.hasDirectory place = true)
    (h : next? place part = some next) : t.Reached next := by
  have habove : ∀ q, q <+: place → t.hasDirectory q = true := fun _ =>
    hasDirectory_of_prefix hdir
  rw [next?] at h
  intro q hq hne
  split at h
  · cases h
    exact habove q hq
  · split at h
    · cases h
      exact habove q (hq.trans (List.dropLast_prefix place))
    · split at h
      · cases h
      · cases h
        rcases List.prefix_concat_iff.mp hq with rfl | hq
        · exact absurd rfl hne
        · exact habove q hq

theorem reached_walk {parts : List String} (h : t.walk place parts = .ok target)
    (hplace : t.Reached place) : t.Reached target := by
  induction parts generalizing place with
  | nil =>
    cases h
    exact hplace
  | cons part parts ih =>
    obtain ⟨-, hdir, next, hnext, hwalk⟩ := walk_cons_eq_ok.mp h
    exact ih hwalk (reached_next hdir hnext)

/-- A walk succeeds wherever the directories that it goes through are there and no files. -/
theorem walk_eq_ok_of {parts : List String} (h : t.walk place parts = .ok target)
    (hdir : ∀ q, t.hasDirectory q = true → t.find? q = none →
      t'.hasDirectory q = true ∧ t'.find? q = none) : t'.walk place parts = .ok target := by
  induction parts generalizing place with
  | nil => exact h
  | cons part parts ih =>
    obtain ⟨hfile, hplace, next, hnext, hwalk⟩ := walk_cons_eq_ok.mp h
    obtain ⟨hplace', hfile'⟩ := hdir place hplace hfile
    exact walk_cons_eq_ok.mpr ⟨hfile', hplace', next, hnext, ih hwalk⟩

/-- Where the walk down a path starts. -/
def start (t : FileTree) (path : List Char) : List String :=
  if path.head? == some '/' then [] else t.home

theorem reached_start (t : FileTree) (path : List Char) : t.Reached (t.start path) := by
  intro q hq hne
  rw [start] at hq hne
  split at hq
  · exact absurd (List.prefix_nil.mp hq) (by simpa [*] using hne)
  · exact hasDirectory_iff.mpr (.inl ⟨t.home, List.mem_cons_self, hq⟩)

theorem resolve_eq_ok {path : List Char} : t.resolve path = .ok target ↔
    path ≠ [] ∧ (String.ofList path).utf8ByteSize < 4096 ∧
      t.walk (t.start path) ((path.splitOn '/').map String.ofList) = .ok target := by
  rw [resolve]
  by_cases hempty : path = []
  · simp [hempty]
  · by_cases hlong : 4096 ≤ (String.ofList path).utf8ByteSize
    · simp [hempty, hlong, Nat.not_lt.mpr hlong]
    · simp [hempty, hlong, Nat.lt_of_not_le hlong, start]

/-! ## Writing -/

/-- Only paths that do not end in a slash are written to, so that there is nothing to trim. -/
theorem write_eq_ok {path : String} : t.write path bytes = .ok t' ↔
    ∃ place, t.resolve path.toList = .ok place ∧ path.toList.getLast? ≠ some '/' ∧
      t.hasDirectory place = false ∧ t.put place bytes = t' := by
  rw [write]
  by_cases hslash : path.toList.getLast? = some '/'
  · cases hplace : t.resolve _ <;> simp [hslash, bind, Except.bind]
  · have htrim : (path.toList.reverse.dropWhile (· == '/')).reverse = path.toList := by
      refine List.rdropWhile_eq_self_iff.mpr fun hne => ?_
      simpa [List.getLast?_eq_some_getLast hne] using hslash
    simp only [htrim, ite_self]
    cases hplace : t.resolve path.toList with
    | error e => simp [bind, Except.bind]
    | ok place =>
      by_cases hdir : t.hasDirectory place = true <;>
        simp [hslash, hdir, put, bind, Except.bind]

/-- The files of a tree are told apart by their places. -/
def view (t : FileTree) : Files (List String) :=
  ⟨fun path => (t.resolve path.toList).toOption, t.find?⟩

theorem view_file? {path : String} :
    t.view.file? path = some place ↔ t.resolve path.toList = .ok place := by
  change (t.resolve path.toList).toOption = some place ↔ _
  cases t.resolve path.toList <;> simp [Except.toOption]

/-- A new file is in nobody's way: it is put below a directory, where there is none itself. -/
theorem resolve_put {path : List Char} (hreached : t.Reached place)
    (hdir : t.hasDirectory place = false) :
    (t.put place bytes).resolve path = .ok target ↔ t.resolve path = .ok target := by
  have hsame := hasDirectory_put hreached bytes
  have hfile : ∀ q, t.hasDirectory q = true → (t.put place bytes).find? q = t.find? q := by
    intro q hq
    rw [find?_put, if_neg]
    rintro rfl
    rw [hdir] at hq
    cases hq
  rw [resolve_eq_ok, resolve_eq_ok]
  refine and_congr_right' (and_congr_right' ⟨fun h => ?_, fun h => ?_⟩)
  · refine walk_eq_ok_of h fun q hq hnone => ?_
    rw [hsame] at hq
    exact ⟨hq, hfile q hq ▸ hnone⟩
  · refine walk_eq_ok_of h fun q hq hnone => ?_
    exact ⟨hsame q ▸ hq, hfile q hq ▸ hnone⟩

theorem wrote_of_write {path : String} (h : t.write path bytes = .ok t') :
    t.view.Wrote path bytes t'.view := by
  obtain ⟨place, hplace, -, hdir, rfl⟩ := write_eq_ok.mp h
  have hreached : t.Reached place := reached_walk (resolve_eq_ok.mp hplace).2.2 (t.reached_start _)
  refine ⟨⟨place, ?_, ?_, fun q hq => ?_⟩, funext fun path => Option.ext fun target => ?_⟩
  · exact view_file?.mpr hplace
  · exact (find?_put ..).trans (if_pos rfl)
  · exact (find?_put ..).trans (if_neg hq)
  · exact view_file?.trans ((resolve_put hreached hdir).trans view_file?.symm)

theorem read_eq_ok {path : String} (h : t.read path = .ok bytes) :
    ∃ place, t.view.file? path = some place ∧ t.view.content place = some bytes := by
  rw [read] at h
  cases hplace : t.resolve path.toList with
  | error e =>
    rw [hplace] at h
    cases h
  | ok place =>
    rw [hplace] at h
    refine ⟨place, view_file?.mpr hplace, ?_⟩
    cases hfind : t.find? place with
    | none =>
      simp only [bind, Except.bind, hfind] at h
      cases h
    | some found =>
      simp only [bind, Except.bind, hfind] at h
      cases h
      exact hfind

theorem run_write (stdin : ByteArray) (nanoseconds : Nat) (path : String) (bytes : ByteArray)
    (t : FileTree) : ((system stdin nanoseconds).write path bytes).run t =
      match t.write path bytes with
      | .ok t' => (.ok (), t')
      | .error e => (.error e.message, t) := by
  cases h : t.write path bytes <;>
  · simp only [system, StateT.run_bind, StateT.run_get, pure_bind, h]
    rfl

/-- A file tree is a system to rely on. -/
theorem system_lawful (stdin : ByteArray) (nanoseconds : Nat) :
    (system stdin nanoseconds).Lawful view where
  stdin _ := rfl
  now _ := rfl
  elapsed _ _ := rfl
  read _ _ := rfl
  read_ok path t bytes h := by
    change (t.read path).mapError FileError.message = .ok bytes at h
    cases hread : t.read path with
    | error e =>
      rw [hread] at h
      cases h
    | ok found =>
      rw [hread] at h
      cases h
      exact read_eq_ok hread
  write_ok path bytes t h := by
    rw [run_write] at *
    cases hwrite : t.write path bytes with
    | error e =>
      rw [hwrite] at h
      cases h
    | ok t' => exact wrote_of_write hwrite
  write_error path bytes t e h := by
    rw [run_write] at *
    cases hwrite : t.write path bytes with
    | error e => rfl
    | ok t' =>
      rw [hwrite] at h
      cases h

end FileTree

end SqlScript.Command
