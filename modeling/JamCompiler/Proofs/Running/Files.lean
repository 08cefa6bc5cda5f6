import JamCompiler.FileTree

/-!
# Reading and writing files

Where a path leads to when a file is written, and what is written: the file at this place gets other
contents, and no other file and no directory changes. What was written is what the path gives when
it is read afterwards, but for the null device.
-/

namespace JamCompiler.FileTree

variable {t after : FileTree} {p : Path} {place : Place} {bytes : List UInt8}

/-- Whether a file written to a path is written at a place. -/
inductive Leads (t : FileTree) (p : Path) : Place → Prop
  | intro {dir : Place} {name : List Char} (sound : pathFault? p = none)
    (last : p.names.getLast? = some name) (walked : t.walk (t.origin p) p.names.dropLast = .ok dir)
    (isDir : t.isDir dir) (file : ¬ p.endsInSlash) (proper : name ≠ Path.here ∧ name ≠ Path.parent)
    (short : Path.byteLength name ≤ Path.maxNameLength) (free : ¬ t.isDir (dir ++ [name])) :
    Leads t p (dir ++ [name])

theorem writeIn_eq_ok_iff {dir : Place} {name : List Char} : t.writeIn dir name bytes = .ok after ↔
    (name ≠ Path.here ∧ name ≠ Path.parent) ∧ Path.byteLength name ≤ Path.maxNameLength ∧
      ¬ t.isDir (dir ++ [name]) ∧ after = t.put (dir ++ [name]) bytes := by
  unfold writeIn
  constructor
  · intro written
    split at written
    · cases written
    rename_i proper
    split at written
    · cases written
    rename_i short
    split at written
    · cases written
    rename_i free
    cases written
    exact ⟨by simpa using proper, Nat.le_of_not_lt short, free, rfl⟩
  · rintro ⟨proper, short, free, rfl⟩
    simp [proper, Nat.not_lt_of_le short, free]

/-- A file is written if its path leads to a place. -/
theorem write_eq_ok_iff :
    t.write p bytes = .ok after ↔ ∃ place, t.Leads p place ∧ after = t.put place bytes := by
  constructor
  · intro written
    unfold write at written
    split at written
    · cases written
    · cases written
    · rename_i name sound last
      split at written
      · cases written
      · rename_i dir walked
        split at written
        · cases written
        split at written
        · cases written
        rename_i isDir file
        obtain ⟨proper, short, free, rfl⟩ := writeIn_eq_ok_iff.mp written
        exact ⟨_, .intro sound last walked (by simpa using isDir) file proper short free, rfl⟩
  · rintro ⟨_, ⟨sound, last, walked, isDir, file, proper, short, free⟩, rfl⟩
    simp only [write, sound, last, walked, isDir, file]
    exact writeIn_eq_ok_iff.mpr ⟨proper, short, free, rfl⟩

/-- Whether a tree is another one with some bytes written at a place. -/
structure Wrote (before : FileTree) (place : Place) (bytes : List UInt8) (after : FileTree) :
    Prop where
  home : after.home = before.home
  dirs : after.dirs = before.dirs
  written : place ≠ nullDevice → after.file? place = some bytes
  elsewhere : ∀ other, other ≠ place → after.file? other = before.file? other

theorem lookup_filter_ne {files : List (Place × List UInt8)} {other : Place} (ne : other ≠ place) :
    (files.filter (·.1 ≠ place)).lookup other = files.lookup other := by
  induction files with
  | nil => rfl
  | cons f rest ih =>
    obtain ⟨here, bytes⟩ := f
    by_cases same : here = place
    · rw [List.filter_cons_of_neg (by simpa using same), ih, List.lookup_cons,
        beq_eq_false_iff_ne.mpr (same ▸ ne)]
    · rw [List.filter_cons_of_pos (by simpa using same), List.lookup_cons, List.lookup_cons, ih]

theorem wrote_put (t : FileTree) (place : Place) (bytes : List UInt8) :
    t.Wrote place bytes (t.put place bytes) := by
  unfold put
  split
  · rename_i null
    exact ⟨rfl, rfl, fun other => absurd null other, fun _ _ => rfl⟩
  · refine ⟨rfl, rfl, fun _ => ?_, fun other ne => ?_⟩
    · simp [file?, *]
    · simp only [file?, List.lookup_cons, beq_eq_false_iff_ne.mpr ne, lookup_filter_ne ne]

namespace Wrote

theorem isDir (h : t.Wrote place bytes after) (other : Place) :
    after.isDir other = t.isDir other := by
  rw [FileTree.isDir, FileTree.isDir, h.home, h.dirs]

/-- The null device is there whatever is written. -/
theorem isSome_file? (h : t.Wrote place bytes after) {other : Place}
    (there : (t.file? other).isSome) : (after.file? other).isSome := by
  by_cases same : other = place
  · by_cases null : place = nullDevice
    · simp [same, null, file?]
    · rw [same, h.written null]
      rfl
  · rwa [h.elsewhere other same]

end Wrote

/-- Where one name leads from a directory. -/
inductive Step (t : FileTree) (dir : Place) : List Char → Place → Prop
  | here : Step t dir Path.here dir
  | parent : Step t dir Path.parent dir.dropLast
  | down {name : List Char} (proper : name ≠ Path.here ∧ name ≠ Path.parent)
    (short : Path.byteLength name ≤ Path.maxNameLength)
    (there : t.isDir (dir ++ [name]) ∨ (t.file? (dir ++ [name])).isSome) :
  Step t dir name (dir ++ [name])

theorem walk_cons_eq_ok_iff {start : Place} {name : List Char} {rest : List (List Char)} :
    t.walk start (name :: rest) = .ok place ↔
      t.isDir start ∧ ∃ next, t.Step start name next ∧ t.walk next rest = .ok place := by
  constructor
  · intro walked
    unfold walk at walked
    split at walked
    · cases walked
    rename_i isDir
    refine ⟨by simpa using isDir, ?_⟩
    split at walked
    · rename_i here
      exact ⟨start, here ▸ .here, walked⟩
    rename_i notHere
    split at walked
    · rename_i parent
      exact ⟨start.dropLast, parent ▸ .parent, walked⟩
    rename_i notParent
    split at walked
    · cases walked
    rename_i short
    dsimp only at walked
    split at walked
    · rename_i there
      have there := Bool.or_eq_true_iff.mp there
      exact ⟨_, .down ⟨notHere, notParent⟩ (Nat.le_of_not_lt short) there, walked⟩
    · cases walked
  · rintro ⟨isDir, next, step, walked⟩
    cases step with
    | here => simpa [walk, isDir] using walked
    | parent => simpa [walk, isDir, Path.here, Path.parent] using walked
    | down proper short there =>
      simpa [walk, isDir, proper, Nat.not_lt_of_le short, there] using walked

theorem walk_append_eq_ok_iff {start : Place} {names more : List (List Char)} :
    t.walk start (names ++ more) = .ok place ↔
      ∃ dir, t.walk start names = .ok dir ∧ t.walk dir more = .ok place := by
  induction names generalizing start with
  | nil => simp [walk]
  | cons name rest ih =>
    simp only [List.cons_append, walk_cons_eq_ok_iff, ih]
    constructor
    · rintro ⟨isDir, next, step, dir, walked, further⟩
      exact ⟨dir, ⟨isDir, next, step, walked⟩, further⟩
    · rintro ⟨dir, ⟨isDir, next, step, walked⟩, further⟩
      exact ⟨isDir, next, step, dir, walked, further⟩

namespace Wrote

theorem step (h : t.Wrote place bytes after) {dir next : Place} {name : List Char}
    (step : t.Step dir name next) : after.Step dir name next := by
  cases step with
  | here => exact .here
  | parent => exact .parent
  | down proper short there =>
    refine .down proper short (there.imp (fun isDir => ?_) h.isSome_file?)
    rwa [h.isDir]

/-- A walk leads to the same place after a file was written. -/
theorem walk (h : t.Wrote place bytes after) {start dir : Place} {names : List (List Char)}
    (walked : t.walk start names = .ok dir) : after.walk start names = .ok dir := by
  induction names generalizing start with
  | nil => exact walked
  | cons name rest ih =>
    obtain ⟨isDir, next, step, walked⟩ := walk_cons_eq_ok_iff.mp walked
    exact walk_cons_eq_ok_iff.mpr ⟨h.isDir start ▸ isDir, next, h.step step, ih walked⟩

theorem file?_place (h : t.Wrote place bytes after) :
    after.file? place = some (if place = nullDevice then [] else bytes) := by
  split
  · rename_i null
    rw [file?, if_pos null]
  · rename_i other
    exact h.written other

/-- What was written is what its path gives afterwards. -/
theorem read (h : t.Wrote place bytes after) (leads : t.Leads p place) :
    after.read p = .ok (if place = nullDevice then [] else bytes) := by
  have found := h.file?_place
  obtain ⟨sound, last, walked, isDir, file, proper, short, free⟩ := leads
  rename_i dir name
  have names : p.names = p.names.dropLast ++ [name] := by
    obtain ⟨front, split⟩ := List.getLast?_eq_some_iff.mp last
    rw [split, List.dropLast_concat]
  have there : after.Step dir name (dir ++ [name]) := .down proper short (.inr (by rw [found]; rfl))
  have whole : after.walk (after.origin p) p.names = .ok (dir ++ [name]) := by
    rw [names, origin, h.home]
    refine walk_append_eq_ok_iff.mpr ⟨dir, h.walk walked, walk_cons_eq_ok_iff.mpr ?_⟩
    exact ⟨h.isDir dir ▸ isDir, _, there, rfl⟩
  simp only [FileTree.read, sound, whole, found, h.isDir, free, file]
  rfl

end Wrote

end JamCompiler.FileTree
