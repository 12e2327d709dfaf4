import BuildScript.Host.FileTree
import Mathlib.Data.List.DropRight
import Mathlib.Data.List.Nodup
import Mathlib.Data.List.Perm.Subperm

/-!
# Places of files

A path leads to the place that its name has in its directory.  A new file changes nothing about
where other paths lead, and when it is taken away again the tree is the one before.
-/

namespace BuildScript

namespace Text

theorem not_mem_of_mem_splitOn {mark : Char} {text part : Text}
    (h : part ∈ List.splitOn mark text) : mark ∉ part := by
  rw [List.splitOn_eq_splitOnP] at h
  induction text generalizing part with
  | nil => simp_all
  | cons c rest ih =>
    rw [List.splitOnP_cons_eq_if_modifyHead] at h
    split at h
    · rcases List.mem_cons.mp h with rfl | h
      · exact List.not_mem_nil
      · exact ih h
    · rename_i hc
      obtain ⟨first, parts, hparts⟩ :=
        List.exists_cons_of_ne_nil (List.splitOnP_ne_nil (· == mark) rest)
      rw [hparts] at h ih
      rcases List.mem_cons.mp h with rfl | h
      · have hfirst : mark ∉ first := ih List.mem_cons_self
        have hne : mark ≠ c := fun heq ↦ hc (by simp [heq])
        simp [hne, hfirst]
      · exact ih (List.mem_cons_of_mem first h)

end Text

namespace Path

variable {path name : Text}

theorem isAbsolute_iff {first : Text} {rest : List Text} (h : components path = first :: rest) :
    isAbsolute path ↔ first = [] ∧ rest ≠ [] := by
  cases path with
  | nil =>
    obtain ⟨rfl, rfl⟩ : [] = first ∧ [] = rest := List.cons.inj h
    decide
  | cons c text =>
    obtain ⟨part, parts, hparts⟩ :=
      List.exists_cons_of_ne_nil (List.splitOnP_ne_nil (· == '/') text)
    rw [components, List.splitOn_eq_splitOnP, List.splitOnP_cons_eq_if_modifyHead, hparts] at h
    by_cases hc : c = '/'
    · obtain ⟨rfl, rfl⟩ : [] = first ∧ part :: parts = rest := by simpa [hc] using h
      simp [isAbsolute, hc]
    · obtain ⟨rfl, rfl⟩ : c :: part = first ∧ parts = rest := by simpa [hc] using h
      simp [isAbsolute, hc]

/-- Only components that lead nowhere are dropped. -/
theorem filter_dropIdle (parts : List Text) :
    (dropIdle parts).filter (!isIdle ·) = parts.filter (!isIdle ·) := by
  induction parts using List.reverseRecOn with
  | nil => rfl
  | append_singleton parts last ih =>
    by_cases hlast : isIdle last
    · have hdrop : dropIdle (parts ++ [last]) = dropIdle parts :=
        List.rdropWhile_concat_pos isIdle parts last hlast
      simp [hdrop, ih, hlast]
    · have hdrop : dropIdle (parts ++ [last]) = parts ++ [last] :=
        List.rdropWhile_concat_neg isIdle parts last hlast
      rw [hdrop]

theorem dropIdle_subset (parts : List Text) : dropIdle parts ⊆ parts :=
  (List.rdropWhile_prefix isIdle parts).subset

theorem name?_eq_some_iff :
    name? path = some name ↔
      (∃ front, components path = front ++ [name]) ∧ isIdle name = false ∧ name ≠ up := by
  simp [name?, Option.filter_eq_some_iff, List.getLast?_eq_some_iff]

theorem directory_of_lone_name (hname : isIdle name = false) (h : components path = [name]) :
    directory path = ['.'] := by
  have hne : name.isEmpty = false := by
    cases name with
    | nil => exact absurd hname (by decide)
    | cons c rest => rfl
  simp [directory, parent?, h, dropIdle, hne]

theorem isEmpty_intercalate_cons (first : Text) (parts : List Text) :
    (List.intercalate ['/'] (first :: parts)).isEmpty = (first.isEmpty && parts.isEmpty) := by
  cases parts <;> simp

/-- The directory of a path that does not consist of a name alone. -/
theorem components_directory {first : Text} {more : List Text} (hname : isIdle name = false)
    (h : components path = first :: (more ++ [name])) :
    components (directory path) =
      if first.isEmpty && (dropIdle more).isEmpty then [[], []] else first :: dropIdle more := by
  have hdrop : dropIdle (more ++ [name]) = more ++ [name] :=
    List.rdropWhile_concat_neg isIdle more name (by simp [hname])
  have hparent : parent? path = some (if first.isEmpty && (dropIdle more).isEmpty then ['/']
      else List.intercalate ['/'] (first :: dropIdle more)) := by
    simp [parent?, h, hdrop]
  rw [directory, hparent]
  by_cases hroot : first.isEmpty && (dropIdle more).isEmpty
  · simp only [hroot, if_true]
    rfl
  · have hparts : ∀ part ∈ first :: dropIdle more, '/' ∉ part := by
      intro part hpart
      have hmem : part ∈ components path := by
        rw [h]
        exact List.mem_append_left [name] (List.cons_subset_cons first (dropIdle_subset more) hpart)
      exact Text.not_mem_of_mem_splitOn hmem
    simp only [hroot, isEmpty_intercalate_cons, Bool.false_eq_true, if_false]
    exact List.splitOn_intercalate '/' hparts (List.cons_ne_nil first _)

/-- A path with a name starts where its directory starts. -/
theorem isAbsolute_directory (h : name? path = some name) :
    isAbsolute (directory path) ↔ isAbsolute path := by
  obtain ⟨⟨front, hfront⟩, hidle, -⟩ := name?_eq_some_iff.mp h
  cases front with
  | nil => 
    rw [directory_of_lone_name hidle hfront, isAbsolute_iff hfront]
    simp [isAbsolute]
  | cons first more =>
    have hdirectory := components_directory hidle hfront
    rw [isAbsolute_iff hfront]
    split at hdirectory
    · rw [isAbsolute_iff hdirectory]
      simp_all
    · rw [isAbsolute_iff hdirectory]
      simp_all

/-- A path with a name goes the way of its directory, apart from components that lead nowhere, and
then to the name. -/
theorem components_of_name? (h : name? path = some name) :
    ∃ front, components path = front ++ [name] ∧
      front.filter (!isIdle ·) = (components (directory path)).filter (!isIdle ·) := by
  obtain ⟨⟨front, hfront⟩, hidle, -⟩ := name?_eq_some_iff.mp h
  refine ⟨front, hfront, ?_⟩
  cases front with
  | nil =>
    rw [directory_of_lone_name hidle hfront]
    rfl
  | cons first more =>
    rw [components_directory hidle hfront]
    by_cases hroot : first.isEmpty && (dropIdle more).isEmpty
    · obtain ⟨rfl, hnil⟩ : first = [] ∧ dropIdle more = [] := by simpa using hroot
      have hidles := filter_dropIdle more
      rw [hnil] at hidles
      rw [if_pos hroot, List.filter_cons, ← hidles]
      rfl
    · rw [if_neg hroot, List.filter_cons, List.filter_cons, filter_dropIdle]

end Path

namespace FileTree

variable {tree : FileTree} {location : List Text}

/-! ## Files that are added and removed -/

theorem node?_of_ne_nil (tree : FileTree) (h : location ≠ []) :
    tree.node? location = tree.nodes.lookup location := by
  simp [node?, h]

theorem ne_nil_of_node?_ne (h : tree.node? location ≠ some .directory) : location ≠ [] := by
  rintro rfl
  exact h rfl

theorem lookup_filter_ne (nodes : List (List Text × Node)) {other : List Text}
    (h : other ≠ location) :
    (nodes.filter fun entry ↦ entry.1 != location).lookup other = nodes.lookup other := by
  induction nodes with
  | nil => rfl
  | cons entry nodes ih =>
    obtain ⟨place, node⟩ := entry
    by_cases hplace : place = location
    · have hother : (other == place) = false := beq_false_of_ne (hplace ▸ h)
      rw [List.filter_cons_of_neg (by simp [hplace]), List.lookup_cons, hother, ih]
    · rw [List.filter_cons_of_pos (by simpa using hplace), List.lookup_cons, List.lookup_cons, ih]

theorem node?_put_self (tree : FileTree) (node : Node) (h : location ≠ []) :
    (tree.put location node).node? location = some node := by
  rw [node?_of_ne_nil _ h]
  simp [put]

theorem node?_put_of_ne (tree : FileTree) (node : Node) {other : List Text} (h : other ≠ location) :
    (tree.put location node).node? other = tree.node? other := by
  have hne : (other == location) = false := beq_false_of_ne h
  simp only [node?, put, List.lookup_cons, hne, lookup_filter_ne tree.nodes h]

theorem put_put (tree : FileTree) (location : List Text) (first second : Node) :
    (tree.put location first).put location second = tree.put location second := by
  simp [put]

/-- If nothing stood at a location, adding a node there and removing it changes nothing. -/
theorem remove_put (h : tree.node? location = none) (node : Node) :
    (tree.put location node).remove location = tree := by
  have hne : location ≠ [] := by
    rintro rfl
    exact nomatch h
  rw [node?_of_ne_nil tree hne, List.lookup_eq_none_iff] at h
  have hnodes : (tree.nodes.filter fun entry ↦ entry.1 != location) = tree.nodes :=
    List.filter_eq_self.mpr fun entry hentry ↦ by
      rw [bne_comm]
      exact h entry hentry
  simp [put, remove, hnodes]

/-! ## Ways through a tree -/

variable {start next : List Text} {component : Text} {parts : List Text}

theorem directory_of_enter (h : tree.enter start component = .ok next) :
    tree.node? start = some .directory := by
  by_contra hstart
  simp [enter, hstart] at h

theorem enter_of_isIdle (hstart : tree.node? start = some .directory)
    (hidle : Path.isIdle component) : tree.enter start component = .ok start := by
  simp [enter, hstart, hidle]

theorem follow_cons_eq_ok_iff {last : List Text} :
    tree.follow start (component :: parts) = .ok last ↔
      ∃ next, tree.enter start component = .ok next ∧ tree.follow next parts = .ok last := by
  rw [follow]
  cases tree.enter start component <;> simp

theorem follow_append {front : List Text} (h : tree.follow start front = .ok next)
    (parts : List Text) : tree.follow start (front ++ parts) = tree.follow next parts := by
  induction front generalizing start with
  | nil =>
    obtain rfl : start = next := by simpa [follow] using h
    rfl
  | cons component front ih =>
    obtain ⟨second, henter, hfollow⟩ := follow_cons_eq_ok_iff.mp h
    rw [List.cons_append, follow, henter]
    exact ih hfollow

/-- A way to a directory starts at a directory. -/
theorem directory_of_follow (h : tree.follow start parts = .ok next)
    (hnext : tree.node? next = some .directory) : tree.node? start = some .directory := by
  cases parts with
  | nil =>
    obtain rfl : start = next := by simpa [follow] using h
    exact hnext
  | cons component parts =>
    obtain ⟨_, henter, -⟩ := follow_cons_eq_ok_iff.mp h
    exact directory_of_enter henter

/-- Between directories, components that lead nowhere make no difference. -/
theorem follow_filter_eq_ok_iff (hnext : tree.node? next = some .directory) :
    tree.follow start (parts.filter (!Path.isIdle ·)) = .ok next ↔
      tree.follow start parts = .ok next := by
  induction parts generalizing start with
  | nil => rfl
  | cons component parts ih =>
    by_cases hidle : Path.isIdle component
    · rw [List.filter_cons_of_neg (by simp [hidle]), ih, follow_cons_eq_ok_iff]
      constructor
      · intro h
        exact ⟨start, enter_of_isIdle (directory_of_follow h hnext) hidle, h⟩
      · rintro ⟨second, henter, h⟩
        rw [enter_of_isIdle (directory_of_enter henter) hidle] at henter
        obtain rfl : start = second := Except.ok.inj henter
        exact h
    · rw [List.filter_cons_of_pos (by simp [hidle]), follow_cons_eq_ok_iff, follow_cons_eq_ok_iff]
      simp only [ih]

/-- What can be reached can still be reached when a node is put where no directory is. -/
theorem enter_put (hlocation : tree.node? location ≠ some .directory) (node : Node)
    (h : tree.enter start component = .ok next) :
    (tree.put location node).enter start component = .ok next := by
  have hstart : start ≠ location := by
    rintro rfl
    exact hlocation (directory_of_enter h)
  have hsome : (tree.node? (start ++ [component])).isSome →
      ((tree.put location node).node? (start ++ [component])).isSome := by
    intro hsome
    by_cases heq : start ++ [component] = location
    · rw [heq, node?_put_self tree node (ne_nil_of_node?_ne hlocation)]
      rfl
    · rwa [node?_put_of_ne tree node heq]
  unfold enter at h ⊢
  rw [node?_put_of_ne tree node hstart]
  split_ifs at h ⊢ <;> simp_all

theorem follow_put (hlocation : tree.node? location ≠ some .directory) (node : Node)
    (h : tree.follow start parts = .ok next) :
    (tree.put location node).follow start parts = .ok next := by
  induction parts generalizing start with
  | nil => exact h
  | cons component parts ih =>
    obtain ⟨second, henter, hfollow⟩ := follow_cons_eq_ok_iff.mp h
    exact follow_cons_eq_ok_iff.mpr ⟨second, enter_put hlocation node henter, ih hfollow⟩

variable {path name : Text}

theorem locate_eq_ok_iff :
    tree.locate path = .ok location ↔ path ≠ [] ∧ Path.isAdmissible path ∧
      tree.follow (if Path.isAbsolute path then [] else tree.workingDirectory)
        (Path.components path) = .ok location := by
  unfold locate
  cases path with
  | nil => simp
  | cons c rest => cases Path.isAdmissible (c :: rest) <;> simp

theorem locate_put (hlocation : tree.node? location ≠ some .directory) (node : Node)
    (h : tree.locate path = .ok next) : (tree.put location node).locate path = .ok next := by
  rw [locate_eq_ok_iff] at h ⊢
  exact ⟨h.1, h.2.1, follow_put hlocation node h.2.2⟩

/-- A path with a name leads to the place that the name has in the directory of the path. -/
theorem locate_of_name? {directory : List Text} (hname : Path.name? path = some name)
    (hpath : Path.isAdmissible path) (hshort : Path.isAdmissibleName name)
    (hlocate : tree.locate (Path.directory path) = .ok directory)
    (hdirectory : tree.node? directory = some .directory) :
    tree.locate path =
      if (tree.node? (directory ++ [name])).isSome then .ok (directory ++ [name])
      else .error .missing := by
  obtain ⟨-, hidle, hup⟩ := Path.name?_eq_some_iff.mp hname
  obtain ⟨front, hfront, hway⟩ := Path.components_of_name? hname
  obtain ⟨-, -, hfollow⟩ := locate_eq_ok_iff.mp hlocate
  rw [← follow_filter_eq_ok_iff hdirectory, ← hway, follow_filter_eq_ok_iff hdirectory] at hfollow
  simp only [Path.isAbsolute_directory hname] at hfollow
  have hne : path.isEmpty = false := by
    cases path with
    | nil => exact nomatch hname
    | cons c rest => rfl
  have henter : tree.enter directory name =
      if (tree.node? (directory ++ [name])).isSome then .ok (directory ++ [name])
      else .error .missing := by
    simp [enter, hdirectory, hidle, hup, hshort]
  calc tree.locate path
      = tree.follow (if Path.isAbsolute path then [] else tree.workingDirectory)
          (front ++ [name]) := by simp [locate, hne, hpath, hfront]
    _ = tree.follow directory [name] := follow_append hfollow [name]
    _ = tree.enter directory name := by cases h : tree.enter directory name <;> simp [follow, h]
    _ = _ := henter

/-! ## Files that are replaced -/

/-- A directory is there, and the system takes the paths of temporary files in it. -/
def HasRoom (tree : FileTree) (directory : Text) : Prop :=
  ∃ location, tree.locate directory = .ok location ∧ tree.node? location = some .directory ∧
    Path.isAdmissible (tree.temporaryPath directory)

/-- A path can be given to a file: the system takes it, it ends in a name, and it does not lead to
a directory. -/
structure TakesFile (tree : FileTree) (path : Text) : Prop where
  admissible : Path.isAdmissible path
  named : ∃ name, Path.name? path = some name ∧ Path.isAdmissibleName name
  notDirectory : ∀ location, tree.locate path = .ok location →
    tree.node? location ≠ some .directory

/-- The only difference between two trees is that a path holds some bytes. -/
structure Replaced (before after : FileTree) (path : Text) (bytes : List UInt8) : Prop where
  read : after.read path = .ok bytes
  workingDirectory : after.workingDirectory = before.workingDirectory
  elsewhere : ∀ location, after.locate path ≠ .ok location →
    after.node? location = before.node? location

theorem temporaryName_injective : Function.Injective temporaryName := by
  have hdigits (n : Nat) : Nat.ofDigitChars 10 ((Nat.toDigits 10 n).leftpad 6 '0') 0 = n := by
    rw [List.leftpad, Nat.ofDigitChars_append, Nat.ofDigitChars_replicate_zero, Nat.mul_zero,
      Nat.ofDigitChars_toDigits (by decide) (by decide)]
  intro m n h
  rw [← hdigits m, ← hdigits n, List.append_cancel_left h]

theorem node?_of_freshName? (h : tree.freshName? location = some name) :
    tree.node? (location ++ [name]) = none := by
  rw [freshName?] at h
  simpa using List.find?_some h

/-- More names are tried than there are nodes, so that one of them is free. -/
theorem isSome_freshName? (tree : FileTree) (location : List Text) :
    (tree.freshName? location).isSome := by
  by_contra hnone
  have htaken : ∀ n < tree.nodes.length + 1, tree.node? (location ++ [temporaryName n]) ≠ none := by
    simpa [freshName?] using hnone
  let places := (List.range (tree.nodes.length + 1)).map fun n ↦ location ++ [temporaryName n]
  have hsubset : places ⊆ tree.nodes.map (·.1) := by
    intro place hplace
    obtain ⟨n, hn, rfl⟩ := List.mem_map.mp hplace
    have hsome := Option.isSome_iff_ne_none.mpr (htaken n (List.mem_range.mp hn))
    rw [node?_of_ne_nil tree (by simp), List.lookup_isSome_iff] at hsome
    obtain ⟨entry, hentry, heq⟩ := hsome
    exact List.mem_map.mpr ⟨entry, hentry, (eq_of_beq heq).symm⟩
  have hnodup : places.Nodup := by
    refine List.nodup_range.map fun m n h ↦ temporaryName_injective ?_
    simpa using h
  have hlength := (hnodup.subperm hsubset).length_le
  simp only [places, List.length_map, List.length_range] at hlength
  omega

section Temporary

variable {directory : Text} {temporary : List Text} {files : FileTree}

theorem createTemporary_eq_some_iff :
    tree.createTemporary directory = some (temporary, files) ↔
      ∃ location name, (tree.locate directory = .ok location ∧
        tree.node? location = some .directory ∧
        Path.isAdmissible (tree.temporaryPath directory) ∧
        tree.freshName? location = some name) ∧
        location ++ [name] = temporary ∧ tree.put (location ++ [name]) (.file []) = files := by
  unfold createTemporary
  cases hlocate : tree.locate directory with
  | error obstacle => simp
  | ok location =>
    by_cases hdirectory : tree.node? location = some .directory
    · cases Path.isAdmissible (tree.temporaryPath directory) <;> simp [hdirectory]
    · simp [hdirectory]

/-- A temporary file stands where nothing was. -/
theorem createTemporary_eq_some (h : tree.createTemporary directory = some (temporary, files)) :
    tree.node? temporary = none ∧ files = tree.put temporary (.file []) ∧
      ∃ location, tree.locate directory = .ok location ∧
        tree.node? location = some .directory := by
  obtain ⟨location, name, ⟨hlocate, hdirectory, -, hfresh⟩, rfl, rfl⟩ :=
    createTemporary_eq_some_iff.mp h
  exact ⟨node?_of_freshName? hfresh, rfl, location, hlocate, hdirectory⟩

theorem isSome_createTemporary_iff :
    (tree.createTemporary directory).isSome ↔ tree.HasRoom directory := by
  rw [Option.isSome_iff_exists, Prod.exists]
  simp only [createTemporary_eq_some_iff]
  constructor
  · rintro ⟨_, _, location, name, ⟨hlocate, hdirectory, hpath, -⟩, -, -⟩
    exact ⟨location, hlocate, hdirectory, hpath⟩
  · rintro ⟨location, hlocate, hdirectory, hpath⟩
    obtain ⟨name, hname⟩ := Option.isSome_iff_exists.mp (isSome_freshName? tree location)
    exact ⟨_, _, location, name, ⟨hlocate, hdirectory, hpath, hname⟩, rfl, rfl⟩

end Temporary

section Destination

variable {directory source : List Text}
  (hlocate : tree.locate (Path.directory path) = .ok directory)
  (hdirectory : tree.node? directory = some .directory)

include hlocate hdirectory

theorem takesFile_iff :
    tree.TakesFile path ↔ Path.isAdmissible path ∧ ∃ name,
      (Path.name? path = some name ∧ Path.isAdmissibleName name) ∧
      tree.node? (directory ++ [name]) ≠ some .directory := by
  constructor
  · rintro ⟨hpath, ⟨name, hname, hshort⟩, hfile⟩
    refine ⟨hpath, name, ⟨hname, hshort⟩, fun hnode ↦ hfile (directory ++ [name]) ?_ hnode⟩
    rw [locate_of_name? hname hpath hshort hlocate hdirectory, hnode]
    rfl
  · rintro ⟨hpath, name, ⟨hname, hshort⟩, hnode⟩
    refine ⟨hpath, ⟨name, hname, hshort⟩, fun location hlocation ↦ ?_⟩
    rw [locate_of_name? hname hpath hshort hlocate hdirectory] at hlocation
    split at hlocation
    next => exact Except.ok.inj hlocation ▸ hnode
    next => exact nomatch hlocation

/-- A file that is put in its directory under the name of a path is what the path holds. -/
theorem replaced_put (hpath : Path.isAdmissible path) (hname : Path.name? path = some name)
    (hshort : Path.isAdmissibleName name)
    (hnode : tree.node? (directory ++ [name]) ≠ some .directory) (bytes : List UInt8) :
    Replaced tree (tree.put (directory ++ [name]) (.file bytes)) path bytes := by
  have hself : (tree.put (directory ++ [name]) (.file bytes)).node? (directory ++ [name]) =
      some (.file bytes) := node?_put_self tree _ (by simp)
  have hplace : (tree.put (directory ++ [name]) (.file bytes)).locate path =
      .ok (directory ++ [name]) := by
    have hother : directory ≠ directory ++ [name] := by simp
    rw [locate_of_name? hname hpath hshort (locate_put hnode _ hlocate)
      ((node?_put_of_ne tree _ hother).trans hdirectory), hself]
    rfl
  constructor
  · rw [FileTree.read, hplace]
    simp only [hself]
  · rfl
  · intro location hlocation
    refine node?_put_of_ne tree _ fun heq ↦ hlocation ?_
    rw [hplace, heq]

/-- What happens when a new file is given a path. -/
theorem rename_put_eq_some_iff (hfree : tree.node? source = none) (bytes : List UInt8)
    {files : FileTree} :
    (tree.put source (.file bytes)).rename source path = some files ↔
      Path.isAdmissible path ∧ ∃ name,
        (Path.name? path = some name ∧ Path.isAdmissibleName name) ∧
        tree.node? (directory ++ [name]) ≠ some .directory ∧
        tree.put (directory ++ [name]) (.file bytes) = files := by
  have hsource : tree.node? source ≠ some .directory := by simp [hfree]
  have hnode : (tree.put source (.file bytes)).node? source = some (.file bytes) :=
    node?_put_self tree _ (ne_nil_of_node?_ne hsource)
  have hdirectories : ∀ place, (tree.put source (.file bytes)).node? place = some .directory ↔
      tree.node? place = some .directory := by
    intro place
    by_cases hplace : place = source
    · subst hplace
      simp [hnode, hfree]
    · rw [node?_put_of_ne tree _ hplace]
  have hname : ∀ name, Path.name? path = some name ∧ Path.isAdmissibleName name ↔
      (Path.name? path).filter Path.isAdmissibleName = some name := by
    intro name
    rw [Option.filter_eq_some_iff]
  simp only [rename, hnode, locate_put hsource _ hlocate, ne_eq, hdirectories, hname,
    remove_put hfree]
  cases Path.isAdmissible path with
  | false => simp
  | true =>
    cases (Path.name? path).filter Path.isAdmissibleName with
    | none => simp
    | some name =>
      by_cases hplace : tree.node? (directory ++ [name]) = some .directory <;>
        simp [hplace, hdirectory]

end Destination

end FileTree

end BuildScript
