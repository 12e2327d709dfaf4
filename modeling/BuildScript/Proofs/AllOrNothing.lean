import BuildScript.Program
import BuildScript.Proofs.FilePlaces

/-!
# All or nothing

A run of the program that fails leaves the world as it was, whatever went wrong and however far the
run had come.  A run that succeeds does one thing: it prints the script, or it replaces one file.
The files are also safe where the system refuses to write, to bring to the disk or to print.
-/

namespace BuildScript

namespace Text

/-- The bytes that can stand before the text of a file. -/
def byteOrderMark : List UInt8 := [0xEF, 0xBB, 0xBF]

theorem decodeFile_eq (bytes : List UInt8) :
    decodeFile bytes = decodeAfter none
      (if byteOrderMark <+: bytes then bytes.drop byteOrderMark.length else bytes) := by
  fun_cases decodeFile bytes with
  | case1 rest => simp [byteOrderMark]
  | case2 bytes hno =>
    have hmark : ¬ byteOrderMark <+: bytes := by
      rintro ⟨rest, rfl⟩
      exact hno rest rfl
    rw [if_neg hmark]

end Text

namespace Options

theorem destination?_eq_some_iff {o : Options} {path : Text} :
    o.destination? = some path ↔ o.output = some path ∧ path ≠ ['-'] := by
  simp [destination?, isStandardOutput, Option.filter_eq_some_iff]

theorem destination?_eq_none_iff {o : Options} :
    o.destination? = none ↔ o.output = none ∨ o.output = some ['-'] := by
  cases houtput : o.output with
  | none => simp [destination?, houtput]
  | some path => simp [destination?, houtput, isStandardOutput]

/-- The line ends of the script: those that are asked for, or else complete ones unless the script
goes to a terminal. -/
def lineEnds (o : Options) (terminal : Bool) : Newline :=
  o.newline.getD (if o.destination?.isSome || !terminal then .crlf else .lf)

end Options

namespace World

variable {faults : Faults} {terminal : Bool} {world : World} {directory path : Text}
  {temporary : List Text} {files : FileTree}

theorem run_bind {α β : Type} {x : StateM World α} {f : α → StateM World β} {a : α} {after : World}
    (h : x.run world = (a, after)) : (x >>= f).run world = (f a).run after := by
  rw [StateT.run_bind, h]
  rfl

theorem run_readFile (path : Text) :
    ((faultyHost faults terminal).readFile path).run world = (world.files.read path, world) := rfl

theorem run_createTemporary_of_none (h : world.files.createTemporary directory = none) :
    ((faultyHost faults terminal).createTemporary directory).run world = (none, world) := by
  simp only [faultyHost, StateT.run_bind, StateT.run_get, pure_bind, h]
  rfl

theorem run_createTemporary_of_some
    (h : world.files.createTemporary directory = some (temporary, files)) :
    ((faultyHost faults terminal).createTemporary directory).run world =
      (some temporary, { world with files := files }) := by
  simp only [faultyHost, StateT.run_bind, StateT.run_get, pure_bind, h]
  rfl

theorem run_persist_of_none (h : world.files.rename temporary path = none) :
    ((faultyHost faults terminal).persist temporary path).run world = (false, world) := by
  simp only [faultyHost, StateT.run_bind, StateT.run_get, pure_bind, h]
  rfl

theorem run_persist_of_some (h : world.files.rename temporary path = some files) :
    ((faultyHost faults terminal).persist temporary path).run world =
      (true, { world with files := files }) := by
  simp only [faultyHost, StateT.run_bind, StateT.run_get, pure_bind, h]
  rfl

theorem run_writeTemporary (temporary : List Text) (bytes : List UInt8) :
    ((faultyHost faults terminal).writeTemporary temporary bytes).run world =
      ((faults.written bytes).2,
        { world with files := world.files.put temporary (.file (faults.written bytes).1) }) := rfl

theorem run_syncTemporary (temporary : List Text) :
    ((faultyHost faults terminal).syncTemporary temporary).run world = (!faults.sync, world) := rfl

theorem run_removeTemporary (temporary : List Text) :
    ((faultyHost faults terminal).removeTemporary temporary).run world =
      ((), { world with files := world.files.remove temporary }) := rfl

theorem run_print (text : Text) :
    ((faultyHost faults terminal).print text).run world =
      ((faults.printed text).2,
        { world with printed := world.printed ++ (faults.printed text).1 }) := rfl

end World

namespace Program

open World (Faults faultyHost)

variable {faults : Faults} {terminal : Bool} {world : World} {o : Options} {path : Text}

/-! ## Replacing a file -/

theorem run_abandon (temporary : List Text) (failure : Failure) :
    (abandon (faultyHost faults terminal) temporary failure).run world =
      (.error failure, { world with files := world.files.remove temporary }) :=
  World.run_bind (World.run_removeTemporary temporary)

theorem run_settle_of_none {temporary : List Text}
    (h : world.files.rename temporary path = none) :
    (settle (faultyHost faults terminal) temporary path).run world =
      (.error (.notReplaceable path), { world with files := world.files.remove temporary }) :=
  calc (settle (faultyHost faults terminal) temporary path).run world
      = _ := World.run_bind (World.run_persist_of_none h)
    _ = _ := run_abandon temporary _

theorem run_settle_of_some {temporary : List Text} {files : FileTree}
    (h : world.files.rename temporary path = some files) :
    (settle (faultyHost faults terminal) temporary path).run world =
      (.ok (), { world with files := files }) :=
  World.run_bind (World.run_persist_of_some h)

theorem run_replaceFile_of_not_hasRoom (h : ¬ world.files.HasRoom (Path.directory path))
    (bytes : List UInt8) :
    (replaceFile (faultyHost faults terminal) path bytes).run world =
      (.error (.noDirectory (Path.directory path)), world) := by
  have hnone : world.files.createTemporary (Path.directory path) = none := by
    rwa [← FileTree.isSome_createTemporary_iff, Option.not_isSome_iff_eq_none] at h
  exact World.run_bind (World.run_createTemporary_of_none hnone)

/-- Where there is room, all bytes are in a temporary file before the path is touched.  If they
cannot be written, or not be brought to the disk, the temporary file is gone again. -/
theorem exists_run_replaceFile (faults : Faults) (terminal : Bool)
    (h : world.files.HasRoom (Path.directory path)) (bytes : List UInt8) :
    ∃ temporary directory, world.files.node? temporary = none ∧
      world.files.locate (Path.directory path) = .ok directory ∧
      world.files.node? directory = some .directory ∧
      (replaceFile (faultyHost faults terminal) path bytes).run world =
        if (faults.written bytes).2 then
          if faults.sync then
            (.error (.notSynced ((faultyHost faults terminal).pathOf temporary)), world)
          else
            (settle (faultyHost faults terminal) temporary path).run
              { world with
                files := world.files.put temporary (.file (faults.written bytes).1) }
        else (.error (.notWritten ((faultyHost faults terminal).pathOf temporary)), world) := by
  obtain ⟨⟨temporary, files⟩, hcreate⟩ :=
    Option.isSome_iff_exists.mp (FileTree.isSome_createTemporary_iff.mpr h)
  obtain ⟨hfree, rfl, directory, hlocate, hdirectory⟩ := FileTree.createTemporary_eq_some hcreate
  refine ⟨temporary, directory, hfree, hlocate, hdirectory, ?_⟩
  refine (World.run_bind (World.run_createTemporary_of_some hcreate)).trans ?_
  refine (World.run_bind (World.run_writeTemporary temporary bytes)).trans ?_
  simp only [FileTree.put_put]
  cases (faults.written bytes).2 with
  | false =>
    refine (run_abandon temporary _).trans ?_
    rw [FileTree.remove_put hfree]
    rfl
  | true =>
    refine (World.run_bind (World.run_syncTemporary temporary)).trans ?_
    cases faults.sync with
    | false => rfl
    | true =>
      refine (run_abandon temporary _).trans ?_
      rw [FileTree.remove_put hfree]
      rfl

/-- Without faults, it only remains to give the temporary file its path. -/
theorem exists_run_replaceFile_of_hasRoom (terminal : Bool)
    (h : world.files.HasRoom (Path.directory path)) (bytes : List UInt8) :
    ∃ temporary directory, world.files.node? temporary = none ∧
      world.files.locate (Path.directory path) = .ok directory ∧
      world.files.node? directory = some .directory ∧
      (replaceFile (World.host terminal) path bytes).run world =
        (settle (World.host terminal) temporary path).run
          { world with files := world.files.put temporary (.file bytes) } :=
  exists_run_replaceFile World.noFaults terminal h bytes

theorem run_replaceFile_of_not_takesFile (hroom : world.files.HasRoom (Path.directory path))
    (htakes : ¬ world.files.TakesFile path) (bytes : List UInt8) :
    (replaceFile (World.host terminal) path bytes).run world =
      (.error (.notReplaceable path), world) := by
  obtain ⟨temporary, directory, hfree, hlocate, hdirectory, hrun⟩ :=
    exists_run_replaceFile_of_hasRoom terminal hroom bytes
  have hrename : (world.files.put temporary (.file bytes)).rename temporary path = none := by
    rw [Option.eq_none_iff_forall_ne_some]
    intro files hfiles
    rw [FileTree.rename_put_eq_some_iff hlocate hdirectory hfree] at hfiles
    rw [FileTree.takesFile_iff hlocate hdirectory] at htakes
    obtain ⟨hpath, name, hname, hnode, -⟩ := hfiles
    exact htakes ⟨hpath, name, hname, hnode⟩
  refine (hrun.trans (run_settle_of_none hrename)).trans ?_
  -- The temporary file is gone again.
  rw [FileTree.remove_put hfree]

theorem exists_run_replaceFile_of_takesFile (terminal : Bool)
    (hroom : world.files.HasRoom (Path.directory path))
    (htakes : world.files.TakesFile path) (bytes : List UInt8) :
    ∃ files, world.files.Replaced files path bytes ∧
      (replaceFile (World.host terminal) path bytes).run world =
        (.ok (), { world with files := files }) := by
  obtain ⟨temporary, directory, hfree, hlocate, hdirectory, hrun⟩ :=
    exists_run_replaceFile_of_hasRoom terminal hroom bytes
  obtain ⟨hpath, name, ⟨hname, hshort⟩, hnode⟩ :=
    (FileTree.takesFile_iff hlocate hdirectory).mp htakes
  refine ⟨world.files.put (directory ++ [name]) (.file bytes),
    FileTree.replaced_put hlocate hdirectory hpath hname hshort hnode bytes, ?_⟩
  have hrename : (world.files.put temporary (.file bytes)).rename temporary path =
      some (world.files.put (directory ++ [name]) (.file bytes)) :=
    (FileTree.rename_put_eq_some_iff hlocate hdirectory hfree bytes).mpr
      ⟨hpath, name, ⟨hname, hshort⟩, hnode, rfl⟩
  exact hrun.trans (run_settle_of_some hrename)

/-! ## Making the script -/

/-- The text of a rule file with these bytes, of which one byte order mark is no part. -/
def ruleText (bytes : List UInt8) : Text :=
  Text.decodeAfter none
    (if Text.byteOrderMark <+: bytes then bytes.drop Text.byteOrderMark.length else bytes)

/-- The rule file that the options name has this script, with line feeds alone. -/
inductive Translates (files : FileTree) (o : Options) : Text → Prop
  | intro {bytes : List UInt8} {rules : RuleSet} {script : Script}
      (hread : files.read o.file = .ok bytes)
      (hparse : RuleFile.parse (.ofOverrides o.overrides) (ruleText bytes) = .ok rules)
      (hcompile : rules.compile o.isolated = .ok script) :
      Translates files o script.render

/-- What can go wrong when the options ask for a script. -/
inductive Fails (files : FileTree) (o : Options) : Failure → Prop
  | notFound (hread : files.read o.file = .error .notFound) : Fails files o (.notFound o.file)
  | unreadable (hread : files.read o.file = .error .unreadable) :
      Fails files o (.unreadable o.file)
  | parse {bytes : List UInt8} {e : ParseError} (hread : files.read o.file = .ok bytes)
      (hparse : RuleFile.parse (.ofOverrides o.overrides) (ruleText bytes) = .error e) :
      Fails files o (.parse e)
  | cycle {bytes : List UInt8} {rules : RuleSet} {c : Cycle}
      (hread : files.read o.file = .ok bytes)
      (hparse : RuleFile.parse (.ofOverrides o.overrides) (ruleText bytes) = .ok rules)
      (hcompile : rules.compile o.isolated = .error c) : Fails files o (.cycle c)
  | noDirectory {text path : Text} (htext : Translates files o text)
      (hpath : o.destination? = some path) (hroom : ¬ files.HasRoom (Path.directory path)) :
      Fails files o (.noDirectory (Path.directory path))
  | notReplaceable {text path : Text} (htext : Translates files o text)
      (hpath : o.destination? = some path) (hroom : files.HasRoom (Path.directory path))
      (htakes : ¬ files.TakesFile path) : Fails files o (.notReplaceable path)

theorem run_makeScript_of_ok {bytes : List UInt8} (hread : world.files.read path = .ok bytes)
    (overrides : List (Text × Text)) (isolated : Bool) :
    (makeScript (World.host terminal) path overrides isolated).run world =
      (compileText overrides isolated (ruleText bytes), world) := by
  rw [ruleText, ← Text.decodeFile_eq]
  refine (World.run_bind (World.run_readFile path)).trans ?_
  rw [hread]
  rfl

/-- What a run of the program on a world gives, and the world afterwards. -/
def outcome (terminal : Bool) (o : Options) (world : World) : Except Failure Unit × World :=
  (run (World.host terminal) o).run world

theorem outcome_of_error {failure : Failure}
    (h : (makeScript (World.host terminal) o.file o.overrides o.isolated).run world =
      (.error failure, world)) :
    outcome terminal o world = (.error failure, world) :=
  World.run_bind h

theorem run_resolve (o : Options) :
    (Newline.resolve o.newline o.destination?.isSome
      (faultyHost faults terminal).isTerminal).run world = (o.lineEnds terminal, world) := by
  unfold Options.lineEnds
  cases o.newline with
  | some newline => rfl
  | none => cases o.destination?.isSome <;> cases terminal <;> rfl

theorem outcome_of_translates {text : Text} (h : Translates world.files o text) :
    outcome terminal o world =
      (deliver (World.host terminal) o.destination? ((o.lineEnds terminal).apply text)).run
        world := by
  obtain ⟨hread, hparse, hcompile⟩ := h
  refine (World.run_bind (run_makeScript_of_ok hread o.overrides o.isolated)).trans ?_
  simp only [compileText, hparse, hcompile]
  exact World.run_bind (run_resolve o)

theorem outcome_of_fails {failure : Failure} (h : Fails world.files o failure) :
    outcome terminal o world = (.error failure, world) := by
  cases h with
  | notFound hread | unreadable hread =>
    apply outcome_of_error
    refine (World.run_bind (World.run_readFile _)).trans ?_
    rw [hread]
    rfl
  | parse hread hparse =>
    apply outcome_of_error
    rw [run_makeScript_of_ok hread, compileText, hparse]
  | cycle hread hparse hcompile =>
    apply outcome_of_error
    simp only [run_makeScript_of_ok hread, compileText, hparse, hcompile]
  | noDirectory htext hpath hroom =>
    rw [outcome_of_translates htext, hpath]
    exact run_replaceFile_of_not_hasRoom hroom _
  | notReplaceable htext hpath hroom htakes =>
    rw [outcome_of_translates htext, hpath]
    exact run_replaceFile_of_not_takesFile hroom htakes _

/-- If nothing can go wrong, there is a script, and a place for it. -/
theorem exists_translates_of_not_fails {files : FileTree}
    (h : ∀ failure, ¬ Fails files o failure) :
    ∃ text, Translates files o text ∧ ∀ path, o.destination? = some path →
      files.HasRoom (Path.directory path) ∧ files.TakesFile path := by
  cases hread : files.read o.file with
  | error fault =>
    cases fault with
    | notFound => exact absurd (.notFound hread) (h _)
    | unreadable => exact absurd (.unreadable hread) (h _)
  | ok bytes =>
    cases hparse : RuleFile.parse (.ofOverrides o.overrides) (ruleText bytes) with
    | error e => exact absurd (.parse hread hparse) (h _)
    | ok rules =>
      cases hcompile : rules.compile o.isolated with
      | error c => exact absurd (.cycle hread hparse hcompile) (h _)
      | ok script =>
        have htext : Translates files o script.render := ⟨hread, hparse, hcompile⟩
        refine ⟨script.render, htext, fun path hpath ↦ ?_⟩
        have hroom : files.HasRoom (Path.directory path) := by
          by_contra hroom
          exact h _ (.noDirectory htext hpath hroom)
        refine ⟨hroom, ?_⟩
        by_contra htakes
        exact h _ (.notReplaceable htext hpath hroom htakes)

/-- The script went where the options say, and this is all that happened to the world: the only
change to the files is that the output path holds the script, or else the script is printed. -/
structure Delivered (terminal : Bool) (o : Options) (script : Text) (before after : World) :
    Prop where
  file : ∀ path, o.output = some path → path ≠ ['-'] → ∃ files,
    before.files.Replaced files path ((o.lineEnds terminal).apply script).encode ∧
      after = { before with files := files }
  standardOutput : o.output = none ∨ o.output = some ['-'] →
    after = { before with printed := before.printed ++ (o.lineEnds terminal).apply script }

theorem delivered_of_destination?_eq_none {script : Text} (h : o.destination? = none) :
    Delivered terminal o script world
      { world with printed := world.printed ++ (o.lineEnds terminal).apply script } where
  file path houtput hpath := by
    rw [Options.destination?_eq_some_iff.mpr ⟨houtput, hpath⟩] at h
    cases h
  standardOutput _ := rfl

theorem delivered_of_replaced {script : Text} {files : FileTree} (h : o.destination? = some path)
    (hfiles : world.files.Replaced files path ((o.lineEnds terminal).apply script).encode) :
    Delivered terminal o script world { world with files := files } where
  file other houtput hother := by
    rw [Options.destination?_eq_some_iff.mpr ⟨houtput, hother⟩] at h
    exact ⟨files, Option.some.inj h ▸ hfiles, rfl⟩
  standardOutput houtput := by
    rw [Options.destination?_eq_none_iff.mpr houtput] at h
    cases h

/-- Unless something goes wrong, there is a script, and it is delivered. -/
theorem exists_delivered_of_not_fails (terminal : Bool)
    (h : ∀ failure, ¬ Fails world.files o failure) :
    ∃ script after, Translates world.files o script ∧ Delivered terminal o script world after ∧
      outcome terminal o world = (.ok (), after) := by
  obtain ⟨script, hscript, hplace⟩ := exists_translates_of_not_fails h
  have hrun : outcome terminal o world = _ := outcome_of_translates hscript
  cases hdestination : o.destination? with
  | none =>
    rw [hdestination] at hrun
    exact ⟨script, _, hscript, delivered_of_destination?_eq_none hdestination, hrun⟩
  | some path =>
    obtain ⟨hroom, htakes⟩ := hplace path hdestination
    obtain ⟨files, hfiles, hreplace⟩ := exists_run_replaceFile_of_takesFile terminal hroom htakes
      (Text.encode ((o.lineEnds terminal).apply script))
    rw [hdestination] at hrun
    exact ⟨script, _, hscript, delivered_of_replaced hdestination hfiles, hrun.trans hreplace⟩

/-- A run fails exactly if something goes wrong, and then it changes nothing: the files are as they
were, no temporary file is left, and nothing is printed.  A run that succeeds has made the script of
the rule file, and does nothing to the world but to deliver it. -/
theorem run_all_or_nothing (terminal : Bool) (o : Options) (world : World) :
    (∀ failure, (outcome terminal o world).1 = .error failure ↔ Fails world.files o failure) ∧
    (∀ failure, (outcome terminal o world).1 = .error failure →
      (outcome terminal o world).2 = world) ∧
    ((outcome terminal o world).1 = .ok () → ∃ script, Translates world.files o script ∧
      Delivered terminal o script world (outcome terminal o world).2) := by
  by_cases hfails : ∃ failure, Fails world.files o failure
  · obtain ⟨failure, hfailure⟩ := hfails
    have hrun : outcome terminal o world = (.error failure, world) := outcome_of_fails hfailure
    refine ⟨fun other ↦ ⟨fun h ↦ ?_, fun h ↦ ?_⟩, fun _ _ ↦ ?_, fun h ↦ ?_⟩
    · rw [hrun] at h
      exact Except.error.inj h ▸ hfailure
    · rw [outcome_of_fails h]
    · rw [hrun]
    · rw [hrun] at h
      exact nomatch h
  · have hfine : ∀ failure, ¬ Fails world.files o failure := not_exists.mp hfails
    obtain ⟨script, after, hscript, hdelivered, hrun⟩ :=
      exists_delivered_of_not_fails terminal hfine
    rw [hrun]
    exact ⟨fun failure ↦ ⟨nofun, fun h ↦ absurd h (hfine failure)⟩, nofun,
      fun _ ↦ ⟨script, hscript, hdelivered⟩⟩

/-! ## Systems with faults -/

/-- Making a script changes nothing. -/
theorem exists_run_makeScript (faults : Faults) (terminal : Bool) (world : World) (path : Text)
    (overrides : List (Text × Text)) (isolated : Bool) :
    ∃ result, (makeScript (faultyHost faults terminal) path overrides isolated).run world =
      (result, world) := by
  refine ⟨((makeScript (faultyHost faults terminal) path overrides isolated).run world).1, ?_⟩
  rw [makeScript, World.run_bind (World.run_readFile path)]
  cases world.files.read path with
  | ok bytes => rfl
  | error fault => cases fault <;> rfl

/-- A file is replaced, or nothing has changed. -/
theorem run_replaceFile_cases (faults : Faults) (terminal : Bool) (world : World) (path : Text)
    (bytes : List UInt8) :
    (∃ failure, (replaceFile (faultyHost faults terminal) path bytes).run world =
        (.error failure, world)) ∨
      ∃ files, (replaceFile (faultyHost faults terminal) path bytes).run world =
        (.ok (), { world with files := files }) := by
  by_cases hroom : world.files.HasRoom (Path.directory path)
  · obtain ⟨temporary, -, hfree, -, -, hrun⟩ := exists_run_replaceFile faults terminal hroom bytes
    rw [hrun]
    split
    · split
      · exact .inl ⟨_, rfl⟩
      · cases hrename : (world.files.put temporary (.file (faults.written bytes).1)).rename
            temporary path with
        | none =>
          refine .inl ⟨.notReplaceable path, (run_settle_of_none hrename).trans ?_⟩
          rw [FileTree.remove_put hfree]
        | some files => exact .inr ⟨files, run_settle_of_some hrename⟩
    · exact .inl ⟨_, rfl⟩
  · exact .inl ⟨_, run_replaceFile_of_not_hasRoom hroom bytes⟩

/-- Whatever a system refuses to do, a run that fails leaves the files as they were.  Unless it was
the printing that failed, it leaves the whole world as it was. -/
theorem files_eq_of_run_error {failure : Failure} {after : World}
    (h : (run (faultyHost faults terminal) o).run world = (.error failure, after)) :
    after.files = world.files ∧ (failure ≠ .notPrinted → after = world) := by
  obtain ⟨result, hmake⟩ :=
    exists_run_makeScript faults terminal world o.file o.overrides o.isolated
  rw [run, World.run_bind hmake] at h
  cases result with
  | error fault =>
    cases h
    exact ⟨rfl, fun _ ↦ rfl⟩
  | ok script =>
    have hdeliver : (deliver (faultyHost faults terminal) o.destination?
        ((o.lineEnds terminal).apply script)).run world = (.error failure, after) :=
      (World.run_bind (run_resolve o)).symm.trans h
    cases hdestination : o.destination? with
    | none =>
      rw [hdestination, deliver, World.run_bind (World.run_print _)] at hdeliver
      cases hprinted : (faults.printed ((o.lineEnds terminal).apply script)).2 with
      | ok _ =>
        rw [hprinted] at hdeliver
        cases hdeliver
      | error fault =>
        rw [hprinted] at hdeliver
        cases fault with
        | closed => cases hdeliver
        | failed =>
          cases hdeliver
          exact ⟨rfl, fun hother ↦ absurd rfl hother⟩
    | some path =>
      rw [hdestination] at hdeliver
      rcases run_replaceFile_cases faults terminal world path
        (Text.encode ((o.lineEnds terminal).apply script)) with ⟨_, hrun⟩ | ⟨_, hrun⟩
      · cases hrun.symm.trans hdeliver
        exact ⟨rfl, fun _ ↦ rfl⟩
      · cases hrun.symm.trans hdeliver

end Program

end BuildScript
