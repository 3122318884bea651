import ContainerPreview.Proofs.Report.Watching
import ContainerPreview.Proofs.Toggle.Growth
import ContainerPreview.Proofs.Toggle.Remarks
import ContainerPreview.Transform.Chain

/-!
# Runs that are watched

Two options are about reports only: whether a run is shown, and for which files.  Whatever
they are, a run gives the same sheet, calls the hook with the same queries in the same order,
and counts the same.  A run that is not shown logs nothing; one that is names only files of
the sheet that its filter lets pass.
-/

namespace ContainerPreview

/-- The options with those about reports replaced. -/
def Options.watch (options : Options) (debug : Bool) (filter : Option String) : Options :=
  { options with debug, debugFilter := filter }

/-- The query that the hook is called with. -/
def Event.hookQuery? : Event → Option String
  | .hookCalled query => some query
  | _ => none

/-- The queries that the hook has been called with on the way to the value, in order. -/
def Traced.hookQueries {α : Type} (traced : Traced α) : List String :=
  traced.events.filterMap Event.hookQuery?

/-- What the reporter of a run has counted and shown at its end. -/
def reportOf (options : Options) (tree : Node) : Reporter :=
  (Transform.reporter (.toggle options)).observeAll (runToggle options tree).events

/-- A node of the tree comes from the file. -/
def Node.HasFile (tree : Node) (file : String) : Prop :=
  ∃ node ∈ tree :: tree.descendants, node.source = some file

/-! ## Files of the sheet -/

/-- Nodes keep their files, and their order, in a tree that grows. -/
theorem Grows.sources_sublist {change : String × Bool → String × Bool → Prop}
    {before after : List Node} (grows : Grows change before after) :
    ((descendantsIn before).map Node.source).Sublist ((descendantsIn after).map Node.source) := by
  induction grows with
  | nil => exact .slnil
  | leaf _ ofRest => exact ofRest.cons_cons _
  | rule _ _ _ _ ofChildren ofRest =>
      simp only [descendantsIn_block, descendantsIn_append, List.map_cons, List.map_append]
      exact (ofChildren.append (ofRest.trans (List.sublist_append_right _ _))).cons_cons _
  | block _ _ _ _ ofChildren ofRest =>
      simp only [descendantsIn_block, descendantsIn_append, List.map_cons, List.map_append]
      exact (ofChildren.append (ofRest.trans (List.sublist_append_right _ _))).cons_cons _

/-- A run keeps the files of a sheet. -/
theorem Node.HasFile.runToggle {tree : Node} {file : String} (hasFile : tree.HasFile file)
    (options : Options) : (runToggle options tree).value.HasFile file := by
  cases tree with
  | leaf source content => exact hasFile
  | block source head settled children =>
      obtain ⟨nodes, isRun, grows⟩ := runToggle_grows options source head settled children
      obtain ⟨node, member, isFile⟩ := hasFile
      rw [isRun]
      rcases List.mem_cons.mp member with rfl | below
      · exact ⟨_, List.mem_cons_self, isFile⟩
      · obtain ⟨kept, isKept, same⟩ :=
          List.mem_map.mp (grows.sources_sublist.subset (List.mem_map_of_mem below))
        exact ⟨kept, by simp [Node.descendants, isKept], same.trans isFile⟩

/-! ## Files of the remarks -/

/-- A remark is on a node without a file or names the file of the node. -/
theorem Reporter.eq_of_fileName {source : Option String} {file : String}
    (isFile : fileName source = file) : file = "unknown source" ∨ source = some file := by
  cases source with
  | none => exact .inl isFile.symm
  | some path =>
      rw [fileName] at isFile
      split at isFile
      · exact .inl isFile.symm
      · exact .inr (congrArg some isFile)

/-- What a filter lets pass contains it. -/
theorem Reporter.infix_of_admits {reporter : Reporter} {file text : String}
    (admits : reporter.admits file) (isFilter : reporter.filter = some text) :
    text.toList <:+: file.toList := by
  rw [Reporter.admits, isFilter, Bool.or_eq_true, String.isEmpty_iff] at admits
  rcases admits with rfl | contained
  · exact List.nil_infix
  · exact Text.contains_iff_infix.mp contained

/-- The files of the nodes of a tree. -/
def Origin.ofFiles (tree : Node) : Origin where
  file source := source = none ∨ ∃ node ∈ tree :: tree.descendants, node.source = source
  noFile := .inl rfl
  frames _ := True

/-- The files that the remarks of a run name are files of the sheet. -/
theorem file_of_isRemarkOn (options : Options) (tree : Node) {event : Event}
    (happens : event ∈ (runToggle options tree).events) {file : String}
    (isRemark : Reporter.IsRemarkOn file event) :
    file = "unknown source" ∨ tree.HasFile file := by
  have ofTree : (Origin.ofFiles tree).file tree.source := .inr ⟨tree, List.mem_cons_self, rfl⟩
  have admitsAll : (Origin.ofFiles tree).AdmitsAll tree.children := by
    refine fun node member => ⟨.inr ⟨node, List.mem_cons_of_mem _ ?_, rfl⟩, fun _ => trivial⟩
    cases tree with
    | leaf source content => cases member
    | block source head settled children => exact member
  obtain ⟨message, source, rfl, isFile⟩ := isRemark
  have isFrom : (Origin.ofFiles tree).file source :=
    emits_runToggle options ofTree admitsAll _ happens
  rcases Reporter.eq_of_fileName isFile with unknown | rfl
  · exact .inl unknown
  · rcases isFrom with noSource | hasFile
    · cases noSource
    · exact .inr hasFile

/-- The options about reports change nothing but what is shown. -/
theorem runToggle_watch (options : Options) (debug : Bool) (filter : Option String)
    (tree : Node) :
    (runToggle (options.watch debug filter) tree).value = (runToggle options tree).value ∧
      (runToggle (options.watch debug filter) tree).hookQueries =
          (runToggle options tree).hookQueries ∧
        (reportOf (options.watch debug filter) tree).stats.SameCounts
            (reportOf options tree).stats ∧
          (debug = false →
              (reportOf (options.watch debug filter) tree).lines = [] ∧
                (reportOf (options.watch debug filter) tree).stats.files = []) ∧
            ∀ file ∈ (reportOf (options.watch debug filter) tree).stats.files,
              (file = "unknown source" ∨
                  tree.HasFile file ∧
                    (runToggle (options.watch debug filter) tree).value.HasFile file) ∧
                ∀ text, filter = some text → text.toList <:+: file.toList := by
  have sameRun : runToggle (options.watch debug filter) tree = runToggle options tree := rfl
  have shown (file : String) :
      file ∈ (reportOf (options.watch debug filter) tree).stats.files →
        debug ∧ (Transform.reporter (.toggle (options.watch debug filter))).admits file ∧
          ∃ event ∈ (runToggle options tree).events, Reporter.IsRemarkOn file event := by
    intro member
    rcases (Reporter.mem_files_observeAll _ _ file).mp member with atStart | isShown
    · cases atStart
    · exact isShown
  refine ⟨by rw [sameRun], by rw [sameRun], ?_, ?_, ?_⟩
  · exact Reporter.sameCounts_observeAll _ (.refl _)
  · rintro rfl
    refine ⟨Reporter.lines_observeAll_of_not_debug rfl _, ?_⟩
    rw [List.eq_nil_iff_forall_not_mem]
    intro file member
    cases (shown file member).1
  · intro file member
    obtain ⟨-, admits, event, happens, isRemark⟩ := shown file member
    refine ⟨?_, fun text isFilter => Reporter.infix_of_admits admits isFilter⟩
    rcases file_of_isRemarkOn options tree happens isRemark with unknown | hasFile
    · exact .inl unknown
    · exact .inr ⟨hasFile, hasFile.runToggle _⟩

/-- A sheet put together from two files, with a rule from each that is forked. -/
def mixedSheet : Node :=
  .block (some "site.css") .sheet false
    [.block (some "theme/dark.css") (.rule ".a") false
        [.leaf none (.declaration { property := "width", value := "10vw" })],
      .block (some "print.css") (.rule ".b") false
        [.leaf none (.declaration { property := "height", value := "5vh" })]]

/-- Of two rules that are remarked on, the filter lets one pass. -/
theorem runToggle_watch_mixedSheet :
    (reportOf (Options.watch {} true (some "theme")) mixedSheet).stats.files =
        ["theme/dark.css"] ∧
      (reportOf {} mixedSheet).stats.rules = 2 ∧
        (reportOf (Options.watch {} true (some "theme")) mixedSheet).stats.rules = 2 ∧
          mixedSheet.HasFile "theme/dark.css" := by
  have isShown : (reportOf (Options.watch {} true (some "theme")) mixedSheet).stats.files =
      ["theme/dark.css"] := by
    decide +kernel
  have counted : (reportOf {} mixedSheet).stats.rules = 2 := by
    decide +kernel
  obtain ⟨-, -, same, -, ofFiles⟩ := runToggle_watch {} true (some "theme") mixedSheet
  refine ⟨isShown, counted, same.rules.trans counted, ?_⟩
  rcases (ofFiles "theme/dark.css" (by rw [isShown]; exact List.mem_singleton_self _)).1 with
    unknown | hasFile
  · exact absurd unknown (by decide)
  · exact hasFile.1

end ContainerPreview
