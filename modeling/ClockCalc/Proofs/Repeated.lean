import ClockCalc.Proofs.Renumbered

/-! A renumbering done twice. The names that the first gives are already in the order of their
numbers and keep their extensions, so the second gives every file the name that it has. That needs
the second to see what the first has done: behind a padded path a new name may be too far away to
be listed, although the renaming, which goes by the trimmed path, could reach it. -/

namespace ClockCalc

namespace Renumbering

open Disk (HasFile Lists Moved)

variable {disk disk' middle : Disk} {directory stem temporary temporary' name : String}
  {place : Place} {names names' moved : List String} {start width digits : Nat}

/-- A renumbering that comes to its end has met no name that could not be used. -/
theorem Course.fits {widened : Bool} {outcome : Renumbering}
    (h : Course directory stem temporary place start width widened names disk (.ok outcome) disk')
    (hapart : Apart disk place temporary stem) (hlistable : Listable disk directory)
    (hnames : disk.Lists directory place names)
    (hwidth : neededDigits start names.length ≤ width) :
    Fits disk directory stem temporary width start names := by
  generalize hresult : Except.ok outcome = result at h
  cases h with
  | interrupted => cases hresult
  | @through middle moved done rest result _ hmoved htaken hlists hsplit _ htaken' _ hends =>
    cases hends with
    | stopped => cases hresult
    | unwritten => cases hresult
    | all =>
      have hinterim (k : Nat) (name : String) (hk : names[k]? = some name) :
          disk.Short directory (newName temporary width (start + k) name) :=
        hlistable _ (htaken k name hk).new.short
      have hlisting := moved_eq_interim hnames hwidth hinterim hmoved hlists
      rw [hsplit, List.append_nil] at hlisting
      subst hlisting
      have hfinal (k : Nat) (name : String) (hk : names[k]? = some name) :
          disk.Admits (Path.trimEnd directory) (newName stem width (start + k) name) := by
        have hadmits := (htaken' k _ (getElem?_interim_of_getElem? hk)).new.of_limits
          hmoved.limits.symm
        rwa [hapart.newName_newName] at hadmits
      refine ⟨fun hne hnul => ?_, fun hne => ?_, fun name hname => ?_, hinterim,
        fun k name hk => (hfinal k name hk).short⟩
      · obtain ⟨first, rest, rfl⟩ := List.exists_cons_of_ne_nil hne
        refine (hfinal 0 first rfl).nul ?_
        rw [toList_newName]
        exact List.mem_append_left _ hnul
      · obtain ⟨first, rest, rfl⟩ := List.exists_cons_of_ne_nil hne
        exact (htaken 0 first rfl).written
      · obtain ⟨k, hk⟩ := List.mem_iff_getElem?.1 hname
        exact (htaken k name hk).old.short

theorem Course.completed {widened : Bool} {outcome : Renumbering}
    (h : Course directory stem temporary place start width widened names disk (.ok outcome) disk')
    (hapart : Apart disk place temporary stem)
    (hnode : disk.node directory = .ok (place, .directory))
    (hnames : disk.Lists directory place names)
    (hwidth : neededDigits start names.length ≤ width)
    (hfits : Fits disk directory stem temporary width start names) :
    outcome = ⟨names.length, width, widened⟩ ∧
      Moved place (assigned stem width start names) disk disk' := by
  obtain ⟨i, hmoved, ⟨rfl, hresult⟩ | ⟨_, -, -, hresult⟩⟩ := h.ends hapart hnode hnames hwidth hfits
  · rw [halfway_all] at hmoved
    exact ⟨Except.ok.inj hresult, hmoved⟩
  · cases hresult

theorem Apart.utf8ByteSize (h : Apart disk place temporary stem) :
    temporary.utf8ByteSize = temporary.length := by
  have hletter : (Draw.alphabet.all fun c => decide (c.utf8Size = 1)) = true := by decide
  have hsize := utf8ByteSize_eq_length fun c hc =>
    of_decide_eq_true (List.all_eq_true.1 hletter c (h.letters c hc))
  rwa [String.ofList_toList, String.length_toList] at hsize

/-- The names that a renumbering has given are the ones to be given to them. -/
theorem newName_again {k : Nat} (hdot : '.' ∉ stem.toList)
    (hk : (interim stem width start names)[k]? = some name) :
    newName stem width (start + k) name = name := by
  obtain ⟨old, -, rfl⟩ := exists_of_getElem?_interim hk
  exact newName_newName hdot

theorem assigned_again (hdot : '.' ∉ stem.toList)
    (hnodup : (interim stem width start names).Nodup) (name : String) :
    assigned stem width start (interim stem width start names) name = name := by
  by_cases hmem : name ∈ interim stem width start names
  · obtain ⟨k, hk⟩ := List.mem_iff_getElem?.1 hmem
    rw [assigned_of_getElem? hnodup hk, newName_again hdot hk]
  · exact assigned_of_not_mem hmem

/-- If the names of one renumbering are not too long, nor are those of the next. -/
theorem fits_again (hfits : Fits disk directory stem temporary width start names)
    (hapart : Apart disk place temporary stem) (hapart' : Apart disk' place temporary' stem)
    (hlength : temporary'.length ≤ temporary.length) (hlistable : Listable disk directory)
    (hdot : '.' ∉ stem.toList) (hlimits : disk'.limits = disk.limits) :
    Fits disk' directory stem temporary' width start (interim stem width start names) := by
  have hslash : '/' ∉ temporary.toList := hapart.not_mem (by decide)
  have hslash' : '/' ∉ temporary'.toList := hapart'.not_mem (by decide)
  have hsize (n : Nat) (name : String) : (newName temporary' width n name).utf8ByteSize ≤
      (newName temporary width n name).utf8ByteSize := by
    have := hapart.utf8ByteSize
    have := hapart'.utf8ByteSize
    simp only [newName, String.utf8ByteSize_append]
    omega
  have hsome (hne : interim stem width start names ≠ []) : names ≠ [] :=
    fun hnil => hne (by rw [hnil]; rfl)
  refine ⟨fun hne => hfits.nul (hsome hne), fun hne => hfits.written (hsome hne),
    fun name hname => ?_, fun k name hk => ?_, fun k name hk => ?_⟩
  · obtain ⟨k, hk⟩ := List.mem_iff_getElem?.1 hname
    obtain ⟨old, hold, rfl⟩ := exists_of_getElem?_interim hk
    exact (hlistable _ (hfits.final k old hold)).of_limits hlimits
  · obtain ⟨old, hold, rfl⟩ := exists_of_getElem?_interim hk
    rw [newName_newName hdot]
    exact ((hfits.interim k old hold).of_le (hsize _ old) (head?_newName hslash)
      (head?_newName hslash')).of_limits hlimits
  · rw [newName_again hdot hk]
    obtain ⟨old, hold, rfl⟩ := exists_of_getElem?_interim hk
    exact (hfits.final k old hold).of_limits hlimits

theorem find?_again (hdot : '.' ∉ stem.toList) {k : Nat}
    (h : disk.Lists directory place (interim stem width start names))
    (hk : (interim stem width start names)[k]? = some name) :
    disk.find? (place ++ [newName stem width (start + k) name]) ≠ some .directory := by
  obtain ⟨content, hfind⟩ := h.hasFile (List.mem_of_getElem? hk)
  rw [newName_again hdot hk, hfind]
  nofun

theorem renumber_again {outcome : Renumbering} (htree : disk.IsTree)
    (hnode : disk.node directory = .ok (place, .directory))
    (hapart : Apart disk place temporary stem) (hdot : '.' ∉ stem.toList)
    (hlistable : Listable disk directory)
    (hrun : (renumber Disk.files directory stem start digits temporary).run.run disk =
      (.ok outcome, disk'))
    (hapart' : ∀ place, disk'.node directory = .ok (place, .directory) →
      Apart disk' place temporary' stem)
    (hlength : temporary'.length ≤ temporary.length) :
    ∃ disk'', (renumber Disk.files directory stem start digits temporary').run.run disk' =
        (.ok outcome, disk'') ∧ ∀ p, disk''.find? p = disk'.find? p := by
  obtain ⟨names, hnames, -⟩ := sortedNames_lists htree hnode
  obtain ⟨width, hwidth⟩ : ∃ width, width = max digits (neededDigits start names.length) := ⟨_, rfl⟩
  have hneeded : neededDigits start names.length ≤ width := hwidth ▸ Nat.le_max_right _ _
  -- the first run
  obtain ⟨_, _, hrun', hcourse⟩ := renumber_course_of_inSight hwidth hapart
    (fun _ => hlistable.inSight) htree hnode hnames
  obtain ⟨rfl, rfl⟩ := Prod.mk.inj (hrun.symm.trans hrun')
  have hfits := hcourse.fits hapart hlistable hnames hneeded
  obtain ⟨rfl, hmoved⟩ := hcourse.completed hapart hnode hnames hneeded hfits
  have htree' := hcourse.isTree
  have hnode' := hmoved.node hnode
  have hapart' := hapart' place hnode'
  -- what it has left to the second
  obtain ⟨names', hnames', -⟩ := sortedNames_lists htree' hnode'
  have hlisting := moved_eq_interim hnames hneeded
    (fun k name hk => hlistable _ (hfits.final k name hk)) hmoved hnames'
  subst hlisting
  have hwidth' :
      width = max digits (neededDigits start (interim stem width start names).length) := by
    rw [length_interim, ← hwidth]
  have hfits' := fits_again hfits hapart hapart' hlength hlistable hdot hmoved.limits
  obtain ⟨_, disk'', hrun'', hcourse'⟩ := renumber_course_of_inSight hwidth' hapart'
    (fun _ => (hlistable.of_limits hmoved.limits).inSight) htree' hnode' hnames'
  obtain ⟨rfl, hmoved'⟩ := hcourse'.completes_of_fits hapart' hnode' hnames'
    (by rwa [length_interim]) hfits' fun _ _ => find?_again hdot hnames'
  refine ⟨disk'', by rw [hrun'', length_interim], fun p => ?_⟩
  exact (hmoved'.congr fun name _ => assigned_again hdot hnames'.nodup name).find?_eq p

/-- A renumbering that has come to its end can be done again, with other temporary names. It says
the same of itself then, and leaves everything as it was. -/
theorem run_again {start : Word} {outcome : Renumbering} (htree : disk.IsTree)
    (hapart : ∀ place, disk.node directory = .ok (place, .directory) →
      Apart disk place temporary stem)
    (hdot : '.' ∉ stem.toList) (hlistable : Listable disk directory)
    (hrun : (run Disk.files directory stem start digits temporary).run disk = (.ok outcome, disk'))
    (hapart' : ∀ place, disk'.node directory = .ok (place, .directory) →
      Apart disk' place temporary' stem)
    (hlength : temporary'.length ≤ temporary.length) :
    ∃ disk'', (run Disk.files directory stem start digits temporary').run disk' =
        (.ok outcome, disk'') ∧ ∀ p, disk''.find? p = disk'.find? p := by
  rw [run_eq] at hrun
  split at hrun
  · cases hrun
  rename_i hstart
  by_cases hdirectory : ∃ place, disk.node directory = .ok (place, .directory)
  · obtain ⟨place, hnode⟩ := hdirectory
    obtain ⟨disk'', hrun', hsame⟩ := renumber_again htree hnode (hapart place hnode) hdot
      hlistable hrun hapart' hlength
    exact ⟨disk'', by rw [run_eq, if_neg hstart, hrun'], hsame⟩
  · obtain ⟨fault, hfails⟩ := renumber_fails (not_exists.1 hdirectory)
    rw [hfails] at hrun
    cases hrun

/-- A stem that nothing begins with is still one after a renumbering with another. -/
theorem Apart.of_moved (hapart : Apart disk place temporary stem)
    (hne : stem ≠ temporary) (hnodup : names.Nodup)
    (hall : ∀ name, disk.HasFile place name → name ∈ names)
    (hmoved : Moved place (assigned stem width start names) disk disk') :
    Apart disk' place temporary stem := by
  refine ⟨hapart.letters, fun name hfind hhas => ?_, hapart.unlike, hapart.slash⟩
  obtain ⟨node, hfind⟩ := Option.ne_none_iff_exists'.1 hfind
  cases node with
  | directory =>
    have hold := (hmoved.directory name).1 hfind
    exact hapart.free name (hold ▸ Option.some_ne_none _) hhas
  | file content =>
    obtain ⟨old, rfl, hold⟩ := hmoved.hasFile_iff.1 ⟨content, hfind⟩
    obtain ⟨k, hk⟩ := List.mem_iff_getElem?.1 (hall old hold)
    rw [assigned_of_getElem? hnodup hk] at hhas
    exact (eq_or_hasStem (hapart.not_mem (by decide)) hhas).elim hne hapart.unlike

/-- Three files with a directory beside them, numbered twice with other temporary names. -/
theorem run_again_crowded :
    ∃ disk' disk'',
      (run Disk.files "d" "p" ⟨9, by decide, by decide⟩ 1 "aaaaaaaaaa").run crowded =
        (.ok ⟨3, 2, true⟩, disk') ∧
      disk'.find? ["d", "p-09"] = some (.file "A".toUTF8) ∧
      disk'.find? ["d", "p-10"] = some (.file "B".toUTF8) ∧
      disk'.find? ["d", "p-11.txt"] = some (.file "C".toUTF8) ∧
      (run Disk.files "d" "p" ⟨9, by decide, by decide⟩ 1 "bbbbbbbbbb").run disk' =
        (.ok ⟨3, 2, true⟩, disk'') ∧ ∀ p, disk''.find? p = disk'.find? p := by
  have hfits : Fits crowded "d" "p" "aaaaaaaaaa" 2 9 ["a", "b", "c.txt"] := by
    refine ⟨fun _ => by decide, fun _ => by decide, ?_, fun k name hk => ?_, fun k name hk => ?_⟩
    · simp only [List.forall_mem_cons]
      exact ⟨⟨rfl, rfl⟩, ⟨rfl, rfl⟩, ⟨rfl, rfl⟩, nofun⟩
    all_goals
      match k, hk with
      | 0, rfl => exact ⟨rfl, rfl⟩
      | 1, rfl => exact ⟨rfl, rfl⟩
      | 2, rfl => exact ⟨rfl, rfl⟩
  have hapart (place : Place) : Apart crowded place "aaaaaaaaaa" "p" :=
    ⟨letters_of_all (by decide), not_hasStem_of_entries (by decide), by decide, by decide⟩
  have hapart' : Apart crowded ["d"] "bbbbbbbbbb" "p" :=
    ⟨letters_of_all (by decide), not_hasStem_of_entries (by decide), by decide, by decide⟩
  have hstart : 0 ≤ (⟨9, by decide, by decide⟩ : Word).val := by decide
  have hwidth : 2 = max 1 (neededDigits 9 3) := by decide
  obtain ⟨disk', hrun, -, hmoved⟩ := run_of_fits crowded_isTree crowded_node (by decide)
    (fun _ => crowded_hasFile_iff) (hapart ["d"]) hstart hwidth hfits
    fun _ _ _ => find?_newName_ne_directory (by decide)
  have hnodup : ["a", "b", "c.txt"].Nodup := by decide
  have hgoes (k : Nat) (name : String) (content : ByteArray)
      (hk : ["a", "b", "c.txt"][k]? = some name)
      (hfind : crowded.find? ["d", name] = some (.file content)) :
      disk'.find? ["d", newName "p" 2 (9 + k) name] = some (.file content) :=
    (hmoved.file _ content).2 ⟨name, assigned_of_getElem? hnodup hk, hfind⟩
  have hagain (place : Place) (hplace : disk'.node "d" = .ok (place, .directory)) :
      Apart disk' place "bbbbbbbbbb" "p" := by
    cases hplace.symm.trans (hmoved.node crowded_node)
    exact hapart'.of_moved (by decide) hnodup (fun _ => crowded_hasFile_iff.2) hmoved
  have hlistable : Listable crowded "d" := listable_of_room rfl (by decide)
  obtain ⟨disk'', hrun', hsame⟩ := run_again crowded_isTree (fun place _ => hapart place)
    (by decide) hlistable hrun hagain (by decide)
  exact ⟨disk', disk'', hrun, hgoes 0 "a" _ rfl rfl, hgoes 1 "b" _ rfl rfl,
    hgoes 2 "c.txt" _ rfl rfl, hrun', hsame⟩

/-- A directory with one file. -/
def lone : Disk where
  entries := [(["d"], .directory), (["d", "a"], .file "A".toUTF8)]
  workingDirectory := []
  limits := some .usual

theorem lone_isTree : lone.IsTree := ⟨by decide, by decide⟩

theorem lone_apart : Apart lone place "aaaaaaaaaa" "pppppppppppppppppppp" :=
  ⟨letters_of_all (by decide), not_hasStem_of_entries (by decide), by decide, by decide⟩

theorem find?_lone_eq_some_iff {node : Node} :
    lone.find? (["d"] ++ [name]) = some node ↔ name = "a" ∧ node = .file "A".toUTF8 := by
  constructor
  · intro hfind
    have hentry := Disk.mem_entries_of_find? (by simp) hfind
    simpa [lone] using hentry
  · rintro ⟨rfl, rfl⟩
    rfl

theorem lone_hasFile_iff : name ∈ ["a"] ↔ lone.HasFile ["d"] name := by
  rw [HasFile]
  simp only [find?_lone_eq_some_iff]
  simp

theorem run_of_nil {start : Word} (htree : disk.IsTree)
    (hnode : disk.node directory = .ok (place, .directory))
    (hnames : disk.Lists directory place []) (hstart : 0 ≤ start.val) :
    (run Disk.files directory stem start digits temporary).run disk =
      (.ok ⟨0, max digits (neededDigits start.val.toNat 0),
        decide (digits < neededDigits start.val.toNat 0)⟩, disk) := by
  obtain ⟨names, hlists, hlist⟩ := sortedNames_lists htree hnode
  obtain rfl := hlists.eq hnames
  rw [run_eq, if_neg (Int.not_lt.2 hstart),
    renumber_of_through hnode hlist rfl renameAll_nil hlist renameAll_nil]
  rfl

/-- Behind a padded path the file gets a name under which the second run does not find it. -/
theorem run_again_misses_file :
    lone.IsTree ∧ (∀ place, Apart lone place "aaaaaaaaaa" "pppppppppppppppppppp") ∧
    '.' ∉ "pppppppppppppppppppp".toList ∧
    ∃ disk', (run Disk.files (paddedPath 4080) "pppppppppppppppppppp" ⟨0, by decide, by decide⟩ 1
          "aaaaaaaaaa").run lone = (.ok ⟨1, 1, false⟩, disk') ∧
      disk'.node (paddedPath 4080) = .ok (["d"], .directory) ∧
      Apart disk' ["d"] "aaaaaaaaaa" "pppppppppppppppppppp" ∧
      (run Disk.files (paddedPath 4080) "pppppppppppppppppppp" ⟨0, by decide, by decide⟩ 1
          "aaaaaaaaaa").run disk' = (.ok ⟨0, 1, false⟩, disk') := by
  have hnode : lone.node (paddedPath 4080) = .ok (["d"], .directory) :=
    node_paddedPath rfl rfl (by decide)
  have hfits : Fits lone (paddedPath 4080) "pppppppppppppppppppp" "aaaaaaaaaa" 1 0 ["a"] := by
    refine ⟨fun _ => by decide, fun _ => by decide,
      List.forall_mem_singleton.2 ⟨pathTooLong_paddedPath rfl (by decide), rfl⟩,
      fun k name hk => ?_, fun k name hk => ?_⟩
    · match k, hk with
      | 0, rfl => exact ⟨pathTooLong_paddedPath rfl (by decide), rfl⟩
    · rw [trimEnd_paddedPath]
      match k, hk with
      | 0, rfl => exact ⟨rfl, rfl⟩
  have hstart : 0 ≤ (⟨0, by decide, by decide⟩ : Word).val := by decide
  have hwidth : 1 = max 1 (neededDigits 0 1) := by decide
  obtain ⟨disk', hrun, htree', hmoved⟩ := run_of_fits lone_isTree hnode (by decide)
    (fun _ => lone_hasFile_iff) lone_apart hstart hwidth hfits
    fun _ _ _ => find?_newName_ne_directory (by decide)
  have hnode' := hmoved.node hnode
  have hlists : disk'.Lists (paddedPath 4080) ["d"] [] := by
    refine ⟨List.Pairwise.nil, fun name => iff_of_false List.not_mem_nil ?_⟩
    rintro ⟨hfile, hshort⟩
    obtain ⟨old, rfl, hold⟩ := hmoved.hasFile_iff.1 hfile
    obtain rfl := List.mem_singleton.1 (lone_hasFile_iff.2 hold)
    rw [hmoved.pathTooLong, pathTooLong_paddedPath rfl (by decide)] at hshort
    exact absurd hshort (by decide)
  have hagain : Apart disk' ["d"] "aaaaaaaaaa" "pppppppppppppppppppp" :=
    lone_apart.of_moved (by decide) (by decide) (fun _ => lone_hasFile_iff.2) hmoved
  exact ⟨lone_isTree, fun _ => lone_apart, by decide, disk', hrun, hnode', hagain,
    run_of_nil htree' hnode' hlists hstart⟩

end Renumbering

end ClockCalc
