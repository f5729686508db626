import ClockCalc.Proofs.Obstacles

/-! What a renumbering comes to. Whatever it meets, it moves files about inside the directory and
loses none, provided that its stem is no path and that it sees all the names it can give. If no
directory is in the way and the numbers can be written, it gives all files theirs, in the order of
their names. -/

namespace ClockCalc

namespace Renumbering

open Disk (Moved)

variable {disk : Disk} {directory stem temporary : String} {place : Place} {start : Word}
  {digits : Nat}

/-- Whatever the outcome, the files of the directory are still in it under names of their own, and
nothing else on the disk has changed. A stem with a slash would lead elsewhere, and a file that is
out of sight could be replaced. -/
theorem run_stays_inside (htree : disk.IsTree)
    (hapart : ∀ place, disk.node directory = .ok (place, .directory) →
      Apart disk place temporary stem)
    (hlistable : Listable disk directory) :
    ((run Disk.files directory stem start digits temporary).run disk).2 = disk ∨
      ∃ place f, disk.node directory = .ok (place, .directory) ∧
        Moved place f disk
          ((run Disk.files directory stem start digits temporary).run disk).2 := by
  rw [run_eq]
  split
  · exact .inl rfl
  · by_cases hnode : ∃ place, disk.node directory = .ok (place, .directory)
    · obtain ⟨place, hnode⟩ := hnode
      obtain ⟨names, hnames, -⟩ := sortedNames_lists htree hnode
      obtain ⟨result, disk', hrun, hcourse⟩ := renumber_course_of_inSight rfl (hapart place hnode)
        (fun _ => hlistable.inSight) htree hnode hnames
      obtain ⟨f, hmoved⟩ := hcourse.exists_moved
      exact .inr ⟨place, f, hnode, by rw [hrun]; exact hmoved⟩
    · exact .inl (renumber_of_not_directory (not_exists.1 hnode))

/-- A file in a directory, and one in a directory in there. -/
def nested : Disk where
  entries := [(["d"], .directory), (["d", "a"], .file "A".toUTF8), (["d", "s"], .directory),
    (["d", "s", "p-000"], .file "B".toUTF8)]
  workingDirectory := []
  limits := some .usual

theorem nested_isTree : nested.IsTree := ⟨by decide, by decide⟩

theorem nested_apart (place : Place) : Apart nested place "aaaaaaaaaa" "p" :=
  ⟨letters_of_all (by decide), not_hasStem_of_entries (by decide), by decide, by decide⟩

theorem run_stays_inside_nested :
    nested.IsTree ∧ (∀ place, Apart nested place "aaaaaaaaaa" "p") ∧
    ∀ directory ∈ ["d", "d//", "d/."], Listable nested directory ∧
      ∃ disk', ((run Disk.files directory "p" ⟨0, by decide, by decide⟩ 3 "aaaaaaaaaa").run
          nested).2 = disk' ∧
        (∃ name, disk'.find? ["d", name] = some (.file "A".toUTF8)) ∧
        disk'.find? ["d", "s", "p-000"] = some (.file "B".toUTF8) := by
  have hnode : ∀ directory ∈ ["d", "d//", "d/."],
      nested.node directory = .ok (["d"], .directory) := by
    simp only [List.forall_mem_cons]
    exact ⟨rfl, rfl, rfl, nofun⟩
  have hroom : ∀ directory ∈ ["d", "d//", "d/."], directory.utf8ByteSize + 1 + 255 ≤ 4095 := by
    decide
  refine ⟨nested_isTree, nested_apart, fun directory hmem => ?_⟩
  have hlistable : Listable nested directory := listable_of_room rfl (hroom directory hmem)
  refine ⟨hlistable, _, rfl, ?_⟩
  obtain hsame | ⟨place, f, hplace, hmoved⟩ :=
    run_stays_inside nested_isTree (fun place _ => nested_apart place) hlistable
  · rw [hsame]
    exact ⟨⟨"a", rfl⟩, rfl⟩
  · cases (hnode directory hmem).symm.trans hplace
    exact ⟨⟨f "a", (hmoved.file _ _).2 ⟨"a", rfl, rfl⟩⟩,
      hmoved.elsewhere ["d", "s", "p-000"] (by simp)⟩

/-- With a slash in the stem the file leaves the directory, and the one in the other is lost. -/
theorem run_with_slash_replaces : nested.IsTree ∧ ¬ HasStem "aaaaaaaaaa" "s/p" ∧
    nested.find? ["d", "s", "p-000"] = some (.file "B".toUTF8) ∧
    ((run Disk.files "d" "s/p" ⟨0, by decide, by decide⟩ 3 "aaaaaaaaaa").run nested).2.find?
      ["d", "s", "p-000"] = some (.file "A".toUTF8) := by
  let middle := nested.move ["d", "a"] ["d", "aaaaaaaaaa-000"] "A".toUTF8
  have hfound : nested.names "d" = .ok ["a"] := rfl
  have hlist : (sortedNames Disk.files "d").run.run nested = (.ok ["a"], nested) := by
    rw [run_sortedNames, hfound]
    simp only [List.mergeSort_singleton]
  have hpass : (renameAll Disk.files "d" "aaaaaaaaaa" 3 0 ["a"]).run.run nested =
      (.ok (), middle) := rfl
  have hfound' : middle.names "d" = .ok ["aaaaaaaaaa-000"] := rfl
  have hlist' : (sortedNames Disk.files "d").run.run middle = (.ok ["aaaaaaaaaa-000"], middle) := by
    rw [run_sortedNames, hfound']
    simp only [List.mergeSort_singleton]
  have hpass' : (renameAll Disk.files "d" "s/p" 3 0 ["aaaaaaaaaa-000"]).run.run middle =
    (.ok (), middle.move ["d", "aaaaaaaaaa-000"] ["d", "s", "p-000"] "A".toUTF8) := rfl
  have hwidth : 3 = max 3 (neededDigits 0 ["a"].length) := by decide
  have hnode : nested.node "d" = .ok (["d"], .directory) := rfl
  have hrun := renumber_of_through hnode hlist hwidth hpass hlist' hpass'
  refine ⟨nested_isTree, by decide, rfl, ?_⟩
  rw [run_eq, if_neg (by decide)]
  simp only [Int.toNat_zero, hrun]
  rfl

/-- The directory under a path with slashes at its end. -/
def paddedPath (n : Nat) : String := String.ofList ('d' :: List.replicate n '/')

theorem utf8ByteSize_eq_length {cs : List Char} (h : ∀ c ∈ cs, c.utf8Size = 1) :
    (String.ofList cs).utf8ByteSize = cs.length := by
  induction cs with
  | nil => rfl
  | cons c cs ih =>
    obtain ⟨hc, hcs⟩ := List.forall_mem_cons.1 h
    simp [hc, ih hcs, Nat.add_comm]

theorem utf8ByteSize_paddedPath (n : Nat) : (paddedPath n).utf8ByteSize = n + 1 := by
  have hsize : ∀ c ∈ 'd' :: List.replicate n '/', c.utf8Size = 1 :=
    List.forall_mem_cons.2 ⟨rfl, fun c hc => List.eq_of_mem_replicate hc ▸ rfl⟩
  rw [paddedPath, utf8ByteSize_eq_length hsize, List.length_cons, List.length_replicate]

theorem getLast?_paddedPath (n : Nat) : (paddedPath (n + 1)).toList.getLast? = some '/' := by
  rw [paddedPath, String.toList_ofList, List.replicate_succ', ← List.cons_append,
    List.getLast?_concat]

theorem trimEndChars_replicate (n : Nat) (c : Char) :
    Path.trimEndChars (List.replicate n '/' ++ [c]) = [c] := by
  induction n with
  | zero => exact Path.trimEndChars_eq_self nofun (by simp)
  | succ n ih =>
    have hne : List.replicate n '/' ++ [c] ≠ [] := List.append_ne_nil_of_right_ne_nil _ nofun
    obtain ⟨first, rest, hsplit⟩ := List.exists_cons_of_ne_nil hne
    rw [List.replicate_succ, List.cons_append, hsplit, Path.trimEndChars, ← hsplit, ih]

theorem trimEnd_paddedPath (n : Nat) : Path.trimEnd (paddedPath n) = "d" := by
  rw [Path.trimEnd, paddedPath, String.toList_ofList, List.reverse_cons, List.reverse_replicate,
    trimEndChars_replicate]
  rfl

theorem lead_paddedPath (hnode : disk.node "d" = .ok (place, .directory)) (n : Nat) :
    disk.lead ('d' :: List.replicate n '/') = .ok place := by
  obtain ⟨hlocate, hplace⟩ := Disk.node_eq_ok_iff.1 hnode
  induction n with
  | zero => exact (Disk.locate_eq_ok_iff.1 hlocate).2.2.2
  | succ n ih =>
    rw [List.replicate_succ', ← List.cons_append, Disk.lead_slash (List.cons_ne_nil _ _)]
    exact ⟨ih, hplace⟩

theorem node_paddedPath (hlimits : disk.limits = some .usual)
    (hnode : disk.node "d" = .ok (place, .directory)) {n : Nat} (hn : n < 4095) :
    disk.node (paddedPath n) = .ok (place, .directory) := by
  have hplace := (Disk.node_eq_ok_iff.1 hnode).2
  refine Disk.node_eq_ok_iff.2 ⟨Disk.locate_eq_ok_iff.2 ⟨?_, ?_, ?_, ?_⟩, hplace⟩
  · simp [paddedPath]
  · simp [paddedPath]
  · rw [Disk.pathTooLong, utf8ByteSize_paddedPath, hlimits]
    simp [PathLimits.usual]
    omega
  · rw [paddedPath, String.toList_ofList]
    exact lead_paddedPath hnode n

theorem pathTooLong_paddedPath {name : String} (hlimits : disk.limits = some .usual)
    (hname : name.toList.head? ≠ some '/') :
    disk.pathTooLong (Path.join (paddedPath 4080) name) = decide (14 < name.utf8ByteSize) := by
  rw [Disk.pathTooLong, Path.utf8ByteSize_join hname, if_pos (getLast?_paddedPath 4079),
    utf8ByteSize_paddedPath, hlimits]
  simp only [PathLimits.usual, Option.any_some]
  exact decide_eq_decide.2 (by omega)

theorem sortedNames_singleton {name : String} (htree : disk.IsTree)
    (hnode : disk.node directory = .ok (place, .directory)) (hfile : disk.HasFile place name)
    (hshort : disk.pathTooLong (Path.join directory name) = false)
    (hrest : ∀ other, disk.HasFile place other →
      disk.pathTooLong (Path.join directory other) = false → other = name) :
    (sortedNames Disk.files directory).run.run disk = (.ok [name], disk) := by
  have hlists : disk.Lists directory place [name] := by
    refine ⟨List.pairwise_singleton _ _, fun other => ?_⟩
    rw [List.mem_singleton]
    exact ⟨fun heq => heq ▸ ⟨hfile, hshort⟩, fun h => hrest other h.1 h.2⟩
  obtain ⟨names, hnames, hlist⟩ := sortedNames_lists htree hnode
  obtain rfl := hnames.eq hlists
  exact hlist

theorem renameAll_singleton {name : String} {width n : Nat} {disk' : Disk}
    (hwritten : width ≤ widest)
    (hrename : disk.renameIn directory name (newName stem width n name) = .ok disk') :
    (renameAll Disk.files directory stem width n [name]).run.run disk = (.ok (), disk') := by
  rw [renameAll_cons hwritten, hrename]
  rfl

/-- Two files, of which the second is out of sight behind a long path. -/
def paired : Disk where
  entries := [(["d"], .directory), (["d", "a"], .file "A".toUTF8),
    (["d", "pppppppppppppppppppp-0"], .file "B".toUTF8)]
  workingDirectory := []
  limits := some .usual

/-- A file whose path is too long is not listed, but a shorter path with a new name leads to it. -/
theorem run_behind_slashes_replaces :
    paired.IsTree ∧ Apart paired ["d"] "aaaaaaaaaa" "pppppppppppppppppppp" ∧
    paired.find? ["d", "pppppppppppppppppppp-0"] = some (.file "B".toUTF8) ∧
    ∃ disk', (run Disk.files (paddedPath 4080) "pppppppppppppppppppp" ⟨0, by decide, by decide⟩ 1
          "aaaaaaaaaa").run paired = (.ok ⟨1, 1, false⟩, disk') ∧
      disk'.find? ["d", "pppppppppppppppppppp-0"] = some (.file "A".toUTF8) ∧
      ∀ p, disk'.find? p ≠ some (.file "B".toUTF8) := by
  let middle := paired.move ["d", "a"] ["d", "aaaaaaaaaa-0"] "A".toUTF8
  let last := middle.move ["d", "aaaaaaaaaa-0"] ["d", "pppppppppppppppppppp-0"] "A".toUTF8
  have hentries : middle.entries = [(["d"], .directory),
      (["d", "pppppppppppppppppppp-0"], .file "B".toUTF8),
      (["d", "aaaaaaaaaa-0"], .file "A".toUTF8)] := rfl
  have htree : paired.IsTree := ⟨by decide, by decide⟩
  have htree' : middle.IsTree := ⟨by decide, by decide⟩
  have hnode : paired.node (paddedPath 4080) = .ok (["d"], .directory) :=
    node_paddedPath rfl rfl (by decide)
  have hnode' : middle.node (paddedPath 4080) = .ok (["d"], .directory) :=
    node_paddedPath rfl rfl (by decide)
  have hshort (name : String) (hname : name.toList.head? ≠ some '/') :
      paired.pathTooLong (Path.join (paddedPath 4080) name) = decide (14 < name.utf8ByteSize) :=
    pathTooLong_paddedPath rfl hname
  have hlong := hshort "pppppppppppppppppppp-0" (by decide)
  have hlist : (sortedNames Disk.files (paddedPath 4080)).run.run paired = (.ok ["a"], paired) := by
    refine sortedNames_singleton htree hnode ⟨_, rfl⟩ (hshort "a" (by decide)) ?_
    rintro other ⟨content, hfind⟩ hsmall
    have hentry := Disk.mem_entries_of_find? (by simp) hfind
    simp [paired] at hentry
    rcases hentry with ⟨rfl, -⟩ | ⟨rfl, -⟩
    · rfl
    · cases hlong.symm.trans hsmall
  have hlist' : (sortedNames Disk.files (paddedPath 4080)).run.run middle =
      (.ok ["aaaaaaaaaa-0"], middle) := by
    refine sortedNames_singleton htree' hnode' ⟨_, rfl⟩ (hshort "aaaaaaaaaa-0" (by decide)) ?_
    rintro other ⟨content, hfind⟩ hsmall
    have hentry := Disk.mem_entries_of_find? (by simp) hfind
    simp [hentries] at hentry
    rcases hentry with ⟨rfl, -⟩ | ⟨rfl, -⟩
    · cases hlong.symm.trans hsmall
    · rfl
  have hpass : (renameAll Disk.files (paddedPath 4080) "aaaaaaaaaa" 1 0 ["a"]).run.run paired =
      (.ok (), middle) := by
    have hold : paired.Admits (paddedPath 4080) "a" := ⟨by decide, hshort "a" (by decide), rfl⟩
    have hnew : paired.Admits "d" (newName "aaaaaaaaaa" 1 0 "a") := ⟨by decide, rfl, rfl⟩
    rw [← trimEnd_paddedPath 4080] at hnew
    have hmoves := (Disk.renameIn_eq_ok_iff hnode (by decide) (by decide)).2
      ⟨_, rfl, hold, hnew, nofun, rfl⟩
    exact renameAll_singleton (by decide) hmoves
  have hpass' : (renameAll Disk.files (paddedPath 4080) "pppppppppppppppppppp" 1 0
      ["aaaaaaaaaa-0"]).run.run middle = (.ok (), last) := by
    have hold : middle.Admits (paddedPath 4080) "aaaaaaaaaa-0" :=
      ⟨by decide, hshort "aaaaaaaaaa-0" (by decide), rfl⟩
    have hnew : middle.Admits "d" (newName "pppppppppppppppppppp" 1 0 "aaaaaaaaaa-0") :=
      ⟨by decide, rfl, rfl⟩
    rw [← trimEnd_paddedPath 4080] at hnew
    have hmoves := (Disk.renameIn_eq_ok_iff hnode' (by decide) (by decide)).2
      ⟨_, rfl, hold, hnew, nofun, rfl⟩
    exact renameAll_singleton (by decide) hmoves
  have hwidth : 1 = max 1 (neededDigits 0 ["a"].length) := by decide
  have hrun := renumber_of_through hnode hlist hwidth hpass hlist' hpass'
  refine ⟨htree, ⟨letters_of_all (by decide), not_hasStem_of_entries (by decide), by decide,
    by decide⟩, rfl, last, ?_, rfl, fun p hfind => ?_⟩
  · rw [run_eq, if_neg (by decide)]
    simp only [Int.toNat_zero, hrun]
    rfl
  · have hlast : last.entries = [(["d"], .directory),
        (["d", "pppppppppppppppppppp-0"], .file "A".toUTF8)] := rfl
    have hentry := Disk.mem_entries_of_find? (fun hp => by cases hp ▸ hfind) hfind
    simp [hlast] at hentry
    exact absurd hentry.2 (by decide)

theorem lists_of_unlimited {names : List String} (hlimits : disk.limits = none)
    (hsorted : names.Pairwise fun name name' => utf8 name < utf8 name')
    (hnames : ∀ name, name ∈ names ↔ disk.HasFile place name) :
    disk.Lists directory place names := by
  refine ⟨hsorted.imp utf8_lt_iff.1, fun name => ?_⟩
  rw [hnames, and_iff_left (Disk.pathTooLong_of_unlimited hlimits _)]

/-- The names of the files are put in the order of their bytes and numbered from the start on, with
as many digits as the last number needs. -/
theorem run_numbers_in_order {names : List String} {last width : Nat} (htree : disk.IsTree)
    (hlimits : disk.limits = none) (hnode : disk.node directory = .ok (place, .directory))
    (hsorted : names.Pairwise fun name name' => utf8 name < utf8 name')
    (hnames : ∀ name, name ∈ names ↔ disk.HasFile place name)
    (hapart : Apart disk place temporary stem) (hnul : '\x00' ∉ stem.toList)
    (hstart : 0 ≤ start.val) (hlast : last = start.val.toNat + (names.length - 1))
    (hwidth : width = max digits (Nat.toDigits 10 last).length)
    (hwritten : names ≠ [] → width ≤ widest)
    (htargets : ∀ k name, names[k]? = some name →
      disk.find? (place ++ [newName stem width (start.val.toNat + k) name]) ≠ some .directory) :
    ∃ disk', (run Disk.files directory stem start digits temporary).run disk =
        (.ok ⟨names.length, width, decide (digits < (Nat.toDigits 10 last).length)⟩, disk') ∧
      (∀ k name, names[k]? = some name → ∃ ext, Path.HasExtension name.toList ext ∧
        disk'.find? (place ++ [stem ++ "-" ++
          String.ofList (Numeral.padded width (start.val.toNat + k)) ++ String.ofList ext]) =
        disk.find? (place ++ [name])) ∧
      (∀ name', disk'.HasFile place name' → ∃ k name, names[k]? = some name ∧
        name' = newName stem width (start.val.toNat + k) name) ∧
      (∀ name, disk'.find? (place ++ [name]) = some .directory ↔
        disk.find? (place ++ [name]) = some .directory) ∧
      (∀ p, (∀ name, p ≠ place ++ [name]) → disk'.find? p = disk.find? p) := by
  subst hlast
  obtain ⟨disk', hrun, -, hmoved⟩ := run_of_fits htree hnode (hsorted.imp utf8_lt_iff.1) hnames
    hapart hstart hwidth (fits_of_unlimited hlimits hnul hwritten) htargets
  have hlists : disk.Lists directory place names := lists_of_unlimited hlimits hsorted hnames
  have hassigned {k : Nat} {name : String} (hk : names[k]? = some name) :
      assigned stem width start.val.toNat names name =
        newName stem width (start.val.toNat + k) name := assigned_of_getElem? hlists.nodup hk
  refine ⟨disk', hrun, fun k name hk => ?_, fun name' hfile => ?_, hmoved.directory,
    hmoved.elsewhere⟩
  · obtain ⟨content, hfind⟩ := (hnames name).1 (List.mem_of_getElem? hk)
    refine ⟨_, Path.hasExtension name.toList, ?_⟩
    rw [hfind]
    exact (hmoved.file _ content).2 ⟨name, hassigned hk, hfind⟩
  · obtain ⟨name, rfl, hold⟩ := hmoved.hasFile_iff.1 hfile
    obtain ⟨k, hk⟩ := List.mem_iff_getElem?.1 ((hnames name).2 hold)
    exact ⟨k, name, hk, hassigned hk⟩

/-- Two files, and one in a directory beside them. -/
def shelf : Disk where
  entries := [(["d"], .directory), (["d", "b.txt"], .file "B".toUTF8),
    (["d", "a"], .file "A".toUTF8), (["d", "s"], .directory),
    (["d", "s", "x-09"], .file "S".toUTF8)]
  workingDirectory := []
  limits := none

theorem shelf_isTree : shelf.IsTree := ⟨by decide, by decide⟩

theorem shelf_node : shelf.node "d" = .ok (["d"], .directory) := rfl

theorem shelf_hasFile_iff {name : String} :
    name ∈ ["a", "b.txt"] ↔ shelf.HasFile ["d"] name := by
  have hfound : shelf.names "d" = .ok ["b.txt", "a"] := rfl
  obtain ⟨found, hfound', -, hmem⟩ := Disk.names_of_directory shelf_isTree shelf_node
  cases hfound.symm.trans hfound'
  have hshort : shelf.pathTooLong (Path.join "d" name) = false := rfl
  have hswap : name ∈ ["a", "b.txt"] ↔ name ∈ ["b.txt", "a"] :=
    List.Perm.mem_iff (.swap "b.txt" "a" [])
  exact hswap.trans ((hmem name).trans (and_iff_left hshort))

theorem shelf_apart : Apart shelf ["d"] "aaaaaaaaaa" "x" :=
  ⟨letters_of_all (by decide), not_hasStem_of_entries (by decide), by decide, by decide⟩

theorem find?_shelf_ne_directory {width n : Nat} {name : String} :
    shelf.find? (["d"] ++ [newName "x" width n name]) ≠ some .directory :=
  find?_newName_ne_directory (by decide)

theorem run_numbers_shelf :
    ∃ disk', (run Disk.files "d" "x" ⟨9, by decide, by decide⟩ 1 "aaaaaaaaaa").run shelf =
        (.ok ⟨2, 2, true⟩, disk') ∧
      disk'.find? ["d", "x-09"] = some (.file "A".toUTF8) ∧
      disk'.find? ["d", "x-10.txt"] = some (.file "B".toUTF8) ∧
      disk'.find? ["d", "s", "x-09"] = some (.file "S".toUTF8) := by
  have hstart : 0 ≤ (⟨9, by decide, by decide⟩ : Word).val := by decide
  have hwidth : 2 = max 1 (Nat.toDigits 10 10).length := by decide
  obtain ⟨disk', hrun, hcontents, -, -, helsewhere⟩ :=
    run_numbers_in_order shelf_isTree rfl shelf_node (by decide) (fun _ => shelf_hasFile_iff)
      shelf_apart (by decide) hstart rfl hwidth (fun _ => by decide)
      fun _ _ _ => find?_shelf_ne_directory
  refine ⟨disk', hrun, ?_, ?_, ?_⟩
  · obtain ⟨_, hext, hfind⟩ := hcontents 0 "a" rfl
    cases hext.eq
    exact hfind
  · obtain ⟨_, hext, hfind⟩ := hcontents 1 "b.txt" rfl
    cases hext.eq
    exact hfind
  · exact helsewhere ["d", "s", "x-09"] (by simp)

/-- A width that no number can be written with breaks the renumbering off at the first file. -/
theorem run_breaks_off {names : List String} {width : Nat} (htree : disk.IsTree)
    (hnode : disk.node directory = .ok (place, .directory))
    (hnames : disk.Lists directory place names) (hne : names ≠ []) (hstart : 0 ≤ start.val)
    (hwidth : width = max digits (neededDigits start.val.toNat names.length))
    (hwide : widest < width) :
    (run Disk.files directory stem start digits temporary).run disk =
      (.error (.tooWide width), disk) := by
  obtain ⟨found, hfound, hlist⟩ := sortedNames_lists htree hnode
  obtain rfl := hfound.eq hnames
  obtain ⟨first, rest, rfl⟩ := List.exists_cons_of_ne_nil hne
  rw [run_eq, if_neg (Int.not_lt.2 hstart)]
  exact renumber_of_interrupted hnode hlist hwidth (renameAll_of_wide hwide)

theorem run_breaks_off_on_shelf :
    shelf.IsTree ∧ shelf.limits = none ∧
    (∀ name, name ∈ ["a", "b.txt"] ↔ shelf.HasFile ["d"] name) ∧
    Apart shelf ["d"] "aaaaaaaaaa" "x" ∧ '\x00' ∉ "x".toList ∧
    (∀ k name, ["a", "b.txt"][k]? = some name →
      shelf.find? (["d"] ++ [newName "x" 65536 (9 + k) name]) ≠ some .directory) ∧
    (run Disk.files "d" "x" ⟨9, by decide, by decide⟩ 65536 "aaaaaaaaaa").run shelf =
      (.error (.tooWide 65536), shelf) := by
  have hlists : shelf.Lists "d" ["d"] ["a", "b.txt"] :=
    lists_of_unlimited rfl (by decide) fun _ => shelf_hasFile_iff
  have hstart : 0 ≤ (⟨9, by decide, by decide⟩ : Word).val := by decide
  have hwidth : 65536 = max 65536 (neededDigits 9 2) := by decide
  exact ⟨shelf_isTree, rfl, fun _ => shelf_hasFile_iff, shelf_apart, by decide,
    fun _ _ _ => find?_shelf_ne_directory,
    run_breaks_off shelf_isTree shelf_node hlists nofun hstart hwidth (by decide)⟩

end Renumbering

end ClockCalc
